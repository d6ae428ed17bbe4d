import Mathlib

/-!
# Checked computations

Code whose arithmetic and whose indices are checked: an operation that leaves its machine type,
or an index outside its vector, is a fault.  A computation also stops when it reports a reason
of its own.  `Ensures` is the rule of proof: no fault happens, each report has its reason, and
the result fits a postcondition.
-/

namespace BareLine.Lib

/-! ## §1 Computations that stop -/

namespace Checked

inductive Stop (ε : Type) where
  | report (e : ε)
  | fault
  deriving DecidableEq, Repr

end Checked

abbrev Checked (σ ε : Type) := StateT σ (Except (Checked.Stop ε))

namespace Checked

variable {σ ε α β : Type}

def fault : Checked σ ε α := throw .fault

/-- A partial operation, with a fault where it has no value. -/
def require : Option α → Checked σ ε α
  | some a => pure a
  | none => fault

@[simp] theorem require_some (a : α) : (require (some a) : Checked σ ε α) = pure a := rfl

/-! ## §2 Postconditions -/

/-- From the states of `pre` no fault happens, a report has its reason, and a result comes with
a state of `post`. -/
def Ensures (reason : ε → Prop) (pre : σ → Prop) (m : Checked σ ε α) (post : α → σ → Prop) :
    Prop :=
  ∀ s, pre s → match m s with
    | .ok (a, s') => post a s'
    | .error (.report e) => reason e
    | .error .fault => False

section Rules

variable {reason : ε → Prop} {pre pre' : σ → Prop} {post post' : α → σ → Prop}

theorem Ensures.pure {a : α} (h : ∀ s, pre s → post a s) :
    Ensures reason pre (Pure.pure a : Checked σ ε α) post := h

theorem Ensures.bind {m : Checked σ ε α} {f : α → Checked σ ε β} {mid : α → σ → Prop}
    {post : β → σ → Prop} (hm : Ensures reason pre m mid)
    (hf : ∀ a, Ensures reason (mid a) (f a) post) : Ensures reason pre (m >>= f) post := by
  intro s hs
  have h := hm s hs
  show match (m s >>= fun r => f r.1 r.2) with
    | .ok (b, s') => post b s'
    | .error (.report e) => reason e
    | .error .fault => False
  rcases hrun : m s with stop | ⟨a, s'⟩
  · rw [hrun] at h
    cases stop with
    | report e => exact h
    | fault => exact h
  · rw [hrun] at h
    exact hf a s' h

theorem Ensures.weaken {m : Checked σ ε α} (h : Ensures reason pre m post)
    (hpre : ∀ s, pre' s → pre s) (hpost : ∀ a s, post a s → post' a s) :
    Ensures reason pre' m post' := by
  intro s hs
  have := h s (hpre s hs)
  rcases hrun : m s with stop | ⟨a, s'⟩
  · rw [hrun] at this
    cases stop with
    | report e => exact this
    | fault => exact this
  · rw [hrun] at this
    exact hpost a s' this

/-- A fact that does not depend on the state comes out of the precondition. -/
theorem Ensures.of_fact {p : Prop} {m : Checked σ ε α} (hp : ∀ s, pre s → p)
    (h : p → Ensures reason pre m post) : Ensures reason pre m post :=
  fun s hs => h (hp s hs) s hs

end Rules

end Checked

end BareLine.Lib
