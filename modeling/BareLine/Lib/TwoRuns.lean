import Mathlib

/-!
# Two runs side by side

Two programs over state and exceptions, started in related states, give the same answer in related
states or fail with related errors.  The relation of a program with itself is an invariant that
holds of its errors too.
-/

namespace BareLine.Lib

variable {σ τ ε η α β : Type}

/-! ## §1 Results -/

/-- Both results are the same answer in related states, or related errors. -/
inductive Agree (R : σ → τ → Prop) (E : ε → η → Prop) :
    Except ε (α × σ) → Except η (α × τ) → Prop where
  | ok {s : σ} {t : τ} (a : α) (h : R s t) : Agree R E (.ok (a, s)) (.ok (a, t))
  | error {e : ε} {e' : η} (h : E e e') : Agree R E (.error e) (.error e')

variable {R : σ → τ → Prop} {E : ε → η → Prop}

/-- The second programs go on from what the first ones gave. -/
theorem Agree.bind {s : σ} {t : τ} {f : StateT σ (Except ε) α} {f' : StateT τ (Except η) α}
    {g : α → StateT σ (Except ε) β} {g' : α → StateT τ (Except η) β}
    (hf : Agree R E (f s) (f' t))
    (hg : ∀ a s' t', f s = .ok (a, s') → R s' t' → Agree R E (g a s') (g' a t')) :
    Agree R E ((f >>= g) s) ((f' >>= g') t) := by
  show Agree R E (f s >>= fun r => g r.1 r.2) (f' t >>= fun r => g' r.1 r.2)
  generalize hx : f s = x, f' t = y at hf
  cases hf with
  | ok a h => exact hg a _ _ hx h
  | error h => exact .error h

/-! ## §2 Programs -/

/-- From related states both programs end alike. -/
def TwoRuns (R : σ → τ → Prop) (E : ε → η → Prop) (f : StateT σ (Except ε) α)
    (g : StateT τ (Except η) α) : Prop := ∀ s t, R s t → Agree R E (f s) (g t)

namespace TwoRuns

theorem pure (a : α) : TwoRuns R E (pure a) (pure a) := fun _ _ h => .ok a h

theorem bind {f : StateT σ (Except ε) α} {f' : StateT τ (Except η) α}
    {g : α → StateT σ (Except ε) β} {g' : α → StateT τ (Except η) β} (hf : TwoRuns R E f f')
    (hg : ∀ a, TwoRuns R E (g a) (g' a)) : TwoRuns R E (f >>= g) (f' >>= g') :=
  fun s t h => (hf s t h).bind fun a s' t' _ => hg a s' t'

/-- Programs that change the state and always succeed. -/
theorem modify {f : σ → σ} {g : τ → τ} (h : ∀ s t, R s t → R (f s) (g t)) :
    TwoRuns R E (modify f) (modify g) := fun s t hst => .ok () (h s t hst)

theorem ite {c : Prop} [Decidable c] {f f' : StateT σ (Except ε) α} {g g' : StateT τ (Except η) α}
    (hf : TwoRuns R E f g) (hf' : TwoRuns R E f' g') :
    TwoRuns R E (if c then f else f') (if c then g else g') := by
  split_ifs
  · exact hf
  · exact hf'

end TwoRuns

end BareLine.Lib
