import Mathlib

/-!
# Programs over operations

A program asks its environment for one operation after the other and continues with the
answers.  The environment answers from a world that each operation may change; a run may
stop before any operation, and then has no result.

`Meets` is the rule of proof: every world a run passes through keeps an invariant, and the
result fits a postcondition.
-/

namespace BareLine.Lib

/-! ## §1 Programs and runs -/

/-- A program with operations `Op`, each with its type of answers. -/
inductive Program (Op : Type) (Answer : Op → Type) (α : Type) where
  | done (a : α)
  | call (op : Op) (next : Answer op → Program Op Answer α)

namespace Program

variable {Op : Type} {Answer : Op → Type} {α β : Type}

def bind : Program Op Answer α → (α → Program Op Answer β) → Program Op Answer β
  | done a, f => f a
  | call op next, f => call op fun answer => (next answer).bind f

instance : Monad (Program Op Answer) where
  pure := done
  bind := bind

/-- The program that asks once. -/
def ask (op : Op) : Program Op Answer (Answer op) := call op done

end Program

/-- How an environment answers: the world before, the operation, the answer and the world
after it. -/
abbrev Machine (Op : Type) (Answer : Op → Type) (World : Type) :=
  World → (op : Op) → Answer op → World → Prop

section Rules

variable {Op : Type} {Answer : Op → Type} {World α β : Type}
variable (machine : Machine Op Answer World)

/-- The runs of a program: where they end, with a result unless they stop on the way. -/
inductive Run : World → Program Op Answer α → Option α → World → Prop
  | stop {w : World} {p : Program Op Answer α} : Run w p none w
  | done {w : World} {a : α} : Run w (.done a) (some a) w
  | call {w w₁ w₂ : World} {op : Op} {next : Answer op → Program Op Answer α}
      {answer : Answer op} {result : Option α} (hstep : machine w op answer w₁)
      (hrun : Run w₁ (next answer) result w₂) : Run w (.call op next) result w₂

variable {machine} in
/-- A run is one of another machine, seen through a map of its worlds. -/
theorem Run.map {World' : Type} {machine' : Machine Op Answer World'} (f : World → World')
    (hstep : ∀ w op answer w', machine w op answer w' → machine' (f w) op answer (f w'))
    {w w' : World} {p : Program Op Answer α} {result : Option α}
    (h : Run machine w p result w') : Run machine' (f w) p result (f w') := by
  induction h with
  | stop => exact .stop
  | done => exact .done
  | call h hrun ih => exact .call (hstep _ _ _ _ h) ih

variable {machine} in
/-- A run that returns, and one of what follows. -/
theorem Run.bind {w w₁ w₂ : World} {p : Program Op Answer α} {f : α → Program Op Answer β} {a : α}
    {result : Option β} (h : Run machine w p (some a) w₁) (hrest : Run machine w₁ (f a) result w₂) :
    Run machine w (p >>= f) result w₂ := by
  generalize hsome : some a = r at h
  induction h with
  | stop => cases hsome
  | done =>
    cases hsome
    exact hrest
  | call hstep hrun ih => exact .call hstep (ih hrest hsome)

variable {machine} in
/-- A run that succeeds, and one of what follows. -/
theorem Run.andThen {ε : Type} {w w₁ w₂ : World} {p : ExceptT ε (Program Op Answer) α}
    {f : α → ExceptT ε (Program Op Answer) β} {a : α} {result : Option (Except ε β)}
    (h : Run machine w p.run (some (.ok a)) w₁) (hrest : Run machine w₁ (f a).run result w₂) :
    Run machine w (p >>= f).run result w₂ :=
  Run.bind (f := ExceptT.bindCont f) h hrest

variable {machine} in
/-- A run that fails ends what follows. -/
theorem Run.fails {ε : Type} {w w₁ : World} {p : ExceptT ε (Program Op Answer) α}
    {f : α → ExceptT ε (Program Op Answer) β} {e : ε}
    (h : Run machine w p.run (some (.error e)) w₁) :
    Run machine w (p >>= f).run (some (.error e)) w₁ :=
  Run.bind (f := ExceptT.bindCont f) h .done

/-- The run of an environment that computes its answers. -/
def Program.follow (answers : World → (op : Op) → Answer op × World) :
    Program Op Answer α → World → α × World
  | .done a, w => (a, w)
  | .call op next, w => (next (answers w op).1).follow answers (answers w op).2

variable {machine} in
theorem Run.follow {answers : World → (op : Op) → Answer op × World}
    (hanswers : ∀ w op, machine w op (answers w op).1 (answers w op).2)
    (p : Program Op Answer α) (w : World) :
    Run machine w p (some (p.follow answers w).1) (p.follow answers w).2 := by
  induction p generalizing w with
  | done a => exact .done
  | call op next ih => exact .call (hanswers w op) (ih _ _)

/-- The world of that run after some operations. -/
def Program.followFor (answers : World → (op : Op) → Answer op × World) :
    Nat → Program Op Answer α → World → World
  | steps + 1, .call op next, w =>
    (next (answers w op).1).followFor answers steps (answers w op).2
  | _, _, w => w

variable {machine} in
/-- A run may end after any number of operations. -/
theorem Run.followFor {answers : World → (op : Op) → Answer op × World}
    (hanswers : ∀ w op, machine w op (answers w op).1 (answers w op).2)
    (steps : Nat) (p : Program Op Answer α) (w : World) :
    Run machine w p none (p.followFor answers steps w) := by
  induction p generalizing w steps with
  | done a => cases steps <;> exact .stop
  | call op next ih =>
    cases steps with
    | zero => exact .stop
    | succ steps => exact .call (hanswers w op) (ih _ steps _)

theorem Program.follow_bind (answers : World → (op : Op) → Answer op × World)
    (p : Program Op Answer α) (f : α → Program Op Answer β) (w : World) :
    (p >>= f).follow answers w =
      (f (p.follow answers w).1).follow answers (p.follow answers w).2 := by
  induction p generalizing w with
  | done a => rfl
  | call op next ih => exact ih _ _

section Computed

variable {ε : Type} {answers : World → (op : Op) → Answer op × World}
  {p : ExceptT ε (Program Op Answer) α} {f : α → ExceptT ε (Program Op Answer) β} {w w' : World}

/-- The computed run of a program after one that succeeds. -/
theorem Program.follow_ok {a : α} (h : p.run.follow answers w = (.ok a, w')) :
    (p >>= f).run.follow answers w = (f a).run.follow answers w' := by
  show (p.run >>= ExceptT.bindCont f).follow answers w = _
  rw [follow_bind, h]
  rfl

theorem Program.follow_error {e : ε} (h : p.run.follow answers w = (.error e, w')) :
    (p >>= f).run.follow answers w = (.error e, w') := by
  show (p.run >>= ExceptT.bindCont f).follow answers w = _
  rw [follow_bind, h]
  rfl

end Computed

/-! ## §2 Invariants and postconditions -/

/-- Every world of every run keeps the invariant, and a result satisfies the
postcondition. -/
def Meets (inv : World → Prop) : Program Op Answer α → (α → World → Prop) → World → Prop
  | .done a, post, w => inv w ∧ post a w
  | .call op next, post, w =>
    inv w ∧ ∀ answer w', machine w op answer w' → Meets inv (next answer) post w'

variable {machine} {inv : World → Prop} {post post' : α → World → Prop} {w w' : World}

/-- What `Meets` says of a run. -/
theorem Meets.run {p : Program Op Answer α} {result : Option α} (h : Meets machine inv p post w)
    (hrun : Run machine w p result w') : inv w' ∧ ∀ a, result = some a → post a w' := by
  induction hrun with
  | @stop w p =>
    refine ⟨?_, fun a ha => nomatch ha⟩
    cases p with
    | done a => exact h.1
    | call op next => exact h.1
  | done => exact ⟨h.1, fun a ha => Option.some.inj ha ▸ h.2⟩
  | call hstep hrun ih => exact ih (h.2 _ _ hstep)

theorem Meets.holds {p : Program Op Answer α} (h : Meets machine inv p post w) : inv w := by
  cases p with
  | done a => exact h.1
  | call op next => exact h.1

theorem Meets.pure {a : α} (hinv : inv w) (hpost : post a w) :
    Meets machine inv (Pure.pure a) post w :=
  ⟨hinv, hpost⟩

/-- One operation: what holds before it, and what holds after every answer. -/
theorem Meets.ask {op : Op} {post : Answer op → World → Prop} (hinv : inv w)
    (hpost : ∀ answer w', machine w op answer w' → inv w' ∧ post answer w') :
    Meets machine inv (Program.ask op) post w :=
  ⟨hinv, hpost⟩

theorem Meets.weaken {p : Program Op Answer α} (h : Meets machine inv p post w)
    (hpost : ∀ a w', inv w' → post a w' → post' a w') : Meets machine inv p post' w := by
  induction p generalizing w with
  | done a => exact ⟨h.1, hpost a w h.1 h.2⟩
  | call op next ih => exact ⟨h.1, fun answer w' hstep => ih answer (h.2 answer w' hstep)⟩

theorem Meets.relax {p : Program Op Answer α} {inv' : World → Prop}
    (h : Meets machine inv p post w) (hinv : ∀ w', inv w' → inv' w') :
    Meets machine inv' p post w := by
  induction p generalizing w with
  | done a => exact ⟨hinv w h.1, h.2⟩
  | call op next ih => exact ⟨hinv w h.1, fun answer w' hstep => ih answer (h.2 answer w' hstep)⟩

/-- One program after another. -/
theorem Meets.bind {p : Program Op Answer α} {f : α → Program Op Answer β}
    {post : β → World → Prop}
    (h : Meets machine inv p (fun a w' => Meets machine inv (f a) post w') w) :
    Meets machine inv (p >>= f) post w := by
  induction p generalizing w with
  | done a => exact h.2
  | call op next ih => exact ⟨h.1, fun answer w' hstep => ih answer (h.2 answer w' hstep)⟩

/-! ## §3 Programs that may fail -/

variable {ε : Type} {posts : Except ε β → World → Prop}

/-- A program after one that may fail. -/
theorem Meets.andThen {p : ExceptT ε (Program Op Answer) α}
    {f : α → ExceptT ε (Program Op Answer) β}
    (h : Meets machine inv p.run (fun r w' =>
      match r with
      | .ok a => Meets machine inv (f a).run posts w'
      | .error e => posts (.error e) w') w) :
    Meets machine inv (p >>= f).run posts w := by
  show Meets machine inv (p.run >>= ExceptT.bindCont f) posts w
  refine Meets.bind (h.weaken fun r w' hinv hr => ?_)
  cases r with
  | ok a => exact hr
  | error e => exact .pure hinv hr

/-- A program that cannot fail, inside one that may. -/
theorem Meets.lift {p : Program Op Answer α} {post : Except ε α → World → Prop}
    (h : Meets machine inv p (fun a w' => post (.ok a) w') w) :
    Meets machine inv (ExceptT.run (liftM p)) post w :=
  Meets.bind (h.weaken fun _ _ hinv hpost => .pure hinv hpost)

variable (machine inv) in
/-- Every world keeps the invariant, and a success satisfies the postcondition. -/
def Holds (p : ExceptT ε (Program Op Answer) α) (post : α → World → Prop) (w : World) : Prop :=
  Meets machine inv p.run (fun r w' => ∀ a, r = .ok a → post a w') w

variable {p : ExceptT ε (Program Op Answer) α}

theorem Holds.pure {a : α} (hinv : inv w) (hpost : post a w) :
    Holds machine inv (Pure.pure a : ExceptT ε (Program Op Answer) α) post w :=
  Meets.pure hinv fun _ h => Except.ok.inj h ▸ hpost

theorem Holds.throw {e : ε} (hinv : inv w) :
    Holds machine inv (throw e : ExceptT ε (Program Op Answer) α) post w :=
  Meets.pure hinv fun _ h => nomatch h

theorem Holds.andThen {f : α → ExceptT ε (Program Op Answer) β} {post : β → World → Prop}
    (h : Holds machine inv p (fun a w' => Holds machine inv (f a) post w') w) :
    Holds machine inv (p >>= f) post w := by
  refine Meets.andThen (Meets.weaken h fun r w' _ hr => ?_)
  cases r with
  | ok a => exact hr a rfl
  | error e => exact fun _ h => nomatch h

theorem Holds.weaken (h : Holds machine inv p post w)
    (hpost : ∀ a w', inv w' → post a w' → post' a w') : Holds machine inv p post' w :=
  Meets.weaken h fun _ w' hinv hr a ha => hpost a w' hinv (hr a ha)

theorem Holds.relax {inv' : World → Prop} (h : Holds machine inv p post w)
    (hinv : ∀ w', inv w' → inv' w') : Holds machine inv' p post w :=
  Meets.relax h hinv

/-- A result that is kept instead of returned early. -/
theorem Holds.kept {post : Except ε α → World → Prop}
    (h : Holds machine inv p (fun a w' => post (.ok a) w') w)
    (herror : ∀ e w', inv w' → post (.error e) w') :
    Holds machine inv (ExceptT.lift p.run : ExceptT ε (Program Op Answer) (Except ε α)) post w := by
  refine Meets.lift (Meets.weaken h fun r w' hinv hr => ?_)
  rintro _ ⟨⟩
  cases r with
  | ok a => exact hr a rfl
  | error e => exact herror e w' hinv

end Rules

/-! ## §4 The operations a program uses -/

namespace Program

variable {Op : Type} {Answer : Op → Type} {World α β ε : Type} {allowed : Op → Prop}

/-- Every operation the program may ask for is allowed. -/
def Uses (allowed : Op → Prop) : Program Op Answer α → Prop
  | done _ => True
  | call op next => allowed op ∧ ∀ answer, (next answer).Uses allowed

theorem Uses.ask {op : Op} (h : allowed op) : (ask op : Program Op Answer _).Uses allowed :=
  ⟨h, fun _ => trivial⟩

theorem Uses.bind {p : Program Op Answer α} {f : α → Program Op Answer β}
    (hp : p.Uses allowed) (hf : ∀ a, (f a).Uses allowed) : (p >>= f).Uses allowed := by
  induction p with
  | done a => exact hf a
  | call op next ih => exact ⟨hp.1, fun answer => ih answer (hp.2 answer)⟩

theorem Uses.andThen {p : ExceptT ε (Program Op Answer) α}
    {f : α → ExceptT ε (Program Op Answer) β} (hp : p.run.Uses allowed)
    (hf : ∀ a, (f a).run.Uses allowed) : (p >>= f).run.Uses allowed := by
  refine Uses.bind (f := ExceptT.bindCont f) hp fun r => ?_
  cases r with
  | ok a => exact hf a
  | error e => trivial

theorem Uses.mono {p : Program Op Answer α} {allowed' : Op → Prop} (h : p.Uses allowed)
    (himp : ∀ op, allowed op → allowed' op) : p.Uses allowed' := by
  induction p with
  | done a => trivial
  | call op next ih => exact ⟨himp op h.1, fun answer => ih answer (h.2 answer)⟩

/-- What no allowed operation changes, a program does not change. -/
theorem Uses.meets {machine : Machine Op Answer World} {w : World}
    {p : Program Op Answer α} (h : p.Uses allowed) (keeps : World → Prop)
    (hkeeps : ∀ w op answer w', allowed op → machine w op answer w' → keeps w → keeps w')
    (hw : keeps w) : Meets machine keeps p (fun _ w' => keeps w') w := by
  induction p generalizing w with
  | done a => exact ⟨hw, hw⟩
  | call op next ih =>
    exact ⟨hw, fun answer w' hstep => ih answer (h.2 answer) (hkeeps _ _ _ _ h.1 hstep hw)⟩

end Program

end BareLine.Lib
