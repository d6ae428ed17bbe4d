import Mathlib

/-!
# Command lines and their arguments

A command line is split at blanks outside double quotes; a run of backslashes in front of a quote
is halved, and an odd one escapes the quote.
-/

namespace BareLine.Lib.Argv

/-! ## §1 Splitting -/

/-- What separates arguments. -/
def isBlank (c : Char) : Bool := c == ' ' || c == '\t'

/-- What a line is made of: characters, and values that are atoms. -/
inductive Token where
  | char (c : Char)
  | value (v : List Char)
  deriving DecidableEq, Repr

/-- The text of a token. -/
def Token.text : Token → List Char
  | .char c => [c]
  | .value v => v

/-- The end of an argument that has begun. -/
def finish {α : Type*} (begun : Bool) : List (Option α) := if begun then [none] else []

/-- The rest of a line as the pieces of its arguments, each argument followed by `none`.  The
state is whether quotes are open, the backslashes just read, and whether an argument has begun. -/
def splitFrom (quoted : Bool) (run : Nat) (begun : Bool) : List Token → List (Option Token)
  | [] => List.replicate run (some (.char '\\')) ++ finish begun
  | .value v :: line =>
    List.replicate run (some (.char '\\')) ++ some (.value v) :: splitFrom quoted 0 true line
  | .char c :: line =>
    if c = '\\' then splitFrom quoted (run + 1) true line
    else if c = '"' then
      List.replicate (run / 2) (some (.char '\\')) ++
        if run % 2 = 1 then some (.char '"') :: splitFrom quoted 0 true line
        else splitFrom (!quoted) 0 true line
    else if isBlank c && !quoted then
      List.replicate run (some (.char '\\')) ++ (finish begun ++ splitFrom false 0 false line)
    else List.replicate run (some (.char '\\')) ++ some (.char c) :: splitFrom quoted 0 true line

/-- The arguments that pieces make up. -/
def arguments {α : Type*} : List (Option α) → List (List α)
  | [] => []
  | none :: pieces => [] :: arguments pieces
  | some a :: pieces =>
    match arguments pieces with
    | [] => [[a]]
    | argument :: others => (a :: argument) :: others

/-- The arguments of a line with atoms. -/
def splitTokens (line : List Token) : List (List Token) := arguments (splitFrom false 0 false line)

/-- The text of an argument. -/
def render (argument : List Token) : List Char := argument.flatMap Token.text

/-- The arguments of a plain line. -/
def split (line : List Char) : List (List Char) := (splitTokens (line.map .char)).map render

example : split ['a', '\\', '"', 'b', ' ', '"', 'c', ' ', '\\', '\\', '"', 'd'] =
    [['a', '"', 'b'], ['c', ' ', '\\', 'd']] := by decide

/-! ## §2 Lines with atoms -/

/-- Tokens alike up to the texts of the values. -/
inductive Alike : Token → Token → Prop
  | char (c : Char) : Alike (.char c) (.char c)
  | value (v w : List Char) : Alike (.value v) (.value w)

/-- Whatever the values are, the pieces are the same up to them. -/
theorem splitFrom_alike {a b : List Token} (h : List.Forall₂ Alike a b) (quoted : Bool) (run : Nat)
    (begun : Bool) : List.Forall₂ (Option.Rel Alike) (splitFrom quoted run begun a)
      (splitFrom quoted run begun b) := by
  have hslashes : ∀ n, List.Forall₂ (Option.Rel Alike) (List.replicate n (some (.char '\\')))
      (List.replicate n (some (.char '\\'))) := fun n =>
    List.forall₂_same.mpr fun x hx => by
      rw [List.eq_of_mem_replicate hx]
      exact .some (.char _)
  have hfinish : ∀ begun, List.Forall₂ (Option.Rel Alike) (finish begun) (finish begun) := by
    intro begun
    cases begun with
    | false => exact .nil
    | true => exact .cons .none .nil
  induction h generalizing quoted run begun with
  | nil => exact List.rel_append (hslashes _) (hfinish _)
  | cons hhead _ ih =>
    cases hhead with
    | value v w => exact List.rel_append (hslashes _) (.cons (.some (.value v w)) (ih _ _ _))
    | char c =>
      rw [splitFrom, splitFrom]
      split_ifs with hslash hquote hodd hblank
      · exact ih _ _ _
      · exact List.rel_append (hslashes _) (.cons (.some (.char _)) (ih _ _ _))
      · exact List.rel_append (hslashes _) (ih _ _ _)
      · exact List.rel_append (hslashes _) (List.rel_append (hfinish _) (ih _ _ _))
      · exact List.rel_append (hslashes _) (.cons (.some (.char c)) (ih _ _ _))

theorem arguments_rel {α β : Type*} {R : α → β → Prop} {a : List (Option α)} {b : List (Option β)}
    (h : List.Forall₂ (Option.Rel R) a b) :
    List.Forall₂ (List.Forall₂ R) (arguments a) (arguments b) := by
  induction h with
  | nil => exact .nil
  | cons hhead _ ih =>
    cases hhead with
    | none => exact .cons .nil ih
    | some hab =>
      rw [arguments, arguments]
      generalize arguments _ = x at ih
      generalize arguments _ = y at ih
      cases ih with
      | nil => exact .cons (.cons hab .nil) .nil
      | cons hfirst hothers => exact .cons (.cons hab hfirst) hothers

/-- The pieces of some arguments. -/
def piecesOf {α : Type*} (args : List (List α)) : List (Option α) :=
  args.flatMap fun argument => argument.map some ++ [none]

theorem arguments_piecesOf {α : Type*} (args : List (List α)) :
    arguments (piecesOf args) = args := by
  induction args with
  | nil => rfl
  | cons argument args ih =>
    have hcons : piecesOf (argument :: args) = argument.map some ++ none :: piecesOf args := by
      simp [piecesOf]
    rw [hcons]
    clear hcons
    induction argument with
    | nil => rw [List.map_nil, List.nil_append, arguments, ih]
    | cons a argument ih' => rw [List.map_cons, List.cons_append, arguments, ih']

/-- Pieces whose last argument is ended; the state is whether one has begun. -/
inductive Ended {α : Type*} : Bool → List (Option α) → Prop
  | nil : Ended false []
  | close {begun : Bool} {pieces : List (Option α)} (more : Ended false pieces) :
    Ended begun (none :: pieces)
  | piece {begun : Bool} {pieces : List (Option α)} (a : α) (more : Ended true pieces) :
    Ended begun (some a :: pieces)

theorem Ended.pieces {α : Type*} {begun : Bool} {x : List (Option α)} (h : Ended begun x) :
    ∃ args, x = piecesOf args ∧ (begun = true → args ≠ []) := by
  induction h with
  | nil => exact ⟨[], rfl, nofun⟩
  | close _ ih =>
    obtain ⟨args, rfl, -⟩ := ih
    exact ⟨[] :: args, rfl, fun _ => List.cons_ne_nil _ _⟩
  | piece a _ ih =>
    obtain ⟨args, rfl, hne⟩ := ih
    obtain ⟨argument, args, rfl⟩ := List.exists_cons_of_ne_nil (hne rfl)
    exact ⟨(a :: argument) :: args, rfl, fun _ => List.cons_ne_nil _ _⟩

theorem Ended.finish {α : Type*} (begun : Bool) {x : List (Option α)} (h : Ended false x) :
    Ended begun (finish begun ++ x) := by
  cases begun with
  | false => exact h
  | true => exact .close h

theorem Ended.weaken {α : Type*} {begun : Bool} {x : List (Option α)} (h : Ended true x) :
    Ended begun x := by
  cases h with
  | close more => exact .close more
  | piece a more => exact .piece a more

theorem Ended.behind {α : Type*} {a : α} {n : Nat} {begun : Bool} {x : List (Option α)}
    (h : Ended begun x) (hbegun : 0 < n → begun = true) :
    Ended begun (List.replicate n (some a) ++ x) := by
  induction n with
  | zero => exact h
  | succ n ih =>
    obtain rfl := hbegun (Nat.succ_pos n)
    exact .piece a (ih fun _ => rfl)

/-- Every argument of a line is ended. -/
theorem splitFrom_ended (line : List Token) {quoted : Bool} {run : Nat} {begun : Bool}
    (hrun : 0 < run → begun = true) : Ended begun (splitFrom quoted run begun line) := by
  induction line generalizing quoted run begun with
  | nil =>
    have hnil := Ended.finish begun (.nil : Ended false ([] : List (Option Token)))
    rw [List.append_nil] at hnil
    exact hnil.behind hrun
  | cons token line ih =>
    have hhalf : 0 < run / 2 → begun = true := fun h => hrun (by omega)
    cases token with
    | value v => exact Ended.behind (.piece _ (ih fun _ => rfl)) hrun
    | char c =>
      rw [splitFrom]
      split_ifs with hslash hquote hodd hblank
      · exact (ih fun _ => rfl).weaken
      · exact Ended.behind (.piece _ (ih fun _ => rfl)) hhalf
      · exact (ih fun _ => rfl).weaken.behind hhalf
      · exact ((@ih false 0 false nofun).finish begun).behind hrun
      · exact Ended.behind (.piece _ (ih fun _ => rfl)) hrun

/-- Whatever the values are, a line has as many arguments, and those without a value are the
same. -/
theorem splitTokens_alike {a b : List Token} (h : List.Forall₂ Alike a b) :
    List.Forall₂ (List.Forall₂ Alike) (splitTokens a) (splitTokens b) :=
  arguments_rel (splitFrom_alike h _ _ _)

end BareLine.Lib.Argv
