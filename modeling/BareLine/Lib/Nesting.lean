import Mathlib

/-!
# The opener of a bracket

Some of the elements of a list open, some close.  Reading from the back with a counter finds the
last opener behind which as many open as close.
-/

namespace BareLine.Lib

variable {α : Type*} {opens closes : α → Bool}

/-! ## §1 The opener -/

/-- As many open as close. -/
def Balanced (opens closes : α → Bool) (marks : List α) : Prop :=
  marks.countP opens = marks.countP closes

/-- The last opener behind which the marks are balanced. -/
def LastOpener (opens closes : α → Bool) (marks : List α) (m : α) : Prop :=
  ∃ front back, marks = front ++ m :: back ∧ opens m = true ∧ Balanced opens closes back ∧
    ∀ front' m' back', back = front' ++ m' :: back' → opens m' = true →
      ¬Balanced opens closes back'

/-- No opener has balanced marks behind it. -/
def NoOpener (opens closes : α → Bool) (marks : List α) : Prop :=
  ∀ front m back, marks = front ++ m :: back → opens m = true → ¬Balanced opens closes back

/-! ## §2 Reading from the back -/

/-- The reader, with the closers that wait for their openers. -/
def countBack (opens closes : α → Bool) : Nat → List α → Option α
  | _, [] => none
  | pending, m :: marks =>
    if closes m then countBack opens closes (pending + 1) marks
    else if opens m then
      if pending = 1 then some m else countBack opens closes (pending - 1) marks
    else countBack opens closes pending marks

/-- One mark more in front that is no opener with balanced marks behind it. -/
theorem NoOpener.cons {m : α} {marks : List α} (h : NoOpener opens closes marks)
    (hm : opens m = true → ¬Balanced opens closes marks) : NoOpener opens closes (m :: marks) := by
  intro front m' back hsplit hopens
  cases front with
  | nil =>
    obtain ⟨rfl, rfl⟩ := List.cons.inj hsplit
    exact hm hopens
  | cons x front => exact h front m' back (List.cons.inj hsplit).2 hopens

/-- What the reader finds where it has read some marks already. -/
theorem countBack_seen (hapart : ∀ m, ¬(opens m = true ∧ closes m = true)) {marks seen : List α}
    {pending : Nat} (hpending : pending + seen.countP opens = 1 + seen.countP closes)
    (hpos : 0 < pending) (hseen : NoOpener opens closes seen) :
    (∀ m, countBack opens closes pending marks.reverse = some m →
      LastOpener opens closes (marks ++ seen) m) ∧
    (countBack opens closes pending marks.reverse = none →
      NoOpener opens closes (marks ++ seen)) := by
  induction marks using List.reverseRecOn generalizing seen pending with
  | nil => exact ⟨nofun, fun _ => hseen⟩
  | append_singleton marks m ih =>
    rw [List.reverse_append, List.reverse_singleton, List.singleton_append, countBack,
      List.append_assoc, List.singleton_append]
    split_ifs with hcloses hopens hlast
    · have hno : ¬opens m = true := fun hopens => hapart m ⟨hopens, hcloses⟩
      refine ih ?_ (Nat.succ_pos _) (hseen.cons fun hopens => absurd hopens hno)
      rw [List.countP_cons_of_neg hno, List.countP_cons_of_pos hcloses]
      omega
    · refine ⟨fun m' hm' => ?_, nofun⟩
      obtain rfl := Option.some.inj hm'
      refine ⟨marks, seen, rfl, hopens, ?_, hseen⟩
      rw [Balanced]
      omega
    · refine ih ?_ (by omega) (hseen.cons fun _ hbalanced => ?_)
      · rw [List.countP_cons_of_pos hopens, List.countP_cons_of_neg hcloses]
        omega
      · rw [Balanced] at hbalanced
        omega
    · refine ih ?_ hpos (hseen.cons fun hyes => absurd hyes hopens)
      rw [List.countP_cons_of_neg hopens, List.countP_cons_of_neg hcloses]
      omega

/-- With one closer waiting, the reader finds the last opener, if there is one. -/
theorem countBack_spec (hapart : ∀ m, ¬(opens m = true ∧ closes m = true)) (marks : List α) :
    (∀ m, countBack opens closes 1 marks.reverse = some m → LastOpener opens closes marks m) ∧
      (countBack opens closes 1 marks.reverse = none → NoOpener opens closes marks) := by
  have h := @countBack_seen α opens closes hapart marks [] 1 rfl Nat.one_pos fun front m back hsplit =>
    absurd hsplit.symm (List.append_ne_nil_of_right_ne_nil _ (List.cons_ne_nil _ _))
  rwa [List.append_nil] at h

end BareLine.Lib
