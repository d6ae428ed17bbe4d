import Mathlib

/-!
# Leftmost choices

Candidates that start and stop somewhere on a line, and the choice a scan from left to right
makes among them: the candidate that starts first, then the first of those that start where
it stops or later, and so on.
-/

namespace BareLine.Lib.Leftmost

variable {ι : Type*} (P : ι → Prop) (start stop : ι → Nat)

/-! ## §1 The choice -/

/-- The candidates chosen from `here` on; the last of them stops at `there`. -/
inductive Picks : Nat → List ι → Nat → Prop
  | nil (here : Nat) : Picks here [] here
  | cons {here there : Nat} {i : ι} {rest : List ι} (candidate : P i) (le : here ≤ start i)
      (first : ∀ j, P j → here ≤ start j → j = i ∨ start i < start j)
      (more : Picks (stop i) rest there) : Picks here (i :: rest) there

/-- All that is chosen from `here` on. -/
def Chosen (here : Nat) (chosen : List ι) : Prop :=
  ∃ there, Picks P start stop here chosen there ∧ ∀ j, P j → start j < there

variable {P start stop}

/-- One more candidate. -/
theorem Picks.concat {here there : Nat} {chosen : List ι} {i : ι}
    (h : Picks P start stop here chosen there) (candidate : P i) (le : there ≤ start i)
    (first : ∀ j, P j → there ≤ start j → j = i ∨ start i < start j) :
    Picks P start stop here (chosen ++ [i]) (stop i) := by
  induction h with
  | nil here => exact .cons candidate le first (.nil _)
  | cons hcandidate hle hfirst _ ih => exact .cons hcandidate hle hfirst (ih le first)

/-- The choice from a place is that from further back with no candidate between them. -/
theorem Chosen.back {here here' : Nat} {chosen : List ι} (h : Chosen P start stop here' chosen)
    (hle : here ≤ here') (hquiet : ∀ j, P j → here ≤ start j → here' ≤ start j) :
    Chosen P start stop here chosen := by
  obtain ⟨there, hpicks, hlast⟩ := h
  cases hpicks with
  | nil =>
    refine ⟨here, .nil _, fun j hj => ?_⟩
    by_contra hge
    have := hquiet j hj (Nat.le_of_not_lt hge)
    have := hlast j hj
    omega
  | cons candidate le first more =>
    exact ⟨there, .cons candidate (Nat.le_trans hle le)
      (fun j hj hj' => first j hj (hquiet j hj hj')) more, hlast⟩

/-- A choice of candidates further on is the choice from there. -/
theorem Chosen.forward {here here' : Nat} {chosen : List ι} (h : Chosen P start stop here chosen)
    (hle : here ≤ here') (hchosen : ∀ i ∈ chosen, here' ≤ start i) :
    Chosen P start stop here' chosen := by
  obtain ⟨there, hpicks, hlast⟩ := h
  cases hpicks with
  | nil => exact ⟨here', .nil _, fun j hj => Nat.lt_of_lt_of_le (hlast j hj) hle⟩
  | cons candidate le first more =>
    exact ⟨there, .cons candidate (hchosen _ (List.mem_cons_self ..))
      (fun j hj hj' => first j hj (Nat.le_trans hle hj')) more, hlast⟩

/-! ## §2 There is one choice -/

/-- From one place on there is one choice. -/
theorem Chosen.unique {here : Nat} {a b : List ι} (ha : Chosen P start stop here a)
    (hb : Chosen P start stop here b) : a = b := by
  obtain ⟨there, ha, hlast⟩ := ha
  induction ha generalizing b with
  | nil here =>
    obtain ⟨there', hb, -⟩ := hb
    cases hb with
    | nil => rfl
    | cons hcandidate hle _ _ => exact absurd hle (Nat.not_le.mpr (hlast _ hcandidate))
  | cons hcandidate hle hfirst _ ih =>
    obtain ⟨there', hb, hlast'⟩ := hb
    cases hb with
    | nil => exact absurd hle (Nat.not_le.mpr (hlast' _ hcandidate))
    | cons hcandidate' hle' hfirst' hrest =>
      -- each of the two first candidates starts no later than the other
      rcases hfirst _ hcandidate' hle' with rfl | hlt
      · rw [ih ⟨there', hrest, hlast'⟩ hlast]
      · rcases hfirst' _ hcandidate hle with rfl | hlt'
        · exact absurd hlt (Nat.lt_irrefl _)
        · exact absurd hlt (Nat.lt_asymm hlt')

end BareLine.Lib.Leftmost
