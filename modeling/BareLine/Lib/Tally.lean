import Mathlib

/-!
# Tallies over a family of agents

A system of agents, each with a local state, is a function from their numbers; what the
whole system holds of something is a sum over the first of them.  One agent moving changes
such a tally by what that agent gains and loses.
-/

namespace BareLine.Lib

open Finset

/-! ## §1 Tallies -/

variable {σ M : Type}

section Monoid

variable [AddCommMonoid M]

/-- What the first `n` agents hold together. -/
def tally (n : Nat) (f : σ → M) (agents : Nat → σ) : M := ∑ i ∈ range n, f (agents i)

/-- An agent moving to the state `x` trades what it held for what it holds there. -/
theorem tally_update {n i : Nat} (hi : i < n) (f : σ → M) (agents : Nat → σ) (x : σ) :
    tally n f (Function.update agents i x) + f (agents i) = tally n f agents + f x := by
  have hmem : i ∈ range n := mem_range.mpr hi
  rw [tally, tally, ← add_sum_erase _ _ hmem, ← add_sum_erase (range n) (fun j => f (agents j)) hmem,
    Function.update_self]
  have hrest : ∑ j ∈ (range n).erase i, f (Function.update agents i x j) =
      ∑ j ∈ (range n).erase i, f (agents j) := by
    apply sum_congr rfl
    intro j hj
    rw [Function.update_of_ne (ne_of_mem_erase hj)]
  rw [hrest]
  abel

/-- Agents may all change as long as each keeps what it holds. -/
theorem tally_congr {n : Nat} {f : σ → M} {agents agents' : Nat → σ}
    (h : ∀ i < n, f (agents' i) = f (agents i)) : tally n f agents' = tally n f agents :=
  sum_congr rfl fun i hi => h i (mem_range.mp hi)

theorem tally_eq_zero {n : Nat} {f : σ → M} {agents : Nat → σ}
    (h : ∀ i < n, f (agents i) = 0) : tally n f agents = 0 :=
  sum_eq_zero fun i hi => h i (mem_range.mp hi)

end Monoid

/-- An account stays balanced when what is credited to it, plus what an agent hands over, is
what was debited before. -/
theorem balance [AddCancelCommMonoid M] {total total' paid paid' due due' x x' : M}
    (hold : total = paid + due) (hone : total' + paid + x = total + paid' + x')
    (hall : due' + x = due + x') : total' = paid' + due' := by
  apply add_right_cancel (b := paid + x)
  calc total' + (paid + x) = total' + paid + x := by abel
    _ = paid + due + paid' + x' := by rw [hone, hold]
    _ = paid' + paid + (due + x') := by abel
    _ = paid' + paid + (due' + x) := by rw [hall]
    _ = paid' + due' + (paid + x) := by abel

/-- A total stays accounted for when an agent only moves what it holds. -/
theorem balance_kept [AddCancelCommMonoid M] {total paid paid' due due' x x' : M}
    (hold : total = paid + due) (hone : paid' + x' = paid + x) (hall : due' + x = due + x') :
    total = paid' + due' := by
  apply add_right_cancel (b := x)
  calc total + x = paid + x + due := by rw [hold]; abel
    _ = paid' + (due + x') := by rw [← hone]; abel
    _ = paid' + due' + x := by rw [← hall]; abel

/-- What one agent holds is part of the whole. -/
theorem le_tally {n i : Nat} (hi : i < n) (f : σ → Nat) (agents : Nat → σ) :
    f (agents i) ≤ tally n f agents :=
  single_le_sum (f := fun j => f (agents j)) (fun _ _ => Nat.zero_le _) (mem_range.mpr hi)

theorem tally_le_card {n : Nat} {f : σ → Nat} (hf : ∀ x, f x ≤ 1) (agents : Nat → σ) :
    tally n f agents ≤ n := by
  have h := sum_le_card_nsmul (range n) (fun i => f (agents i)) 1 fun i _ => hf (agents i)
  rwa [card_range, nsmul_eq_mul, mul_one] at h

/-! ## §2 Locks taken in order -/

/-- Agents that wait, each for a lock numbered above those it holds: if whoever holds a lock
waited for is one of the waiting, then nobody waits. -/
theorem no_wait_cycle {n : Nat} (wants : Nat → Option Nat) (holds : Nat → Nat → Prop)
    (hblocked : ∀ i < n, ∀ a, wants i = some a → ∃ j < n, holds j a ∧ (wants j).isSome)
    (hordered : ∀ i < n, ∀ a b, holds i a → wants i = some b → a < b) :
    ∀ i < n, wants i = none := by
  by_contra hsome
  simp only [not_forall] at hsome
  obtain ⟨i, hi, hwant⟩ := hsome
  -- Take a waiting agent whose lock has the highest number.
  have hne : ((range n).filter fun i => (wants i).isSome).Nonempty :=
    ⟨i, mem_filter.mpr ⟨mem_range.mpr hi, Option.isSome_iff_ne_none.mpr hwant⟩⟩
  obtain ⟨k, hk, hmax⟩ := exists_max_image _ (fun i => (wants i).getD 0) hne
  obtain ⟨hk, hkwant⟩ := mem_filter.mp hk
  obtain ⟨a, ha⟩ := Option.isSome_iff_exists.mp hkwant
  obtain ⟨j, hj, hholds, hjwant⟩ := hblocked k (mem_range.mp hk) a ha
  obtain ⟨b, hb⟩ := Option.isSome_iff_exists.mp hjwant
  have hle := hmax j (mem_filter.mpr ⟨mem_range.mpr hj, hjwant⟩)
  have hlt := hordered j hj a b hholds hb
  rw [ha, hb, Option.getD_some, Option.getD_some] at hle
  omega

end BareLine.Lib
