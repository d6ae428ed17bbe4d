import BareLine.Basic
import BareLine.Lib.Checked

/-!
# The work of a comparison

The limits of a comparison and what it spends of them.  A clock and a cancel token answer each
check; memory is only counted.  Signed and unsigned words are 64 bits wide.
-/

namespace BareLine.Diff

open Lib Lib.Checked

/-! ## §1 Signed words and vectors -/

/-- An `isize` result; `none` where it overflows. -/
def isizeOf (i : Int) : Option Int :=
  if -(isizeMax : Int) - 1 ≤ i ∧ i ≤ isizeMax then some i else none

/-- `n as isize`, which wraps. -/
def asIsize (n : Nat) : Int := if n ≤ isizeMax then n else n - 2 ^ 64

/-- `i as usize`, which wraps. -/
def asUsize (i : Int) : Nat := (i % 2 ^ 64).toNat

/-- `v[i] = n` -/
def setAt (v : List Nat) (i n : Nat) : Option (List Nat) :=
  if i < v.length then some (v.set i n) else none

theorem checkedAdd_eq {m n : Nat} (h : m + n ≤ usizeMax) : checkedAdd m n = some (m + n) :=
  if_pos h

theorem checkedMul_eq {m n : Nat} (h : m * n ≤ usizeMax) : checkedMul m n = some (m * n) :=
  if_pos h

theorem isizeOf_eq {i : Int} (hlow : -(isizeMax : Int) ≤ i) (hhigh : i ≤ isizeMax) :
    isizeOf i = some i := if_pos ⟨by omega, hhigh⟩

theorem asIsize_eq {n : Nat} (h : n ≤ isizeMax) : asIsize n = n := if_pos h

theorem asUsize_eq {i : Int} {n : Nat} (h : i = n) (hn : n ≤ isizeMax) : asUsize i = n := by
  have hlt : n < 2 ^ 64 := by
    simp only [isizeMax] at hn
    omega
  rw [asUsize, h, Int.emod_eq_of_lt (Int.natCast_nonneg n) (by exact_mod_cast hlt),
    Int.toNat_natCast]

theorem setAt_eq {v : List Nat} {i n : Nat} (h : i < v.length) :
    setAt v i n = some (v.set i n) := if_pos h

/-! ## §2 Checks and reservations -/

/-- `CoarseReason` -/
inductive CoarseReason where
  | lines
  | bytes
  | memory
  | time
  | windowed
  deriving DecidableEq, Repr

/-- `CompareCompleteness` -/
inductive CompareCompleteness where
  | exact
  | coarse (reason : CoarseReason)
  | cancelled
  | unavailable
  | failed
  deriving DecidableEq, Repr

/-- `ResourceLimits`, as far as a phase of the comparison reads them. -/
structure ResourceLimits where
  timeBudgetMs : Nat
  maxMemoryBytes : Nat

/-- What a comparison meets while it works: the answers of its cancel token and the milliseconds
since the phase began, at each check in turn. -/
structure Surroundings where
  limits : ResourceLimits
  isCancelled : Nat → Bool
  elapsed : Nat → Nat

/-- `Work`, with the number of checks made so far. -/
structure Work where
  used : Nat
  peak : Nat
  checks : Nat
  deriving DecidableEq, Repr

abbrev Working := Checked Work CompareCompleteness

namespace Work

variable (env : Surroundings)

/-- `Work::check` -/
def check : Working Unit := fun w =>
  if env.isCancelled w.checks then .error (.report .cancelled)
  else if env.limits.timeBudgetMs ≤ env.elapsed w.checks then
    .error (.report (.coarse .time))
  else .ok ((), { w with checks := w.checks + 1 })

/-- `Work::reserve` -/
def reserve (n : Nat) : Working Unit := fun w =>
  let next := saturatingAdd w.used n
  if env.limits.maxMemoryBytes < next then .error (.report (.coarse .memory))
  else .ok ((), { w with used := next, peak := max w.peak next })

end Work

/-! ## §3 What they ensure -/

/-- Why a comparison stops: it was cancelled, its time is over, or it needs more memory than it
may have, `need` bytes in all. -/
inductive Limited (env : Surroundings) (need : Nat) : CompareCompleteness → Prop
  | cancelled {i : Nat} (h : env.isCancelled i = true) : Limited env need .cancelled
  | time {i : Nat} (h : env.limits.timeBudgetMs ≤ env.elapsed i) : Limited env need (.coarse .time)
  | memory (h : env.limits.maxMemoryBytes < need) : Limited env need (.coarse .memory)

variable {env : Surroundings} {need : Nat}

/-- A check changes only the number of checks. -/
theorem check_ensures (u : Nat) :
    Ensures (Limited env need) (fun w => w.used ≤ u) (Work.check env) fun _ w => w.used ≤ u := by
  intro w hw
  rw [Work.check]
  by_cases hcancel : env.isCancelled w.checks = true
  · rw [if_pos hcancel]
    exact Limited.cancelled hcancel
  · rw [if_neg hcancel]
    by_cases htime : env.limits.timeBudgetMs ≤ env.elapsed w.checks
    · rw [if_pos htime]
      exact Limited.time htime
    · rw [if_neg htime]
      exact hw

/-- A reservation adds to what is used, within the need. -/
theorem reserve_ensures {u n : Nat} (hneed : u + n ≤ need) :
    Ensures (Limited env need) (fun w => w.used ≤ u) (Work.reserve env n)
      fun _ w => w.used ≤ u + n := by
  intro w hw
  have hnext : saturatingAdd w.used n ≤ u + n :=
    Nat.le_trans (Nat.min_le_left _ _) (Nat.add_le_add_right hw n)
  rw [Work.reserve]
  by_cases hlimit : env.limits.maxMemoryBytes < saturatingAdd w.used n
  · rw [if_pos hlimit]
    exact Limited.memory (Nat.lt_of_lt_of_le hlimit (Nat.le_trans hnext hneed))
  · rw [if_neg hlimit]
    exact hnext

end BareLine.Diff
