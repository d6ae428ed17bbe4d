import Mathlib

/-!
# Finite tables

A table is a list of entries with distinct keys; the order of the entries is immaterial.
`weight` adds up a measure of the values.
-/

namespace BareLine.Lib

/-! ## §1 Operations -/

structure Table (κ α : Type) where
  entries : List (κ × α)
  distinct : (entries.map Prod.fst).Nodup

namespace Table

variable {κ α : Type} [DecidableEq κ]

def empty : Table κ α := ⟨[], List.nodup_nil⟩

def lookup (m : Table κ α) (k : κ) : Option α := m.entries.lookup k

/-- The table without the entry of a key. -/
def remove (m : Table κ α) (k : κ) : Table κ α where
  entries := m.entries.filter fun e => e.1 ≠ k
  distinct := m.distinct.sublist (List.filter_sublist.map _)

/-- The table with one entry set, whether the key was there or not. -/
def insert (m : Table κ α) (k : κ) (v : α) : Table κ α where
  entries := (k, v) :: (m.remove k).entries
  distinct := by
    refine List.nodup_cons.mpr ⟨?_, (m.remove k).distinct⟩
    simp [remove]

def size (m : Table κ α) : Nat := m.entries.length

/-- The sum of a measure over all values. -/
def weight (f : α → Nat) (m : Table κ α) : Nat := (m.entries.map fun e => f e.2).sum

/-- The keys whose values meet a condition. -/
def keysWhere (p : α → Bool) (m : Table κ α) : List κ :=
  (m.entries.filter fun e => p e.2).map Prod.fst

/-! ## §2 Lookups -/

@[simp] theorem lookup_empty (k : κ) : (empty : Table κ α).lookup k = none := rfl

theorem lookup_eq_some {m : Table κ α} {k : κ} {v : α} :
    m.lookup k = some v ↔ (k, v) ∈ m.entries := by
  obtain ⟨entries, distinct⟩ := m
  show entries.lookup k = some v ↔ (k, v) ∈ entries
  induction entries with
  | nil => simp
  | cons e es ih =>
    have hdistinct := List.nodup_cons.mp distinct
    rw [List.lookup_cons, List.mem_cons]
    by_cases hk : k = e.1
    · subst hk
      have hout : ∀ w, (e.1, w) ∉ es := fun w hw =>
        hdistinct.1 (List.mem_map.mpr ⟨(e.1, w), hw, rfl⟩)
      simp [hout, Prod.ext_iff, eq_comm]
    · have hbeq : (k == e.1) = false := by simpa using hk
      have hne : (k, v) ≠ e := fun h => hk (congrArg Prod.fst h)
      simp [hbeq, hne, ih hdistinct.2]

theorem lookup_ext {m m' : Table κ α} {k : κ}
    (h : ∀ v, m.lookup k = some v ↔ m'.lookup k = some v) : m.lookup k = m'.lookup k :=
  Option.ext h

@[simp] theorem lookup_remove_self (m : Table κ α) (k : κ) : (m.remove k).lookup k = none := by
  rw [Option.eq_none_iff_forall_ne_some]
  intro v hv
  have hmem := lookup_eq_some.mp hv
  simp [remove] at hmem

@[simp] theorem lookup_remove_ne (m : Table κ α) {k k' : κ} (h : k' ≠ k) :
    (m.remove k).lookup k' = m.lookup k' := by
  refine lookup_ext fun v => ?_
  rw [lookup_eq_some, lookup_eq_some]
  simp [remove, h]

theorem lookup_remove (m : Table κ α) (k k' : κ) :
    (m.remove k).lookup k' = if k' = k then none else m.lookup k' := by
  by_cases h : k' = k
  · rw [if_pos h, h, lookup_remove_self]
  · rw [if_neg h, lookup_remove_ne m h]

theorem lookup_insert (m : Table κ α) (k k' : κ) (v : α) :
    (m.insert k v).lookup k' = if k' = k then some v else m.lookup k' := by
  show ((k, v) :: (m.remove k).entries).lookup k' = _
  rw [List.lookup_cons]
  by_cases h : k' = k
  · simp [h]
  · have hbeq : (k' == k) = false := by simpa using h
    rw [if_neg h, ← lookup_remove_ne m h, hbeq]
    rfl

@[simp] theorem lookup_insert_self (m : Table κ α) (k : κ) (v : α) :
    (m.insert k v).lookup k = some v := by
  rw [lookup_insert, if_pos rfl]

theorem mem_keysWhere {p : α → Bool} {m : Table κ α} {k : κ} :
    k ∈ m.keysWhere p ↔ ∃ v, m.lookup k = some v ∧ p v = true := by
  simp [keysWhere, lookup_eq_some]

/-! ## §3 Sizes and weights -/

theorem size_remove_le (m : Table κ α) (k : κ) : (m.remove k).size ≤ m.size :=
  List.length_filter_le _ _

theorem size_insert_le (m : Table κ α) (k : κ) (v : α) : (m.insert k v).size ≤ m.size + 1 :=
  Nat.succ_le_succ (size_remove_le m k)

theorem weight_remove_le (f : α → Nat) (m : Table κ α) (k : κ) :
    (m.remove k).weight f ≤ m.weight f :=
  (List.filter_sublist.map _).sum_le_sum fun _ _ => Nat.zero_le _

theorem weight_insert (f : α → Nat) (m : Table κ α) (k : κ) (v : α) :
    (m.insert k v).weight f = f v + (m.remove k).weight f := by
  simp [weight, insert]

/-- The weight of a table is that of one entry and of the rest. -/
theorem weight_eq_add_remove {f : α → Nat} {m : Table κ α} {k : κ} {v : α}
    (h : m.lookup k = some v) : m.weight f = f v + (m.remove k).weight f := by
  obtain ⟨entries, distinct⟩ := m
  have hmem := lookup_eq_some.mp h
  clear h
  induction entries with
  | nil => cases hmem
  | cons e es ih =>
    have hdistinct := List.nodup_cons.mp distinct
    rcases List.mem_cons.mp hmem with rfl | hrest
    · have hall : es.filter (fun e => e.1 ≠ k) = es := by
        rw [List.filter_eq_self]
        intro e he
        have hne : e.1 ≠ k := fun heq => hdistinct.1 (List.mem_map.mpr ⟨e, he, heq⟩)
        simpa using hne
      simp only [weight, remove]
      rw [List.filter_cons_of_neg (by simp), hall, List.map_cons, List.sum_cons]
    · have hne : e.1 ≠ k := fun heq =>
        hdistinct.1 (List.mem_map.mpr ⟨(k, v), hrest, heq.symm⟩)
      have hih := ih hdistinct.2 hrest
      simp only [weight, remove, List.map_cons, List.sum_cons] at hih ⊢
      rw [List.filter_cons_of_pos (by simpa using hne), List.map_cons, List.sum_cons, hih]
      exact Nat.add_left_comm _ _ _

end Table

end BareLine.Lib
