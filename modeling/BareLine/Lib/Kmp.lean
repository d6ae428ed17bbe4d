import Mathlib

/-!
# Matching one pattern in a stream

The automaton that reads a stream symbol by symbol and keeps how many symbols of a pattern
end it.  A symbol that does not go on falls back along a table: the longest proper overlap of
each front of the pattern with itself.
-/

namespace BareLine.Lib.Kmp

variable {α : Type*}

/-! ## §1 Overlaps -/

/-- `k` is the longest front of the pattern, of at most `n` symbols, that ends the stream. -/
structure Longest (p s : List α) (n k : Nat) : Prop where
  le : k ≤ n
  ends : p.take k <:+ s
  most : ∀ j ≤ n, p.take j <:+ s → j ≤ k

/-- Nothing overlaps the empty stream. -/
theorem longest_nil {p : List α} {n : Nat} (hn : n ≤ p.length) : Longest p [] n 0 where
  le := Nat.zero_le n
  ends := List.suffix_refl []
  most := fun j hj h => by
    have hlen := h.length_le
    rw [List.length_take, List.length_nil] at hlen
    omega

/-- An overlap goes on with the symbol that follows it in the pattern. -/
theorem take_succ_suffix_iff {p s : List α} {b : α} {k : Nat} (hk : k < p.length) :
    p.take (k + 1) <:+ s ++ [b] ↔ p.take k <:+ s ∧ p[k]? = some b := by
  rw [List.take_succ_eq_append_getElem hk, List.getElem?_eq_getElem hk, Option.some.injEq,
    List.suffix_append_inj_of_length_eq (by rw [List.length_singleton, List.length_singleton]),
    List.singleton_inj]

/-- A shorter overlap is an overlap of the longer one. -/
theorem take_suffix_take_iff {p s : List α} {j k : Nat} (h : p.take k <:+ s) (hjk : j ≤ k) :
    p.take j <:+ s ↔ p.take j <:+ p.take k := by
  constructor
  · intro hj
    refine List.suffix_of_suffix_length_le hj h ?_
    rw [List.length_take, List.length_take]
    omega
  · exact fun hj => hj.trans h

/-- An overlap that is not the whole pattern is the longest proper one. -/
theorem Longest.proper {p s : List α} {n k : Nat} (h : Longest p s (n + 1) k) (hk : k ≤ n) :
    Longest p s n k where
  le := hk
  ends := h.ends
  most := fun j hj => h.most j (Nat.le_succ_of_le hj)

/-! ## §2 The table and one symbol -/

variable [DecidableEq α]

/-- `while matched > 0 && symbol != pattern[matched] { matched = table[matched - 1] }` -/
def fallback (p : List α) (table : List Nat) (b : α) : Nat → Nat → Nat
  | 0, matched => matched
  | fuel + 1, matched =>
    if 0 < matched ∧ p[matched]? ≠ some b then
      fallback p table b fuel (table.getD (matched - 1) 0)
    else matched

/-- One symbol: fall back, then `if symbol == pattern[matched] { matched += 1 }`. -/
def advance (p : List α) (table : List Nat) (b : α) (matched : Nat) : Nat :=
  let matched := fallback p table b matched matched
  if p[matched]? = some b then matched + 1 else matched

/-- Each entry is the longest proper overlap of a front of the pattern with itself. -/
def IsTable (p : List α) (table : List Nat) : Prop :=
  ∀ i < table.length, Longest p (p.take (i + 1)) i (table.getD i 0)

variable {p s : List α} {table : List Nat} {b : α} {n k : Nat}

/-- Falling back ends at the longest overlap that goes on with the symbol, or at none. -/
theorem fallback_spec (htable : IsTable p table) {fuel : Nat} (hfuel : k ≤ fuel)
    (hk : k ≤ table.length) (hends : p.take k <:+ s)
    (hmost : ∀ j ≤ n, p.take j <:+ s → p[j]? = some b → j ≤ k) :
    let matched := fallback p table b fuel k
    matched ≤ k ∧ p.take matched <:+ s ∧ (matched = 0 ∨ p[matched]? = some b) ∧
      ∀ j ≤ n, p.take j <:+ s → p[j]? = some b → j ≤ matched := by
  induction fuel generalizing k with
  | zero => exact ⟨Nat.le_refl k, hends, .inl (Nat.le_zero.mp hfuel), hmost⟩
  | succ fuel ih =>
    rw [fallback]
    split
    · rename_i hmiss
      obtain ⟨hpos, hmiss⟩ := hmiss
      -- the table's entry for the `k` symbols that matched
      have hentry := htable (k - 1) (by omega)
      rw [Nat.sub_add_cancel hpos] at hentry
      have hlt := hentry.le
      obtain ⟨hle, hrest⟩ := ih (k := table.getD (k - 1) 0) (by omega) (by omega)
        (hentry.ends.trans hends) fun j hj hover hnext => by
          have hjk : j ≤ k := hmost j hj hover hnext
          have hne : j ≠ k := fun heq => hmiss (heq ▸ hnext)
          exact hentry.most j (by omega) ((take_suffix_take_iff hends hjk).mp hover)
      exact ⟨by omega, hrest⟩
    · rename_i hstop
      refine ⟨Nat.le_refl k, hends, ?_, hmost⟩
      by_cases hpos : 0 < k
      · exact .inr (Classical.not_not.mp fun hmiss => hstop ⟨hpos, hmiss⟩)
      · exact .inl (Nat.eq_zero_of_not_pos hpos)

/-- A symbol leads from the longest proper overlap to the longest overlap. -/
theorem Longest.advance (h : Longest p s n k) (htable : IsTable p table) (hn : n < p.length)
    (hk : k ≤ table.length) : Longest p (s ++ [b]) (n + 1) (advance p table b k) := by
  obtain ⟨hle, hends, hstop, hmost⟩ :=
    fallback_spec (b := b) (n := n) htable (Nat.le_refl k) hk h.ends
      fun j hj hover _ => h.most j hj hover
  have hkn := h.le
  -- a longer overlap with the new symbol is one with the stream before it
  have hbefore : ∀ j ≤ n, p.take (j + 1) <:+ s ++ [b] → j ≤ fallback p table b k k ∧
      p[j]? = some b := fun j hj hover => by
    obtain ⟨hover, hnext⟩ := (take_succ_suffix_iff (by omega)).mp hover
    exact ⟨hmost j hj hover hnext, hnext⟩
  unfold Kmp.advance
  dsimp only
  split
  · rename_i hnext
    refine ⟨by omega, (take_succ_suffix_iff (by omega)).mpr ⟨hends, hnext⟩, fun j hj hover => ?_⟩
    cases j with
    | zero => exact Nat.zero_le _
    | succ j => exact Nat.succ_le_succ (hbefore j (by omega) hover).1
  · rename_i hmiss
    have hzero : fallback p table b k k = 0 := hstop.resolve_right hmiss
    rw [hzero] at hmiss hbefore ⊢
    refine ⟨Nat.zero_le _, List.nil_suffix, fun j hj hover => ?_⟩
    cases j with
    | zero => exact Nat.le_refl 0
    | succ j =>
      obtain ⟨hj, hnext⟩ := hbefore j (by omega) hover
      rw [Nat.le_zero.mp hj] at hnext
      exact absurd hnext hmiss

/-! ## §3 Building the table -/

/-- One turn of the loop that fills the table, with the symbols matched so far. -/
def extend (p : List α) (state : List Nat × Nat) (b : α) : List Nat × Nat :=
  let matched := advance p state.1 b state.2
  (state.1 ++ [matched], matched)

/-- The table of a pattern. -/
def failureTable (p : List α) : List Nat :=
  match p with
  | [] => []
  | first :: rest => (rest.foldl (extend (first :: rest)) ([0], 0)).1

omit [DecidableEq α] in
/-- An overlap with a stream is one with a longer stream, where it is short enough. -/
theorem Longest.cons (h : Longest p s n k) (hn : n ≤ s.length) (a : α) :
    Longest p (a :: s) n k where
  le := h.le
  ends := h.ends.trans (List.suffix_cons a s)
  most := fun j hj hover => h.most j hj (List.suffix_of_suffix_length_le hover
    (List.suffix_cons a s) (by
      rw [List.length_take]
      omega))

/-- The loop keeps the table right and matches the pattern's tail against the pattern. -/
theorem foldl_extend {first : α} {done rest : List α} {state : List Nat × Nat}
    (hp : p = first :: (done ++ rest)) (htable : IsTable p state.1)
    (hlen : state.1.length = done.length + 1) (hmatched : Longest p done done.length state.2) :
    let table := (rest.foldl (extend p) state).1
    IsTable p table ∧ table.length = p.length := by
  induction rest generalizing done state with
  | nil =>
    refine ⟨htable, ?_⟩
    rw [List.foldl_nil, hlen, hp, List.append_nil, List.length_cons]
  | cons b rest ih =>
    have hroom : done.length < p.length := by
      rw [hp, List.length_cons, List.length_append]
      omega
    have hle := hmatched.le
    have hnext := hmatched.advance (b := b) htable hroom (by omega)
    have hfront : p.take (done.length + 1 + 1) = first :: (done ++ [b]) := by
      rw [hp, List.take_succ_cons, List.take_length_add_append, List.take_succ_cons, List.take_zero]
    refine @ih (done ++ [b]) _ ?_ (fun i hi => ?_) ?_ ?_
    · rw [hp, List.append_assoc, List.singleton_append]
    · simp only [extend, List.length_append, List.length_singleton, hlen] at hi ⊢
      by_cases hold : i < done.length + 1
      · rw [List.getD_append _ _ _ _ (by omega)]
        exact htable i (by omega)
      · obtain rfl : i = done.length + 1 := by omega
        rw [← hlen, List.getD_append_right _ _ _ _ (Nat.le_refl _), Nat.sub_self,
          List.getD_cons_zero, hlen, hfront]
        exact hnext.cons (by simp) first
    · simp only [extend, List.length_append, List.length_singleton, hlen]
    · rw [List.length_append, List.length_singleton]
      exact hnext

/-- The table of a pattern is right and has an entry for each of its symbols. -/
theorem failureTable_spec (p : List α) :
    IsTable p (failureTable p) ∧ (failureTable p).length = p.length := by
  cases p with
  | nil => exact ⟨fun i hi => absurd hi (Nat.not_lt_zero i), rfl⟩
  | cons first rest =>
    refine foldl_extend (show _ = first :: ([] ++ rest) from rfl) (fun i hi => ?_) rfl (longest_nil (Nat.zero_le _))
    obtain rfl : i = 0 := Nat.lt_one_iff.mp hi
    exact (longest_nil (Nat.zero_le _)).cons (Nat.zero_le _) first

/-! ## §4 Full matches -/

omit [DecidableEq α] in
/-- The longest overlap is the whole pattern where the pattern ends the stream. -/
theorem Longest.full_iff (h : Longest p s p.length k) : k = p.length ↔ p <:+ s := by
  constructor
  · rintro rfl
    simpa only [List.take_length] using h.ends
  · intro hends
    refine Nat.le_antisymm h.le (h.most _ (Nat.le_refl _) ?_)
    rwa [List.take_length]

omit [DecidableEq α] in
/-- After a full match the table gives the longest proper overlap. -/
theorem Longest.border (h : Longest p s p.length p.length) (htable : IsTable p table)
    (hlen : table.length = p.length) (hpos : 0 < p.length) :
    Longest p s (p.length - 1) (table.getD (p.length - 1) 0) := by
  have hentry := htable (p.length - 1) (by omega)
  rw [Nat.sub_add_cancel hpos] at hentry
  refine ⟨hentry.le, hentry.ends.trans h.ends, fun j hj hover => hentry.most j hj ?_⟩
  exact (take_suffix_take_iff h.ends (by omega)).mp hover

end BareLine.Lib.Kmp
