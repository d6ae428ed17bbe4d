import Mathlib

/-!
# The edit graph of two lists

A path starts in the corner of the two lists.  It goes right over an entry of the first list,
down over an entry of the second, or along a diagonal over an entry that both have.  Only right
and down steps count, so a shortest path keeps a longest common subsequence.  Right and down
steps may leave the lists, as the greedy search for a shortest path does.
-/

namespace BareLine.Lib.EditGraph

variable {κ : Type}

/-! ## §1 Paths -/

/-- Both lists have an entry there, and it is the same. -/
def AgreeAt (a b : List κ) (x y : Nat) : Prop := ∃ c, a[x]? = some c ∧ b[y]? = some c

/-- The points that some path reaches with `d` steps to the right or down. -/
inductive Path (a b : List κ) : Nat → Nat → Nat → Prop
  | origin : Path a b 0 0 0
  | right {d x y : Nat} (h : Path a b d x y) : Path a b (d + 1) (x + 1) y
  | down {d x y : Nat} (h : Path a b d x y) : Path a b (d + 1) x (y + 1)
  | diagonal {d x y : Nat} (h : Path a b d x y) (agree : AgreeAt a b x y) :
      Path a b d (x + 1) (y + 1)

variable {a b : List κ} {d x y : Nat} {k : Int}

/-- The diagonals that `d` steps reach. -/
structure InRow (d : Nat) (k : Int) : Prop where
  low : -(d : Int) ≤ k
  high : k ≤ d
  parity : (k + d) % 2 = 0

theorem InRow.within {n : Nat} (h : InRow d k) (hd : d ≤ n) : -(n : Int) ≤ k ∧ k ≤ n := by
  obtain ⟨low, high, -⟩ := h
  omega

/-- A path with `d` steps ends on a diagonal of row `d`. -/
theorem Path.inRow (h : Path a b d x y) : InRow d (x - y) := by
  induction h with
  | origin => exact ⟨by simp, by simp, by simp⟩
  | right _ ih | down _ ih =>
    obtain ⟨low, high, parity⟩ := ih
    exact ⟨by omega, by omega, by omega⟩
  | diagonal _ _ ih =>
    obtain ⟨low, high, parity⟩ := ih
    exact ⟨by omega, by omega, by omega⟩

/-- Only steps to the right leave the first list. -/
theorem Path.le_length (h : Path a b d x y) : x ≤ a.length + d := by
  induction h with
  | origin => omega
  | right _ ih | down _ ih => omega
  | diagonal _ agree _ =>
    obtain ⟨c, hx, -⟩ := agree
    have := (List.getElem?_eq_some_iff.mp hx).1
    omega

/-! ## §2 Common subsequences -/

/-- The length of a longest common subsequence. -/
def IsLongestCommon (a b : List κ) (n : Nat) : Prop :=
  (∃ c : List κ, c.Sublist a ∧ c.Sublist b ∧ c.length = n) ∧
    ∀ c : List κ, c.Sublist a → c.Sublist b → c.length ≤ n

/-- What a path keeps is common to the fronts it has passed. -/
theorem Path.common (h : Path a b d x y) :
    ∃ c : List κ, c.Sublist (a.take x) ∧ c.Sublist (b.take y) ∧ x + y = d + 2 * c.length := by
  induction h with
  | origin => exact ⟨[], List.nil_sublist _, List.nil_sublist _, rfl⟩
  | right _ ih =>
    obtain ⟨c, ha, hb, hlen⟩ := ih
    exact ⟨c, ha.trans (List.take_sublist_take_left (Nat.le_succ _)), hb, by omega⟩
  | down _ ih =>
    obtain ⟨c, ha, hb, hlen⟩ := ih
    exact ⟨c, ha, hb.trans (List.take_sublist_take_left (Nat.le_succ _)), by omega⟩
  | diagonal _ agree ih =>
    obtain ⟨c, ha, hb, hlen⟩ := ih
    obtain ⟨e, hx, hy⟩ := agree
    refine ⟨c ++ [e], ?_, ?_, by simp only [List.length_append, List.length_singleton]; omega⟩
    · rw [List.take_add_one, hx]
      exact ha.append_right _
    · rw [List.take_add_one, hy]
      exact hb.append_right _

/-- Entries of the second list alone are steps down. -/
theorem Path.downs (h : Path a b d x y) (n : Nat) : Path a b (d + n) x (y + n) := by
  induction n with
  | zero => exact h
  | succ n ih => exact ih.down

/-- A common subsequence of what is left continues a path to the far corner. -/
theorem Path.of_common {c l r : List κ} (hl : c.Sublist l) :
    ∀ {d : Nat} {p q : List κ}, c.Sublist r → Path (p ++ l) (q ++ r) d p.length q.length →
      ∃ e, Path (p ++ l) (q ++ r) e (p ++ l).length (q ++ r).length ∧
        e + 2 * c.length = d + l.length + r.length := by
  induction hl generalizing r with
  | slnil =>
    intro d p q _ h
    refine ⟨d + r.length, ?_, by simp⟩
    rw [List.append_nil, List.length_append]
    rw [List.append_nil] at h
    exact h.downs _
  | @cons c l e _ ih =>
    intro d p q hr h
    have hstep : Path ((p ++ [e]) ++ l) (q ++ r) (d + 1) (p ++ [e]).length q.length := by
      rw [List.append_assoc, List.length_append]
      exact h.right
    obtain ⟨n, hn, hlen⟩ := ih hr hstep
    rw [List.append_assoc] at hn
    exact ⟨n, hn, by simp only [List.length_cons]; omega⟩
  | @cons_cons c l e _ ih =>
    intro d p q hr h
    -- Entries of the second list before the common one are steps down.
    generalize hc : e :: c = ec at hr
    induction hr generalizing d q with
    | slnil => cases hc
    | @cons c' r f hr' ihr =>
      have hstep : Path (p ++ e :: l) ((q ++ [f]) ++ r) (d + 1) p.length (q ++ [f]).length := by
        rw [List.append_assoc, (List.length_append : (q ++ [f]).length = _)]
        exact h.down
      obtain ⟨n, hn, hlen⟩ := ihr hstep hc
      rw [List.append_assoc] at hn
      exact ⟨n, hn, by simp only [List.length_cons] at hlen ⊢; omega⟩
    | @cons_cons c' r f hr' _ =>
      obtain ⟨rfl, rfl⟩ := List.cons.inj hc
      have hagree : AgreeAt (p ++ e :: l) (q ++ e :: r) p.length q.length :=
        ⟨e, by simp, by simp⟩
      have hstep : Path ((p ++ [e]) ++ l) ((q ++ [e]) ++ r) d (p ++ [e]).length
          (q ++ [e]).length := by
        rw [List.append_assoc, List.append_assoc, List.length_append, List.length_append]
        exact h.diagonal hagree
      obtain ⟨n, hn, hlen⟩ := ih hr' hstep
      rw [List.append_assoc, List.append_assoc] at hn
      exact ⟨n, hn, by simp only [List.length_cons]; omega⟩

/-- A common subsequence is kept by some path from corner to corner. -/
theorem exists_path_of_common {c : List κ} (ha : c.Sublist a) (hb : c.Sublist b) :
    ∃ e, Path a b e a.length b.length ∧ e + 2 * c.length = a.length + b.length := by
  obtain ⟨e, he, hlen⟩ := Path.of_common (p := []) (q := []) ha hb Path.origin
  exact ⟨e, he, by omega⟩

/-- The least number of steps from corner to corner. -/
def IsDistance (a b : List κ) (n : Nat) : Prop :=
  IsLeast {d | Path a b d a.length b.length} n

theorem exists_distance (a b : List κ) : ∃ n, IsDistance a b n ∧ n ≤ a.length + b.length := by
  classical
  obtain ⟨e, he, hlen⟩ := exists_path_of_common (a := a) (b := b) (List.nil_sublist _)
    (List.nil_sublist _)
  have hex : ∃ d, Path a b d a.length b.length := ⟨e, he⟩
  refine ⟨Nat.find hex, ⟨Nat.find_spec hex, fun d hd => Nat.find_min' hex hd⟩, ?_⟩
  have := Nat.find_min' hex he
  simp only [List.length_nil] at hlen
  omega

/-- What a shortest path keeps is a longest common subsequence. -/
theorem IsDistance.longestCommon {n m : Nat} (h : IsDistance a b n)
    (hm : n + 2 * m = a.length + b.length) : IsLongestCommon a b m := by
  constructor
  · obtain ⟨c, ha, hb, hlen⟩ := h.1.common
    exact ⟨c, ha.trans (List.take_sublist _ _), hb.trans (List.take_sublist _ _), by omega⟩
  · intro c ha hb
    obtain ⟨e, he, hlen⟩ := exists_path_of_common ha hb
    have := h.2 he
    omega

/-- With so few steps no path gets beyond the far corner. -/
theorem IsDistance.corner {n : Nat} (h : IsDistance a b n) (hpath : Path a b d x y)
    (hd : d ≤ n) (hx : a.length ≤ x) (hy : b.length ≤ y) :
    x = a.length ∧ y = b.length ∧ d = n := by
  obtain ⟨c, ha, hb, hlen⟩ := hpath.common
  obtain ⟨e, he, helen⟩ := exists_path_of_common (ha.trans (List.take_sublist _ _))
    (hb.trans (List.take_sublist _ _))
  have := h.2 he
  omega

/-! ## §3 Runs along a diagonal -/

section Runs

variable [DecidableEq κ]

/-- The length of the common front. -/
def commonFront : List κ → List κ → Nat
  | c :: l, e :: r => if c = e then commonFront l r + 1 else 0
  | _, _ => 0

theorem commonFront_agree {l r : List κ} {i : Nat} (h : i < commonFront l r) : AgreeAt l r i i := by
  induction l, r using commonFront.induct generalizing i with
  | case1 l e r ih =>
    cases i with
    | zero => exact ⟨_, rfl, rfl⟩
    | succ i =>
      rw [commonFront, if_pos rfl] at h
      exact ih (by omega)
  | case2 c l e r hne =>
    rw [commonFront, if_neg hne] at h
    omega
  | case3 l r hnil =>
    rw [commonFront.eq_2 l r hnil] at h
    omega

theorem commonFront_stop (l r : List κ) : ¬ AgreeAt l r (commonFront l r) (commonFront l r) := by
  induction l, r using commonFront.induct with
  | case1 c l r ih =>
    rw [commonFront, if_pos rfl]
    exact ih
  | case2 c l e r hne =>
    rw [commonFront, if_neg hne]
    rintro ⟨s, hs, hs'⟩
    exact hne ((Option.some.inj hs).trans (Option.some.inj hs').symm)
  | case3 l r hnil =>
    rintro ⟨s, hs, hs'⟩
    cases l with
    | nil => cases hs
    | cons c l =>
      cases r with
      | nil => cases hs'
      | cons e r => exact hnil c l e r rfl rfl

/-- How far a run from a point goes. -/
def runFrom (a b : List κ) (x y : Nat) : Nat := commonFront (a.drop x) (b.drop y)

omit [DecidableEq κ] in
theorem agreeAt_drop {i : Nat} :
    AgreeAt (a.drop x) (b.drop y) i i ↔ AgreeAt a b (x + i) (y + i) := by
  rw [AgreeAt, AgreeAt]
  simp only [List.getElem?_drop]

theorem runFrom_agree {i : Nat} (h : i < runFrom a b x y) : AgreeAt a b (x + i) (y + i) :=
  agreeAt_drop.mp (commonFront_agree h)

theorem runFrom_stop (a b : List κ) (x y : Nat) :
    ¬ AgreeAt a b (x + runFrom a b x y) (y + runFrom a b x y) := fun h =>
  commonFront_stop _ _ (agreeAt_drop.mpr h)

/-- A path goes on along its run. -/
theorem Path.run (h : Path a b d x y) {n : Nat} (hn : n ≤ runFrom a b x y) :
    Path a b d (x + n) (y + n) := by
  induction n with
  | zero => exact h
  | succ n ih => exact (ih (by omega)).diagonal (runFrom_agree hn)

/-! ## §4 The furthest paths, round by round -/

/-- The round comes down from the diagonal above rather than from the one below. -/
def ComesDown (row : Int → Nat) (d : Nat) (k : Int) : Prop :=
  k = -(d : Int) ∨ k ≠ d ∧ row (k - 1) < row (k + 1)

instance (row : Int → Nat) (d : Nat) (k : Int) : Decidable (ComesDown row d k) :=
  inferInstanceAs (Decidable (_ ∨ _))

/-- Where a round enters a diagonal. -/
def entry (row : Int → Nat) (d : Nat) (k : Int) : Nat :=
  if ComesDown row d k then row (k + 1) else row (k - 1) + 1

/-- The furthest a path with `d` steps comes on a diagonal. -/
def furthest (a b : List κ) : Nat → Int → Nat
  | 0, _ => runFrom a b 0 0
  | d + 1, k =>
    let x := entry (furthest a b d) (d + 1) k
    x + runFrom a b x (x - k).toNat

theorem entry_ge_right (row : Int → Nat) (hk : InRow d (k - 1)) :
    row (k - 1) + 1 ≤ entry row (d + 1) k := by
  obtain ⟨low, -, -⟩ := hk
  rw [entry]
  split
  · rename_i hdown
    rcases hdown with hdown | ⟨-, hdown⟩
    · push_cast at hdown
      omega
    · exact hdown
  · exact Nat.le_refl _

theorem entry_ge_down (row : Int → Nat) (hk : InRow d (k + 1)) :
    row (k + 1) ≤ entry row (d + 1) k := by
  obtain ⟨-, high, -⟩ := hk
  rw [entry]
  split
  · exact Nat.le_refl _
  · rename_i hdown
    have hne : k ≠ ((d + 1 : Nat) : Int) := by push_cast; omega
    have hge : row (k + 1) ≤ row (k - 1) := Nat.le_of_not_lt fun h => hdown (Or.inr ⟨hne, h⟩)
    exact hge.trans (Nat.le_succ _)

/-- The diagonal that a round comes from. -/
def source (row : Int → Nat) (d : Nat) (k : Int) : Int :=
  if ComesDown row d k then k + 1 else k - 1

/-- A round enters a diagonal with one step. -/
theorem entry_eq (row : Int → Nat) (d : Nat) (k : Int) :
    entry row d k = row (source row d k) ∧ source row d k = k + 1 ∨
      entry row d k = row (source row d k) + 1 ∧ source row d k = k - 1 := by
  rw [entry, source]
  split
  · exact Or.inl ⟨rfl, rfl⟩
  · exact Or.inr ⟨rfl, rfl⟩

/-- The diagonal that a round comes from lies in the row before it. -/
theorem InRow.source (row : Int → Nat) (h : InRow (d + 1) k) :
    InRow d (source row (d + 1) k) := by
  obtain ⟨low, high, parity⟩ := h
  push_cast at low high parity
  rw [EditGraph.source]
  split
  · rename_i hdown
    rcases hdown with hdown | ⟨hne, -⟩
    · push_cast at hdown
      exact ⟨by omega, by omega, by omega⟩
    · push_cast at hne
      exact ⟨by omega, by omega, by omega⟩
  · rename_i hdown
    have hne : k ≠ -((d + 1 : Nat) : Int) := fun h => hdown (Or.inl h)
    push_cast at hne
    exact ⟨by omega, by omega, by omega⟩

/-- A path leads to where a round enters a diagonal, and the run from there to the furthest
point. -/
theorem furthest_succ_of (hk : InRow (d + 1) k)
    (hrow : ∀ j, InRow d j →
      ∃ y, Path a b d (furthest a b d j) y ∧ (furthest a b d j : Int) = y + j) :
    ∃ y, Path a b (d + 1) (entry (furthest a b d) (d + 1) k) y ∧
      (entry (furthest a b d) (d + 1) k : Int) = y + k ∧
      furthest a b (d + 1) k = entry (furthest a b d) (d + 1) k +
        runFrom a b (entry (furthest a b d) (d + 1) k) y := by
  have hto : ∀ {y : Nat}, (entry (furthest a b d) (d + 1) k : Int) = y + k →
      furthest a b (d + 1) k = entry (furthest a b d) (d + 1) k +
        runFrom a b (entry (furthest a b d) (d + 1) k) y := fun h => by
    rw [furthest, show ((entry (furthest a b d) (d + 1) k : Int) - k).toNat = _ by
      rw [h, Int.add_sub_cancel, Int.toNat_natCast]]
  obtain ⟨y, hpath, hy⟩ := hrow _ (hk.source (furthest a b d))
  rcases entry_eq (furthest a b d) (d + 1) k with ⟨he, hs⟩ | ⟨he, hs⟩
  · have hyk : (entry (furthest a b d) (d + 1) k : Int) = (y + 1 : Nat) + k := by
      rw [he, hy, hs]
      push_cast
      omega
    exact ⟨y + 1, he ▸ hpath.down, hyk, hto hyk⟩
  · have hyk : (entry (furthest a b d) (d + 1) k : Int) = y + k := by
      rw [he]
      push_cast
      omega
    exact ⟨y, he ▸ hpath.right, hyk, hto hyk⟩

/-- The furthest point of a diagonal ends a path. -/
theorem furthest_path {d : Nat} {k : Int} (hk : InRow d k) :
    ∃ y, Path a b d (furthest a b d k) y ∧ (furthest a b d k : Int) = y + k := by
  induction d generalizing k with
  | zero =>
    obtain ⟨low, high, -⟩ := hk
    have h := Path.run (Path.origin (a := a) (b := b)) (Nat.le_refl _)
    exact ⟨_, by simpa only [furthest, Nat.zero_add] using h, by
      simp only [furthest]; omega⟩
  | succ d ih =>
    obtain ⟨y, hpath, hy, hrun⟩ := furthest_succ_of hk fun j hj => ih hj
    refine ⟨y + runFrom a b (entry (furthest a b d) (d + 1) k) y, ?_, ?_⟩
    · rw [hrun]
      exact hpath.run (Nat.le_refl _)
    · rw [hrun]
      push_cast
      omega

theorem furthest_succ (hk : InRow (d + 1) k) :
    ∃ y, Path a b (d + 1) (entry (furthest a b d) (d + 1) k) y ∧
      (entry (furthest a b d) (d + 1) k : Int) = y + k ∧
      furthest a b (d + 1) k = entry (furthest a b d) (d + 1) k +
        runFrom a b (entry (furthest a b d) (d + 1) k) y :=
  furthest_succ_of hk fun _ => furthest_path

/-- The run of a diagonal ends at its furthest point. -/
theorem furthest_stop {d : Nat} {k : Int} (hk : InRow d k) (hy : (furthest a b d k : Int) = y + k) :
    ¬ AgreeAt a b (furthest a b d k) y := by
  cases d with
  | zero =>
    obtain ⟨low, high, -⟩ := hk
    have hxy : y = furthest a b 0 k := by omega
    have h := runFrom_stop a b 0 0
    rw [Nat.zero_add] at h
    rw [hxy, furthest]
    exact h
  | succ d =>
    obtain ⟨z, -, hz, hrun⟩ := furthest_succ (a := a) (b := b) hk
    have h := runFrom_stop a b (entry (furthest a b d) (d + 1) k) z
    rw [hrun] at hy ⊢
    have hyz : y = z + runFrom a b (entry (furthest a b d) (d + 1) k) z := by
      push_cast at hy
      omega
    rw [hyz]
    exact h

/-- No path with `d` steps comes further. -/
theorem Path.le_furthest (h : Path a b d x y) : x ≤ furthest a b d (x - y) := by
  induction h with
  | origin => exact Nat.zero_le _
  | @right d x y h ih =>
    have hk : ((x + 1 : Nat) : Int) - y - 1 = x - y := by push_cast; omega
    have hrow : InRow d (((x + 1 : Nat) : Int) - y - 1) := hk ▸ h.inRow
    have hge := entry_ge_right (furthest a b d) hrow
    rw [hk] at hge
    rw [furthest]
    omega
  | @down d x y h ih =>
    have hk : (x : Int) - (y + 1 : Nat) + 1 = x - y := by push_cast; omega
    have hrow : InRow d ((x : Int) - (y + 1 : Nat) + 1) := hk ▸ h.inRow
    have hge := entry_ge_down (furthest a b d) hrow
    rw [hk] at hge
    rw [furthest]
    omega
  | @diagonal d x y h agree ih =>
    have hk : ((x + 1 : Nat) : Int) - (y + 1 : Nat) = x - y := by push_cast; omega
    rw [hk]
    -- The run stops at the furthest point, so the path has not come as far yet.
    rcases Nat.lt_or_ge x (furthest a b d (x - y)) with hlt | hge
    · exact hlt
    · have heq : furthest a b d (x - y) = x := by omega
      exact absurd (heq.symm ▸ agree) (furthest_stop h.inRow (by omega))

end Runs

/-! ## §5 Alignments -/

/-- Pairs of places with equal entries from a point on, strictly increasing on both sides. -/
inductive Alignment (a b : List κ) : Nat → Nat → List (Nat × Nat) → Prop
  | nil {x y : Nat} : Alignment a b x y []
  | cons {x y i j : Nat} {pairs : List (Nat × Nat)} (hx : x ≤ i) (hy : y ≤ j)
      (agree : AgreeAt a b i j) (rest : Alignment a b (i + 1) (j + 1) pairs) :
      Alignment a b x y ((i, j) :: pairs)

theorem Alignment.mono {x' y' : Nat} {pairs : List (Nat × Nat)} (h : Alignment a b x y pairs)
    (hx : x' ≤ x) (hy : y' ≤ y) : Alignment a b x' y' pairs := by
  cases h with
  | nil => exact .nil
  | cons hi hj agree rest => exact .cons (hx.trans hi) (hy.trans hj) agree rest

theorem Alignment.agree {pairs : List (Nat × Nat)} (h : Alignment a b x y pairs) :
    ∀ p ∈ pairs, x ≤ p.1 ∧ y ≤ p.2 ∧ AgreeAt a b p.1 p.2 := by
  induction h with
  | nil => intro p hp; cases hp
  | cons hx hy agree _ ih =>
    intro p hp
    rcases List.mem_cons.mp hp with rfl | hp
    · exact ⟨hx, hy, agree⟩
    · obtain ⟨hi, hj, hagree⟩ := ih p hp
      exact ⟨by omega, by omega, hagree⟩

theorem Alignment.increasing {pairs : List (Nat × Nat)} (h : Alignment a b x y pairs) :
    pairs.Pairwise fun p q => p.1 < q.1 ∧ p.2 < q.2 := by
  induction h with
  | nil => exact List.Pairwise.nil
  | cons _ _ _ rest ih =>
    refine List.Pairwise.cons (fun q hq => ?_) ih
    obtain ⟨hi, hj, -⟩ := rest.agree q hq
    exact ⟨hi, hj⟩

end BareLine.Lib.EditGraph
