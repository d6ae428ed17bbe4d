import BareLine.Diff.Myers
import BareLine.Lib.EditGraph

/-!
# The alignment is a longest common subsequence

The search is the greedy search of the edit graph.  In round `d` the vector holds the furthest
points of the row on the diagonals of its parity, and those of the row before on the others, so
that no place is overwritten before it is read.  The first round with a point past both slices
is the one of a shortest path.
-/

namespace BareLine.Diff

open Lib Lib.Checked Lib.EditGraph

/-! ## §1 Places of diagonals -/

/-- The place of a diagonal in the vector. -/
def place (max : Nat) (k : Int) : Nat := (max + 1 + k).toNat

variable {max d : Nat} {k : Int}

/-- The lines of two slices are few enough for every index and every size of the search. -/
theorem len_small (a b : Lines) : 24 * (a.len + b.len) ≤ isizeMax := by
  have ha := a.fits
  have hb := b.fits
  simp only [sizeOfLine, sizeOfUsize] at ha hb
  simp only [Lines.len]
  omega

theorem place_lt (hk : InRow d k) (hd : d ≤ max) : place max k < 2 * max + 3 := by
  have := hk.within hd
  rw [place]
  omega

theorem place_inj {j : Int} (hj : -(max : Int) ≤ j) (hk : -(max : Int) ≤ k)
    (h : place max j = place max k) : j = k := by
  simp only [place] at h
  omega

theorem place_succ (hk : -(max : Int) ≤ k) : place max k + 1 = place max (k + 1) := by
  simp only [place]
  omega

theorem place_pred (hk : -(max : Int) ≤ k) : place max k - 1 = place max (k - 1) := by
  simp only [place]
  omega

theorem place_pos (hk : -(max : Int) ≤ k) : 1 ≤ place max k := by
  simp only [place]
  omega

theorem indexOf_eq (hmax : 24 * max ≤ isizeMax) (hlow : -(max : Int) - 1 ≤ k)
    (hhigh : k ≤ max + 1) : indexOf (max + 1) k = pure (place max k) := by
  have hplace : ((max + 1 : Nat) : Int) + k = place max k := by
    rw [place]
    omega
  have hsmall : place max k ≤ isizeMax := by
    simp only [isizeMax] at hmax ⊢
    omega
  rw [indexOf, asIsize_eq (by simp only [isizeMax] at hmax ⊢; omega),
    isizeOf_eq (by omega) (by omega), require_some, pure_bind, asUsize_eq hplace hsmall]

theorem low_eq (hd : d ≤ isizeMax) : isizeOf (-asIsize d) = some (-(d : Int)) := by
  rw [asIsize_eq hd]
  exact isizeOf_eq (by omega) (by omega)

/-! ## §2 One diagonal -/

/-- The vector holds the furthest points of a row. -/
def Holds (max : Nat) (row : Int → Nat) (d : Nat) (v : List Nat) : Prop :=
  ∀ k, InRow d k → v[place max k]? = some (row k)

section Diagonal

variable {row : Int → Nat} {v : List Nat}

/-- The first round has one diagonal, which it enters at the corner. -/
theorem enter_first (hmax : 24 * max ≤ isizeMax) (hv : v[place max 1]? = some 0) :
    enter v 0 0 (place max 0) = pure 0 := by
  have hplace : place max 0 + 1 = place max (0 + 1) := place_succ (by omega)
  have hadd : checkedAdd (place max 0) 1 = some (place max 1) := by
    rw [checkedAdd_eq, hplace, Int.zero_add]
    simp only [place, usizeMax, isizeMax] at hmax ⊢
    omega
  rw [enter, comesDown, low_eq (Nat.zero_le _), require_some, pure_bind,
    if_pos (show (0 : Int) = -((0 : Nat) : Int) from rfl), pure_bind, if_pos rfl, hadd,
    require_some, pure_bind, hv, require_some]

/-- The code decides as the greedy search does. -/
theorem comesDown_eq (hmax : 24 * max ≤ isizeMax) (hd : d + 1 ≤ max) (hk : InRow (d + 1) k)
    (hv : Holds max row d v) :
    comesDown v (d + 1) k (place max k) = pure (decide (ComesDown row (d + 1) k)) := by
  have hle := hk.within hd
  have hsmall : d + 1 ≤ isizeMax := by
    simp only [isizeMax] at hmax ⊢
    omega
  rw [comesDown, low_eq hsmall, asIsize_eq hsmall, require_some, pure_bind]
  by_cases hlow : k = -((d + 1 : Nat) : Int)
  · rw [if_pos hlow, decide_eq_true (show ComesDown row (d + 1) k from Or.inl hlow)]
  · rw [if_neg hlow]
    by_cases hhigh : k = ((d + 1 : Nat) : Int)
    · rw [if_pos hhigh, decide_eq_false]
      rintro (h | ⟨h, -⟩)
      · exact hlow h
      · exact h hhigh
    · obtain ⟨low, high, parity⟩ := hk
      push_cast at low high parity hlow hhigh
      have hbefore := hv (k - 1) ⟨by omega, by omega, by omega⟩
      have hafter := hv (k + 1) ⟨by omega, by omega, by omega⟩
      have hadd : checkedAdd (place max k) 1 = some (place max (k + 1)) := by
        rw [checkedAdd_eq, place_succ hle.1]
        simp only [place, usizeMax, isizeMax] at hmax ⊢
        omega
      rw [if_neg (by push_cast; exact hhigh), checkedSub_eq (place_pos hle.1), place_pred hle.1,
        require_some, pure_bind, hbefore, require_some, pure_bind, hadd, require_some, pure_bind,
        hafter, require_some, pure_bind]
      congr 1
      rw [decide_eq_decide, ComesDown]
      constructor
      · exact fun h => Or.inr ⟨by push_cast; exact hhigh, h⟩
      · rintro (h | ⟨-, h⟩)
        · exact absurd h (by push_cast; exact hlow)
        · exact h

/-- A round enters a diagonal where the greedy search does. -/
theorem enter_eq (hmax : 24 * max ≤ isizeMax) (hd : d + 1 ≤ max) (hk : InRow (d + 1) k)
    (hv : Holds max row d v) (hrow : ∀ j, InRow d j → row j + 1 ≤ usizeMax) :
    enter v (d + 1) k (place max k) = pure (entry row (d + 1) k) := by
  have hle := hk.within hd
  have hsource := hk.source row
  rw [source] at hsource
  rw [enter, comesDown_eq hmax hd hk hv, pure_bind, entry]
  by_cases hdown : ComesDown row (d + 1) k
  · rw [if_pos hdown] at hsource
    have hadd : checkedAdd (place max k) 1 = some (place max (k + 1)) := by
      rw [checkedAdd_eq, place_succ hle.1]
      simp only [place, usizeMax, isizeMax] at hmax ⊢
      omega
    rw [if_pos (decide_eq_true hdown), if_pos hdown, hadd, require_some, pure_bind,
      hv _ hsource, require_some]
  · rw [if_neg hdown] at hsource
    rw [if_neg (by rw [decide_eq_true_eq]; exact hdown), if_neg hdown,
      checkedSub_eq (place_pos hle.1), place_pred hle.1, require_some, pure_bind, hv _ hsource,
      require_some, pure_bind, checkedAdd_eq (hrow _ hsource), require_some]

end Diagonal

/-! ## §3 One round -/

section Rounds

variable {env : Surroundings} {need u : Nat} {a b : Lines} {v : List Nat}

/-- The lines followed are the common front of what is left. -/
theorem follow_ensures {l r : List Line} {x y : Nat} (hx : x + l.length ≤ usizeMax)
    (hy : y + r.length ≤ usizeMax) :
    Ensures (Limited env need) (fun w => w.used ≤ u) (follow env l r x y) fun p w =>
      w.used ≤ u ∧ p = (x + commonFront (l.map Line.text) (r.map Line.text),
        y + commonFront (l.map Line.text) (r.map Line.text)) := by
  induction l generalizing r x y with
  | nil =>
    rw [follow]
    · exact Ensures.pure fun w hw => ⟨hw, rfl⟩
    · intro p ps q qs h
      cases h
  | cons p ps ih =>
    cases r with
    | nil =>
      rw [follow]
      · exact Ensures.pure fun w hw => ⟨hw, rfl⟩
      · intro p ps q qs _ h
        cases h
    | cons q qs =>
      rw [List.length_cons] at hx hy
      rw [follow, List.map_cons, List.map_cons, commonFront]
      by_cases htext : p.text = q.text
      · rw [if_pos htext, if_pos htext]
        refine (check_ensures u).bind fun _ => ?_
        rw [checkedAdd_eq (by omega), require_some, pure_bind, checkedAdd_eq (by omega),
          require_some, pure_bind]
        refine (ih (x := x + 1) (y := y + 1) (by omega) (by omega)).weaken (fun _ hw => hw) ?_
        rintro r w ⟨hw, rfl⟩
        exact ⟨hw, by rw [Prod.mk.injEq]; omega⟩
      · rw [if_neg htext, if_neg htext]
        exact Ensures.pure fun w hw => ⟨hw, rfl⟩

/-- The furthest point of a diagonal. -/
def Lines.furthest (a b : Lines) : Nat → Int → Nat := EditGraph.furthest a.keys b.keys

/-- The furthest point of the diagonal is past both slices. -/
def Past (a b : Lines) (d : Nat) (k : Int) : Prop :=
  a.len ≤ a.furthest b d k ∧ (b.len : Int) + k ≤ a.furthest b d k

theorem furthest_le (hk : InRow d k) : a.furthest b d k ≤ a.len + d := by
  obtain ⟨y, hpath, -⟩ := furthest_path (a := a.keys) (b := b.keys) hk
  have := hpath.le_length
  rw [Lines.keys_length] at this
  exact this

/-- The vector in round `d`, which has come to diagonal `c`: the places below it hold this round,
the other ones still hold the round before. -/
structure Swept (a b : Lines) (d : Nat) (c : Int) (v : List Nat) : Prop where
  length : v.length = 2 * (a.len + b.len) + 3
  first : d = 0 → v[place (a.len + b.len) 1]? = some 0
  before : ∀ e, d = e + 1 → Holds (a.len + b.len) (a.furthest b e) e v
  filled : ∀ k, InRow d k → k < c → v[place (a.len + b.len) k]? = some (a.furthest b d k)
  inside : ∀ k, InRow d k → k < c → ¬ Past a b d k

/-- Where the round enters a diagonal, and how far it goes from there. -/
theorem Swept.enter {c : Int} (h : Swept a b d c v) (hd : d ≤ a.len + b.len) (hk : InRow d k) :
    ∃ x y : Nat, enter v d k (place (a.len + b.len) k) = pure x ∧ (x : Int) = y + k ∧
      x ≤ a.len + d ∧ x + runFrom a.keys b.keys x y = a.furthest b d k := by
  have hsmall := len_small a b
  cases d with
  | zero =>
    obtain ⟨low, high, -⟩ := hk
    obtain rfl : k = 0 := by omega
    exact ⟨0, 0, enter_first hsmall (h.first rfl), rfl, Nat.zero_le _, Nat.zero_add _⟩
  | succ d =>
    obtain ⟨y, hpath, hy, hrun⟩ := furthest_succ (a := a.keys) (b := b.keys) hk
    have hle := hpath.le_length
    rw [Lines.keys_length] at hle
    refine ⟨_, y, enter_eq hsmall hd hk (h.before d rfl) fun j hj => ?_, hy, hle, hrun.symm⟩
    have := furthest_le (a := a) (b := b) hj
    simp only [usizeMax, isizeMax] at hsmall ⊢
    omega

/-- The next diagonal is filled in. -/
theorem Swept.set (h : Swept a b d k v) (hd : d ≤ a.len + b.len) (hk : InRow d k)
    (hinside : ¬ Past a b d k) :
    Swept a b d (k + 2) (v.set (place (a.len + b.len) k) (a.furthest b d k)) := by
  have hwithin := hk.within hd
  -- The round before is on the other diagonals.
  have hother : ∀ j : Int, -((a.len + b.len : Nat) : Int) ≤ j → j ≠ k →
      (v.set (place (a.len + b.len) k) (a.furthest b d k))[place (a.len + b.len) j]? =
        v[place (a.len + b.len) j]? := fun j hj hne =>
    List.getElem?_set_ne fun heq => hne (place_inj hj hwithin.1 heq.symm)
  have hnext : ∀ j, InRow d j → j < k + 2 → j = k ∨ j < k := by
    intro j hj hlt
    have hjp := hj.parity
    have hkp := hk.parity
    omega
  constructor
  · rw [List.length_set]
    exact h.length
  · rintro rfl
    obtain ⟨low, high, -⟩ := hk
    rw [hother 1 (by omega) (by omega)]
    exact h.first rfl
  · rintro e rfl j hj
    have hjp := hj.parity
    have hkp := hk.parity
    rw [hother j (hj.within (by omega)).1 (by push_cast at hkp; omega)]
    exact h.before e rfl j hj
  · intro j hj hlt
    rcases hnext j hj hlt with rfl | hlt
    · exact List.getElem?_set_self (h.length ▸ place_lt hj hd)
    · rw [hother j (hj.within hd).1 (by omega)]
      exact h.filled j hj hlt
  · intro j hj hlt
    rcases hnext j hj hlt with rfl | hlt
    · exact hinside
    · exact h.inside j hj hlt

/-- What a round finds: a point past both slices, or the row of the round without one. -/
def SweepPost (a b : Lines) (d : Nat) (result : Bool × List Nat) : Prop :=
  if result.1 then ∃ k, InRow d k ∧ Past a b d k
  else Swept a b d (d + 1) result.2

/-- The round goes over its diagonals from below. -/
theorem sweep_ensures (hd : d ≤ a.len + b.len) :
    ∀ {n i : Nat} {v : List Nat}, i + n = d + 1 → Swept a b d (-(d : Int) + 2 * i) v →
      Ensures (Limited env need) (fun w => w.used ≤ u)
        (sweep env a b (a.len + b.len + 1) d
          ((List.range' i n).map fun j : Nat => -(d : Int) + 2 * j) v)
        fun result w => w.used ≤ u ∧ SweepPost a b d result := by
  intro n
  induction n with
  | zero =>
    intro i v hi h
    have hc : -(d : Int) + 2 * i = d + 2 := by omega
    refine Ensures.pure fun w hw => ⟨hw, ?_⟩
    rw [SweepPost, if_neg Bool.false_ne_true]
    exact ⟨h.length, h.first, h.before, fun k hk hlt => h.filled k hk (by omega),
      fun k hk hlt => h.inside k hk (by omega)⟩
  | succ n ih =>
    intro i v hi h
    have hsmall := len_small a b
    have hk : InRow d (-(d : Int) + 2 * i) := ⟨by omega, by omega, by omega⟩
    have hwithin := hk.within hd
    obtain ⟨x, y, henter, hxy, hx, hrun⟩ := h.enter hd hk
    have hdrop : ∀ (c : Lines) (z : Nat), z ≤ 3 * (a.len + b.len) →
        z + (c.lines.drop z).length ≤ usizeMax := by
      intro c z hz
      have hc := c.fits
      rw [List.length_drop]
      simp only [usizeMax, isizeMax, sizeOfLine, sizeOfUsize] at hsmall hc ⊢
      omega
    have hfront : commonFront ((a.lines.drop x).map Line.text) ((b.lines.drop y).map Line.text) =
        runFrom a.keys b.keys x y := by
      rw [runFrom, Lines.keys, Lines.keys, List.map_drop, List.map_drop]
    have hxsmall : x ≤ isizeMax := by
      simp only [isizeMax] at hsmall ⊢
      omega
    have hysmall : y ≤ isizeMax := by
      simp only [isizeMax] at hsmall ⊢
      omega
    rw [List.range'_succ, List.map_cons, sweep]
    refine (check_ensures u).bind fun _ => ?_
    rw [indexOf_eq hsmall (by omega) (by omega), pure_bind, henter, pure_bind,
      asIsize_eq hxsmall, isizeOf_eq (by omega) (by omega), require_some, pure_bind,
      asUsize_eq (n := y) (by omega) hysmall]
    refine (follow_ensures (hdrop a x (by omega)) (hdrop b y (by omega))).bind fun p => ?_
    refine Ensures.of_fact (fun w hw => hw.2) fun hp => ?_
    rw [hfront] at hp
    subst hp
    have hlen : place (a.len + b.len) (-(d : Int) + 2 * i) < v.length :=
      h.length ▸ place_lt hk hd
    have hy : (y : Int) + runFrom a.keys b.keys x y + (-(d : Int) + 2 * i) =
        a.furthest b d (-(d : Int) + 2 * i) := by
      rw [← hrun]
      push_cast
      omega
    dsimp only
    rw [setAt_eq hlen, require_some, pure_bind, hrun]
    -- The sweep ends on the diagonal that reaches the end of both texts.
    by_cases hpast : Past a b d (-(d : Int) + 2 * i)
    · have hend := hpast
      rw [Past] at hend
      rw [if_pos ⟨hend.1, by omega⟩]
      refine Ensures.pure fun w hw => ⟨hw.1, ?_⟩
      rw [SweepPost, if_pos rfl]
      exact ⟨_, hk, hpast⟩
    · rw [if_neg (fun hend => hpast ⟨hend.1, by omega⟩)]
      have hnext : -(d : Int) + 2 * ((i + 1 : Nat) : Int) = -(d : Int) + 2 * i + 2 := by
        push_cast
        omega
      refine (ih (i := i + 1) (by omega) (hnext ▸ h.set hd hk hpast)).weaken
        (fun w hw => hw.1) fun _ _ hw => hw

/-! ## §4 The rounds -/

/-- A round without a point past both slices leaves its row to the next one. -/
theorem Swept.next (h : Swept a b d (d + 1) v) :
    Swept a b (d + 1) (-((d + 1 : Nat) : Int)) v := by
  refine ⟨h.length, fun h => absurd h (Nat.succ_ne_zero d), ?_, ?_, ?_⟩
  · rintro e he k hk
    obtain rfl := Nat.succ.inj he
    exact h.filled k hk (by have := hk.high; omega)
  · intro k hk hlt
    exact absurd hk.low (by omega)
  · intro k hk hlt
    exact absurd hk.low (by omega)

/-- The vector of zeros before the first round. -/
theorem Swept.start (a b : Lines) :
    Swept a b 0 0 (List.replicate (2 * (a.len + b.len) + 3) 0) := by
  refine ⟨List.length_replicate, fun _ => ?_, fun e he => absurd he (Nat.succ_ne_zero e).symm,
    fun k hk hlt => absurd hk.low (by omega), fun k hk hlt => absurd hk.low (by omega)⟩
  rw [List.getElem?_replicate, if_pos]
  rw [place]
  omega

/-- The copies that the rounds before `d` have left. -/
structure Saved (a b : Lines) (d : Nat) (trace : List (List Nat)) : Prop where
  length : trace.length = d
  rows : ∀ e v, (trace)[e + 1]? = some v → Holds (a.len + b.len) (a.furthest b e) e v

theorem Saved.push {trace : List (List Nat)} {c : Int} (h : Saved a b d trace)
    (hv : Swept a b d c v) : Saved a b (d + 1) (trace ++ [v]) := by
  refine ⟨by rw [List.length_append, h.length]; rfl, fun e row he => ?_⟩
  rcases Nat.lt_trichotomy (e + 1) d with hlt | heq | hgt
  · rw [List.getElem?_append_left (by rw [h.length]; exact hlt)] at he
    exact h.rows e row he
  · rw [← h.length] at heq
    rw [heq, List.getElem?_concat_length] at he
    obtain rfl := Option.some.inj he
    exact hv.before e (by rw [← h.length, heq])
  · rw [List.getElem?_eq_none (by rw [List.length_append, h.length]; exact hgt)] at he
    cases he

/-- A point past both slices ends a shortest path. -/
theorem Past.distance {n : Nat} (hn : IsDistance a.keys b.keys n) (hk : InRow d k) (hd : d ≤ n)
    (h : Past a b d k) : d = n := by
  obtain ⟨hx, hy⟩ := h
  obtain ⟨y, hpath, hxy⟩ := furthest_path (a := a.keys) (b := b.keys) hk
  rw [Lines.furthest] at hx hy
  exact (hn.corner hpath hd (by rw [Lines.keys_length]; exact hx)
    (by rw [Lines.keys_length]; omega)).2.2

/-- The round of a shortest path has a point past both slices. -/
theorem past_of_distance {n : Nat} (hn : IsDistance a.keys b.keys n) :
    InRow n ((a.len : Int) - b.len) ∧ Past a b n ((a.len : Int) - b.len) := by
  have hpath := hn.1
  have hrow := Path.inRow hpath
  have hle := Path.le_furthest hpath
  rw [Lines.keys_length, Lines.keys_length] at hrow hle
  exact ⟨hrow, hle, by rw [Lines.furthest]; omega⟩

theorem stepByTwo_eq (d : Nat) :
    stepByTwo (-(d : Int)) d = (List.range' 0 (d + 1)).map fun j : Nat => -(d : Int) + 2 * j := by
  rw [stepByTwo, List.range_eq_range', show (((d : Int) - -(d : Int) + 2) / 2).toNat = d + 1 by
    omega]

/-- The rounds find the least number of steps and leave a copy for each round up to it. -/
theorem rounds_ensures {n rowBytes : Nat} (hn : IsDistance a.keys b.keys n)
    (hmax : n ≤ a.len + b.len) (hrow : rowBytes + 64 ≤ usizeMax) :
    ∀ {m d u : Nat} {v : List Nat} {trace : List (List Nat)}, d + m = a.len + b.len + 1 →
      d ≤ n → u + m * (rowBytes + 64) ≤ need → Swept a b d (-(d : Int)) v →
      Saved a b d trace →
      Ensures (Limited env need) (fun w => w.used ≤ u)
        (rounds env a b (a.len + b.len + 1) rowBytes (List.range' d m) v trace)
        fun result w => w.used ≤ need ∧ result.1 = n ∧ Saved a b (n + 1) result.2 := by
  intro m
  induction m with
  | zero =>
    intro d u v trace hd hle _ _ _
    omega
  | succ m ih =>
    intro d u v trace hd hle hneed hv hsaved
    have hsmall := len_small a b
    have hdsmall : d ≤ isizeMax := by omega
    rw [Nat.add_mul, Nat.one_mul] at hneed
    rw [List.range'_succ, rounds]
    refine (check_ensures u).bind fun _ => ?_
    rw [checkedAdd_eq hrow, require_some, pure_bind]
    refine (reserve_ensures (by omega)).bind fun _ => ?_
    rw [low_eq hdsmall, require_some, pure_bind, asIsize_eq hdsmall, stepByTwo_eq]
    have hsweep : Swept a b d (-(d : Int) + 2 * (0 : Nat)) v := by
      rw [Int.natCast_zero, Int.mul_zero, Int.add_zero]
      exact hv
    refine (sweep_ensures (by omega) (by omega) hsweep).bind fun result => ?_
    refine Ensures.of_fact (fun w hw => hw.2) fun hpost => ?_
    obtain ⟨found, v'⟩ := result
    rw [SweepPost] at hpost
    cases found with
    | true =>
      rw [if_pos rfl] at hpost
      obtain ⟨k, hk, hpast⟩ := hpost
      obtain rfl := hpast.distance hn hk hle
      exact Ensures.pure fun w hw => ⟨by omega, rfl, hsaved.push hv⟩
    | false =>
      rw [if_neg Bool.false_ne_true] at hpost
      have hne : d ≠ n := by
        rintro rfl
        obtain ⟨hk, hpast⟩ := past_of_distance hn
        exact hpost.inside _ hk (by have := hk.high; omega) hpast
      exact (ih (u := u + (rowBytes + 64)) (by omega) (by omega) (by omega) hpost.next
        (hsaved.push hv)).weaken (fun w hw => hw.1) fun _ _ hw => hw

/-! ## §5 The pairs -/

/-- Going back along a run aligns the lines it went over. -/
theorem retreat_spec (x₀ y₀ px py : Nat) (hx : px ≤ x₀) (hy : py ≤ y₀)
    (hor : px = x₀ ∨ py = y₀) :
    ∀ {n : Nat} {pairs : List (Nat × Nat)},
      (∀ i < n, AgreeAt a.keys b.keys (x₀ + i) (y₀ + i)) →
      Alignment a.keys b.keys (x₀ + n) (y₀ + n) pairs.reverse →
      Alignment a.keys b.keys x₀ y₀ (retreat px py (x₀ + n) (y₀ + n) pairs).reverse ∧
        (retreat px py (x₀ + n) (y₀ + n) pairs).length = pairs.length + n := by
  intro n
  induction n with
  | zero =>
    intro pairs _ h
    have hstop : retreat px py x₀ y₀ pairs = pairs := by
      cases x₀ with
      | zero => rw [retreat]; intro x y h; cases h
      | succ x =>
        cases y₀ with
        | zero => rw [retreat]; intro x y _ h; cases h
        | succ y => rw [retreat, if_neg (by omega)]
    rw [Nat.add_zero, Nat.add_zero, hstop]
    exact ⟨h, rfl⟩
  | succ n ih =>
    intro pairs hagree h
    rw [← Nat.add_assoc, ← Nat.add_assoc, retreat, if_pos ⟨by omega, by omega⟩]
    have hcons : Alignment a.keys b.keys (x₀ + n) (y₀ + n)
        (pairs ++ [(x₀ + n, y₀ + n)]).reverse := by
      rw [List.reverse_append]
      exact .cons (Nat.le_refl _) (Nat.le_refl _) (hagree n (Nat.lt_succ_self n)) h
    obtain ⟨halign, hlen⟩ := ih (fun i hi => hagree i (by omega)) hcons
    refine ⟨halign, ?_⟩
    rw [hlen, List.length_append, List.length_singleton]
    omega

/-- The way back from the furthest point of a diagonal aligns all lines its path keeps. -/
theorem backtrack_ensures {n : Nat} {trace : List (List Nat)} (hsaved : Saved a b (n + 1) trace)
    (hn : n ≤ a.len + b.len) :
    ∀ {d x y : Nat} {pairs : List (Nat × Nat)}, d ≤ n → InRow d ((x : Int) - y) →
      x = a.furthest b d ((x : Int) - y) → Alignment a.keys b.keys x y pairs.reverse →
      Ensures (Limited env need) (fun w => w.used ≤ u)
        (backtrack env trace (a.len + b.len + 1) d x y pairs) fun pairs' _ =>
          Alignment a.keys b.keys 0 0 pairs'.reverse ∧
            2 * pairs'.length + d = 2 * pairs.length + x + y := by
  intro d
  induction d with
  | zero =>
    intro x y pairs _ hk hx halign
    obtain ⟨low, high, -⟩ := hk
    obtain rfl : x = y := by omega
    rw [Lines.furthest, EditGraph.furthest] at hx
    have hagree : ∀ i < x, AgreeAt a.keys b.keys (0 + i) (0 + i) := fun i hi =>
      runFrom_agree (hx ▸ hi)
    have hback := retreat_spec (a := a) (b := b) 0 0 0 0 (Nat.le_refl 0) (Nat.le_refl 0) (Or.inl rfl)
      hagree (by rw [Nat.zero_add]; exact halign)
    rw [Nat.zero_add] at hback
    rw [backtrack]
    refine (check_ensures u).bind fun _ => Ensures.pure fun w _ => ⟨hback.1, ?_⟩
    rw [hback.2]
    omega
  | succ d ih =>
    intro x y pairs hd hk hx halign
    have hsmall := len_small a b
    have hwithin := hk.within (n := a.len + b.len) (by omega)
    have hxle := furthest_le (a := a) (b := b) hk
    rw [← hx] at hxle
    obtain ⟨v, hv⟩ : ∃ v, (trace)[d + 1]? = some v :=
      ⟨_, List.getElem?_eq_getElem (by rw [hsaved.length]; omega)⟩
    have hholds := hsaved.rows d v hv
    obtain ⟨y₀, -, hy₀, hrun⟩ := furthest_succ (a := a.keys) (b := b.keys) hk
    have hsource := hk.source (a.furthest b d)
    have hswithin := hsource.within (n := a.len + b.len) (by omega)
    have hstep := entry_eq (a.furthest b d) (d + 1) ((x : Int) - y)
    obtain ⟨py, -, hpy⟩ := furthest_path (a := a.keys) (b := b.keys) hsource
    have hpxle := furthest_le (a := a) (b := b) hsource
    rw [← Lines.furthest] at hrun hy₀ hpy
    rw [hrun] at hx
    -- The code decides between the two sources as the search did.
    have hdown := comesDown_eq hsmall (by omega) hk hholds
    have hpk : (if decide (ComesDown (a.furthest b d) (d + 1) ((x : Int) - y)) = true then
        (x : Int) - y + 1 else (x : Int) - y - 1) =
          source (a.furthest b d) (d + 1) ((x : Int) - y) := by
      rw [source]
      simp only [decide_eq_true_eq]
    have hpxv := hholds _ hsource
    generalize entry (a.furthest b d) (d + 1) ((x : Int) - y) = x₀ at hy₀ hx hstep
    generalize source (a.furthest b d) (d + 1) ((x : Int) - y) = pk at *
    generalize hm : runFrom a.keys b.keys x₀ y₀ = m at hx
    generalize hpx : a.furthest b d pk = px at *
    have hy : y = y₀ + m := by omega
    have hagree : ∀ i < m, AgreeAt a.keys b.keys (x₀ + i) (y₀ + i) := fun i hi =>
      runFrom_agree (hm ▸ hi)
    have hback := retreat_spec (a := a) (b := b) x₀ y₀ px py
      (by omega) (by omega) (by omega) hagree (hx ▸ hy ▸ halign)
    rw [← hx, ← hy] at hback
    have hword : ∀ z, z ≤ 3 * (a.len + b.len) + 3 → z ≤ isizeMax := by
      intro z hz
      simp only [isizeMax] at hsmall ⊢
      omega
    rw [backtrack]
    refine (check_ensures u).bind fun _ => ?_
    rw [hv, require_some, pure_bind, asIsize_eq (hword x (by omega)),
      asIsize_eq (hword y (by omega)),
      isizeOf_eq (by have := hword y (by omega); omega) (by have := hword x (by omega); omega),
      require_some, pure_bind, indexOf_eq hsmall (by omega) (by omega), pure_bind, hdown,
      pure_bind, hpk, isizeOf_eq (by omega) (by omega), require_some, pure_bind,
      indexOf_eq hsmall (by omega) (by omega), pure_bind, hpxv, require_some, pure_bind,
      asIsize_eq (hword px (by omega)),
      isizeOf_eq (by omega) (by have := hword py (by omega); omega), require_some, pure_bind,
      asUsize_eq (n := py) (by omega) (hword py (by omega))]
    have hpxy : (px : Int) - py = pk := by omega
    refine (ih (x := px) (y := py) (by omega) (hpxy ▸ hsource) (by rw [hpxy, hpx])
      (hback.1.mono (by omega) (by omega))).weaken (fun _ hw => hw) ?_
    rintro pairs' w ⟨hresult, hcount⟩
    refine ⟨hresult, ?_⟩
    rw [hback.2] at hcount
    omega

end Rounds

/-! ## §6 The alignment -/

/-- The memory that all rounds of a search take. -/
def searchBytes (a b : Lines) : Nat :=
  (2 * (a.len + b.len) + 3) * sizeOfUsize +
    (a.len + b.len + 1) * ((2 * (a.len + b.len) + 3) * sizeOfUsize + 64)

theorem texts_of_alignment {a b : Lines} {x y : Nat} {pairs : List (Nat × Nat)}
    (h : Alignment a.keys b.keys x y pairs) :
    ∀ p ∈ pairs, ∃ l r, a.lines[p.1]? = some l ∧ b.lines[p.2]? = some r ∧ l.text = r.text := by
  intro p hp
  obtain ⟨-, -, c, hx, hy⟩ := h.agree p hp
  rw [Lines.keys, List.getElem?_map, Option.map_eq_some_iff] at hx hy
  obtain ⟨l, hl, hlc⟩ := hx
  obtain ⟨r, hr, hrc⟩ := hy
  exact ⟨l, r, hl, hr, hlc.trans hrc.symm⟩

/-- A search that returns aligns a longest common subsequence of the lines.  It stops for its
limits only, and no index, offset or size leaves its range. -/
theorem myers_longest_common (env : Surroundings) (a b : Lines) (w : Work) :
    match myers env a b w with
    | .ok (pairs, _) =>
      (pairs.Pairwise fun p q => p.1 < q.1 ∧ p.2 < q.2) ∧
        (∀ p ∈ pairs, ∃ l r, a.lines[p.1]? = some l ∧ b.lines[p.2]? = some r ∧
          l.text = r.text) ∧
        IsLongestCommon a.keys b.keys pairs.length
    | .error (.report e) => Limited env (w.used + searchBytes a b) e
    | .error .fault => False := by
  obtain ⟨n, hn, hmax⟩ := exists_distance a.keys b.keys
  rw [Lines.keys_length, Lines.keys_length] at hmax
  have hsmall := len_small a b
  have hsize : saturatingMul (2 * (a.len + b.len) + 3) sizeOfUsize =
      (2 * (a.len + b.len) + 3) * sizeOfUsize := by
    rw [saturatingMul, Nat.min_eq_left]
    simp only [usizeMax, isizeMax, sizeOfUsize] at hsmall ⊢
    omega
  have hrow : (2 * (a.len + b.len) + 3) * sizeOfUsize + 64 ≤ usizeMax := by
    simp only [usizeMax, isizeMax, sizeOfUsize] at hsmall ⊢
    omega
  have hword : ∀ z, z ≤ 3 * (a.len + b.len) + 3 → z ≤ usizeMax := by
    intro z hz
    simp only [usizeMax, isizeMax] at hsmall ⊢
    omega
  have hensures : Ensures (Limited env (w.used + searchBytes a b)) (fun s => s.used ≤ w.used)
      (myers env a b) fun pairs _ => Alignment a.keys b.keys 0 0 pairs ∧
        n + 2 * pairs.length = a.len + b.len := by
    rw [myers, checkedAdd_eq (hword _ (by omega)), require_some, pure_bind,
      checkedMul_eq (hword _ (by omega)), require_some, pure_bind,
      checkedAdd_eq (hword _ (by omega)), require_some, pure_bind,
      checkedAdd_eq (hword _ (by omega)), require_some, pure_bind, hsize]
    refine (reserve_ensures (by rw [searchBytes]; omega)).bind fun _ => ?_
    rw [List.range_eq_range']
    refine (rounds_ensures hn hmax hrow (by omega) (Nat.zero_le n)
      (by rw [searchBytes]; omega) (Swept.start a b) ⟨rfl, fun e v he => by cases he⟩).bind
        fun result => ?_
    refine Ensures.of_fact (fun s hs => hs.2) fun hresult => ?_
    obtain ⟨finalD, trace⟩ := result
    obtain ⟨rfl, hsaved⟩ := hresult
    obtain ⟨hk, hpast⟩ := past_of_distance hn
    have hcorner : a.len = a.furthest b finalD ((a.len : Int) - b.len) := by
      obtain ⟨y, hpath, hy⟩ := furthest_path (a := a.keys) (b := b.keys) hk
      rw [← Lines.furthest] at hpath hy
      have := hpast.2
      have hend := hn.corner hpath (Nat.le_refl _) (by rw [Lines.keys_length]; exact hpast.1)
        (by rw [Lines.keys_length]; omega)
      rw [hend.1, Lines.keys_length]
    refine ((backtrack_ensures hsaved hmax (Nat.le_refl _) hk hcorner Alignment.nil).weaken
      (fun s hs => hs.1) fun _ _ h => h).bind fun pairs => ?_
    refine Ensures.pure fun s hs => ⟨hs.1, ?_⟩
    have := hs.2
    rw [List.length_nil] at this
    rw [List.length_reverse]
    omega
  have h := hensures w (Nat.le_refl _)
  rcases hrun : myers env a b w with stop | ⟨pairs, s⟩
  · rw [hrun] at h
    cases stop with
    | report e => exact h
    | fault => exact h
  · rw [hrun] at h
    obtain ⟨halign, hcount⟩ := h
    exact ⟨halign.increasing, texts_of_alignment halign, hn.longestCommon (by
      rw [Lines.keys_length, Lines.keys_length]
      exact hcount)⟩

end BareLine.Diff
