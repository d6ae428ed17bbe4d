import BareLine.Power.Columns

/-!
# Rows cut at display columns

A column cuts a row between two of its clusters, or inside one of them.  What the map of a row
finds at a column are the clusters that end at or before it.
-/

namespace BareLine.Power

open Lib
open Search (Text)
open String (utf8Len)

/-! ## §1 Rows of clusters -/

/-- The clusters of a row hold something, and a tab is one of its own. -/
def Clustered (row : List Text) : Prop := ∀ g ∈ row, g ≠ [] ∧ ('\t' ∈ g → g = ['\t'])

/-- The width of a cluster at a column, with the display's metrics. -/
def cellWidth (tabWidth : Nat) (width : Text → Nat) (col : Nat) (g : Text) : Nat :=
  if g = ['\t'] then max tabWidth 1 - col % max tabWidth 1 else width g

/-- The column behind some clusters that start at a column. -/
def columnAfter (tabWidth : Nat) (width : Text → Nat) : Nat → List Text → Nat
  | col, [] => col
  | col, g :: row => columnAfter tabWidth width (col + cellWidth tabWidth width col g) row

variable {tabWidth : Nat} {width : Text → Nat}

theorem columnAfter_append (col : Nat) (row rest : List Text) :
    columnAfter tabWidth width col (row ++ rest) =
      columnAfter tabWidth width (columnAfter tabWidth width col row) rest := by
  induction row generalizing col with
  | nil => rfl
  | cons g row ih => exact ih _

theorem cellWidth_pos (hwidth : ∀ g, 0 < width g) (col : Nat) (g : Text) :
    0 < cellWidth tabWidth width col g := by
  rw [cellWidth]
  split_ifs
  · exact Nat.sub_pos_of_lt (Nat.mod_lt _ (by omega))
  · exact hwidth g

theorem le_columnAfter (col : Nat) (row : List Text) :
    col ≤ columnAfter tabWidth width col row := by
  induction row generalizing col with
  | nil => exact Nat.le_refl _
  | cons g row ih => exact Nat.le_trans (Nat.le_add_right _ _) (ih _)

theorem lt_columnAfter_cons (hwidth : ∀ g, 0 < width g) (col : Nat) (g : Text) (row : List Text) :
    col < columnAfter tabWidth width col (g :: row) :=
  Nat.lt_of_lt_of_le (Nat.lt_add_of_pos_right (cellWidth_pos hwidth col g)) (le_columnAfter _ _)

/-! ## §2 The map at a column -/

namespace DisplayColumnMap

/-- `DisplayColumnMap::at` -/
def atColumn (map : DisplayColumnMap) (column : Nat) : Nat × Nat :=
  let stop := (map.stops.reverse.find? fun stop => stop.2 ≤ column).getD (0, 0)
  (stop.1, column - stop.2)

/-- The first stop behind a byte. -/
def stopAfter (map : DisplayColumnMap) (byte : Nat) : Option (Nat × Nat) :=
  map.stops.find? fun stop => byte < stop.1

/-- The last stop in front of a byte. -/
def stopBefore (map : DisplayColumnMap) (byte : Nat) : Option (Nat × Nat) :=
  map.stops.reverse.find? fun stop => stop.1 < byte

/-- The map of a row given by its clusters. -/
def ofRow (tabWidth : Nat) (width : Text → Nat) (row : List Text) : DisplayColumnMap :=
  ⟨(0, 0) :: stopsFrom tabWidth width 0 0 row⟩

theorem stopsFrom_append (byte col : Nat) (row rest : List Text) :
    stopsFrom tabWidth width byte col (row ++ rest) = stopsFrom tabWidth width byte col row ++
      stopsFrom tabWidth width (byte + utf8Len row.flatten)
        (columnAfter tabWidth width col row) rest := by
  induction row generalizing byte col with
  | nil => rfl
  | cons g row ih =>
    rw [List.cons_append, stopsFrom, stopsFrom, ih, List.flatten_cons, String.utf8Len_append,
      Nat.add_assoc]
    rfl

/-- The stop behind some clusters. -/
theorem stopsFrom_getLast (byte col : Nat) (row : List Text) :
    ((byte, col) :: stopsFrom tabWidth width byte col row).getLast? =
      some (byte + utf8Len row.flatten, columnAfter tabWidth width col row) := by
  induction row generalizing byte col with
  | nil => rfl
  | cons g row ih =>
    rw [stopsFrom, List.getLast?_cons_cons, ih, List.flatten_cons, String.utf8Len_append,
      Nat.add_assoc]
    rfl

/-- The stops of a row lie behind its start, and no further than its end. -/
theorem mem_stopsFrom (hwidth : ∀ g, 0 < width g) {row : List Text} (hrow : Clustered row)
    {byte col : Nat} : ∀ stop ∈ stopsFrom tabWidth width byte col row,
      byte < stop.1 ∧ stop.1 ≤ byte + utf8Len row.flatten ∧ col < stop.2 := by
  induction row generalizing byte col with
  | nil => exact nofun
  | cons g row ih =>
    obtain ⟨⟨hg, -⟩, hrest⟩ := List.forall_mem_cons.mp hrow
    have hlen : 0 < utf8Len g := Nat.pos_of_ne_zero fun h => hg (String.utf8Len_eq_zero.mp h)
    have hcell := @cellWidth_pos tabWidth width hwidth col g
    rw [stopsFrom, List.flatten_cons, String.utf8Len_append]
    refine List.forall_mem_cons.mpr ⟨⟨by omega, by omega, Nat.lt_add_of_pos_right hcell⟩, ?_⟩
    intro stop hstop
    obtain ⟨hlo, hhi, hcol⟩ := ih hrest stop hstop
    refine ⟨by omega, by omega, Nat.lt_trans (Nat.lt_add_of_pos_right hcell) hcol⟩

variable {before behind : List Text}

/-- The stops of a row, up to one between two of its clusters and from there on. -/
theorem ofRow_stops (before behind : List Text) :
    (ofRow tabWidth width (before ++ behind)).stops =
      ((0, 0) :: stopsFrom tabWidth width 0 0 before) ++
        stopsFrom tabWidth width (utf8Len before.flatten)
          (columnAfter tabWidth width 0 before) behind := by
  rw [ofRow, stopsFrom_append, Nat.zero_add]
  rfl

/-- Up to there they reach no further, from there on they lie behind. -/
theorem ofRow_sides (hwidth : ∀ g, 0 < width g) (hrow : Clustered (before ++ behind)) :
    (∀ stop ∈ (0, 0) :: stopsFrom tabWidth width 0 0 before, stop.1 ≤ utf8Len before.flatten) ∧
      ∀ stop ∈ stopsFrom tabWidth width (utf8Len before.flatten)
        (columnAfter tabWidth width 0 before) behind, utf8Len before.flatten < stop.1 := by
  obtain ⟨hbefore, hbehind⟩ := List.forall_mem_append.mp hrow
  refine ⟨List.forall_mem_cons.mpr ⟨Nat.zero_le _, fun stop hstop => ?_⟩, fun stop hstop => ?_⟩
  · have := (mem_stopsFrom hwidth hbefore stop hstop).2.1
    rwa [Nat.zero_add] at this
  · exact (mem_stopsFrom hwidth hbehind stop hstop).1

/-- The clusters that end at or before a column are found. -/
theorem atColumn_eq (hwidth : ∀ g, 0 < width g) (hrow : Clustered (before ++ behind)) {c : Nat}
    (hbefore : columnAfter tabWidth width 0 before ≤ c)
    (hbehind : ∀ g rest, behind = g :: rest → c < columnAfter tabWidth width 0 (before ++ [g])) :
    (ofRow tabWidth width (before ++ behind)).atColumn c =
      (utf8Len before.flatten, c - columnAfter tabWidth width 0 before) := by
  have hnone : (stopsFrom tabWidth width (utf8Len before.flatten)
      (columnAfter tabWidth width 0 before) behind).reverse.find? (fun stop => stop.2 ≤ c) =
        none := by
    rw [List.find?_eq_none]
    intro stop hstop
    rw [List.mem_reverse] at hstop
    cases behind with
    | nil => exact nomatch hstop
    | cons g rest =>
      have hlt := hbehind g rest rfl
      rw [columnAfter_append] at hlt
      have hclusters := (List.forall_mem_cons.mp (List.forall_mem_append.mp hrow).2).2
      rcases List.mem_cons.mp hstop with rfl | hstop
      · rw [decide_eq_true_iff, Nat.not_le]
        exact hlt
      · have := (mem_stopsFrom hwidth hclusters stop hstop).2.2
        have := Nat.lt_trans hlt this
        simpa using this
  have hlast := @stopsFrom_getLast tabWidth width 0 0 before
  rw [Nat.zero_add] at hlast
  obtain ⟨front, hfront⟩ := List.getLast?_eq_some_iff.mp hlast
  rw [atColumn, ofRow_stops, List.reverse_append, List.find?_append, hnone, hfront,
    List.reverse_append, List.reverse_singleton, Option.none_or, List.singleton_append,
    List.find?_cons_of_pos (by simpa using hbefore)]
  rfl

/-- The stop behind a place between two clusters is the end of the second. -/
theorem stopAfter_eq (hwidth : ∀ g, 0 < width g) {g : Text} {rest : List Text}
    (hrow : Clustered (before ++ g :: rest)) :
    (ofRow tabWidth width (before ++ g :: rest)).stopAfter (utf8Len before.flatten) =
      some (utf8Len (before ++ [g]).flatten, columnAfter tabWidth width 0 (before ++ [g])) := by
  obtain ⟨hle, hlt⟩ := @ofRow_sides tabWidth width before (g :: rest) hwidth hrow
  have hnone : ((0, 0) :: stopsFrom tabWidth width 0 0 before).find?
      (fun stop => utf8Len before.flatten < stop.1) = none := by
    rw [List.find?_eq_none]
    exact fun stop hstop => by simpa using hle stop hstop
  rw [stopsFrom] at hlt
  have hfirst := hlt _ (List.mem_cons_self ..)
  rw [stopAfter, ofRow_stops, List.find?_append, hnone, stopsFrom, Option.none_or,
    List.find?_cons_of_pos (by simpa using hfirst), List.flatten_concat, String.utf8Len_append,
    columnAfter_append]
  rfl

/-- The column of a place between two clusters. -/
theorem column_eq (hwidth : ∀ g, 0 < width g) (hrow : Clustered (before ++ behind)) :
    (ofRow tabWidth width (before ++ behind)).column (utf8Len before.flatten) =
      columnAfter tabWidth width 0 before := by
  obtain ⟨hle, hlt⟩ := @ofRow_sides tabWidth width before behind hwidth hrow
  have htake : ((ofRow tabWidth width (before ++ behind)).stops.takeWhile
      fun stop => stop.1 ≤ utf8Len before.flatten) =
        (0, 0) :: stopsFrom tabWidth width 0 0 before := by
    rw [ofRow_stops, List.takeWhile_append_of_pos fun stop hstop => by simpa using hle stop hstop]
    cases hrest : stopsFrom tabWidth width (utf8Len before.flatten)
        (columnAfter tabWidth width 0 before) behind with
    | nil => exact List.append_nil _
    | cons stop rest =>
      have := hlt stop (hrest ▸ List.mem_cons_self ..)
      rw [List.takeWhile_cons_of_neg (by simpa using this), List.append_nil]
  rw [column, htake, stopsFrom_getLast]
  rfl

/-- The stop in front of the end of a cluster is its start. -/
theorem stopBefore_eq (hwidth : ∀ g, 0 < width g) {g : Text} {rest : List Text}
    (hrow : Clustered (before ++ g :: rest)) :
    (ofRow tabWidth width (before ++ g :: rest)).stopBefore (utf8Len (before ++ [g]).flatten) =
      some (utf8Len before.flatten, columnAfter tabWidth width 0 before) := by
  obtain ⟨hg, hrest⟩ := List.forall_mem_cons.mp (List.forall_mem_append.mp hrow).2
  have hpos : 0 < utf8Len g := Nat.pos_of_ne_zero fun h => hg.1 (String.utf8Len_eq_zero.mp h)
  have hend : utf8Len (before ++ [g]).flatten = utf8Len before.flatten + utf8Len g := by
    rw [List.flatten_concat, String.utf8Len_append]
  have hnone : (stopsFrom tabWidth width (utf8Len before.flatten)
      (columnAfter tabWidth width 0 before) (g :: rest)).reverse.find?
        (fun stop => stop.1 < utf8Len (before ++ [g]).flatten) = none := by
    rw [List.find?_eq_none]
    intro stop hstop
    rw [List.mem_reverse] at hstop
    rw [hend, decide_eq_true_iff, Nat.not_lt]
    rcases List.mem_cons.mp hstop with rfl | hstop
    · exact Nat.le_refl _
    · exact Nat.le_of_lt (mem_stopsFrom hwidth hrest stop hstop).1
  have hlast := @stopsFrom_getLast tabWidth width 0 0 before
  rw [Nat.zero_add] at hlast
  obtain ⟨front, hfront⟩ := List.getLast?_eq_some_iff.mp hlast
  rw [stopBefore, ofRow_stops, List.reverse_append, List.find?_append, hnone, hfront,
    List.reverse_append, List.reverse_singleton, Option.none_or, List.singleton_append,
    List.find?_cons_of_pos (by rw [decide_eq_true_iff, hend]; omega)]

end DisplayColumnMap

/-! ## §3 Where a column cuts a row -/

/-- A column cuts a row behind the clusters that end at or before it. -/
structure CutAt (tabWidth : Nat) (width : Text → Nat) (before behind : List Text) (c : Nat) :
    Prop where
  le : columnAfter tabWidth width 0 before ≤ c
  lt : ∀ g rest, behind = g :: rest → c < columnAfter tabWidth width 0 (before ++ [g])

theorem exists_cutAt (tabWidth : Nat) (width : Text → Nat) (row : List Text) (c : Nat) :
    ∃ before behind, row = before ++ behind ∧ CutAt tabWidth width before behind c := by
  induction row using List.reverseRecOn with
  | nil => exact ⟨[], [], rfl, Nat.zero_le _, nofun⟩
  | append_singleton row g ih =>
    obtain ⟨before, behind, rfl, hle, hlt⟩ := ih
    cases behind with
    | nil =>
      rw [List.append_nil]
      by_cases hfits : columnAfter tabWidth width 0 (before ++ [g]) ≤ c
      · exact ⟨before ++ [g], [], (List.append_nil _).symm, hfits, nofun⟩
      · refine ⟨before, [g], rfl, hle, fun g' rest h => ?_⟩
        obtain ⟨rfl, -⟩ := List.cons.inj h
        exact Nat.lt_of_not_le hfits
    | cons g' rest =>
      refine ⟨before, g' :: rest ++ [g], List.append_assoc _ _ _, hle, fun g'' rest' h => ?_⟩
      obtain ⟨rfl, -⟩ := List.cons.inj h
      exact hlt _ _ rfl

namespace CutAt

variable {before behind before' behind' : List Text} {c c' : Nat}

/-- A column further right cuts a row no further left. -/
theorem mono (h : CutAt tabWidth width before behind c)
    (h' : CutAt tabWidth width before' behind' c') (hsame : before ++ behind = before' ++ behind')
    (hle : c ≤ c') : ∃ between, before' = before ++ between ∧ behind = between ++ behind' := by
  rcases List.append_eq_append_iff.mp hsame with ⟨between, rfl, rfl⟩ | ⟨between, rfl, rfl⟩
  · exact ⟨between, rfl, rfl⟩
  · cases between with
    | nil => exact ⟨[], by simp, by simp⟩
    | cons g rest =>
      -- the first cluster between ends behind the column that is further right
      have hlt := h'.lt g (rest ++ behind) rfl
      have hge := h.le
      rw [List.append_cons, columnAfter_append] at hge
      have := @le_columnAfter tabWidth width (columnAfter tabWidth width 0 (before' ++ [g])) rest
      omega

/-- A column cuts a row in one place. -/
theorem unique (h : CutAt tabWidth width before behind c)
    (h' : CutAt tabWidth width before' behind' c) (hsame : before ++ behind = before' ++ behind') :
    before' = before ∧ behind' = behind := by
  obtain ⟨a, ha, hbehind⟩ := h.mono h' hsame (Nat.le_refl c)
  obtain ⟨b, hb, -⟩ := h'.mono h hsame.symm (Nat.le_refl c)
  have hnil : a = [] := by
    rw [hb, List.append_assoc] at ha
    exact (List.append_eq_nil_iff.mp (List.self_eq_append_right.mp ha)).2
  subst hnil
  exact ⟨by rw [ha, List.append_nil], hbehind.symm⟩

/-- Every cluster behind a cut ends behind the column. -/
theorem lt_end (h : CutAt tabWidth width before behind c) {a b : List Text} {g : Text}
    (hsplit : behind = a ++ g :: b) : c < columnAfter tabWidth width 0 (before ++ (a ++ [g])) := by
  cases a with
  | nil => exact h.lt g b hsplit
  | cons g' a =>
    have hlt := h.lt g' (a ++ g :: b) hsplit
    rw [List.cons_append, List.append_cons, columnAfter_append]
    exact Nat.lt_of_lt_of_le hlt (le_columnAfter _ _)

/-- A cluster that a column cuts stands where the column cuts its row. -/
theorem of_between {a b : List Text} {g : Text} (hlt : columnAfter tabWidth width 0 a < c)
    (hgt : c < columnAfter tabWidth width 0 (a ++ [g])) : CutAt tabWidth width a (g :: b) c := by
  refine ⟨Nat.le_of_lt hlt, fun g' rest h => ?_⟩
  obtain ⟨rfl, -⟩ := List.cons.inj h
  exact hgt

end CutAt

/-! ## §4 Rows cut at two columns -/

/-- A column lies inside a cluster that stands behind others. -/
def Inside (tabWidth : Nat) (width : Text → Nat) (before : List Text) (g : Text) (c : Nat) : Prop :=
  columnAfter tabWidth width 0 before < c ∧ c < columnAfter tabWidth width 0 (before ++ [g])

/-- A row cut at the two edges of a rectangle: what stays in front of it, what is removed and what
stays behind, with spaces in front of and behind what is put in its place. -/
structure ColumnsCut (tabWidth : Nat) (width : Text → Nat) (left right : Nat)
    (before removed behind : List Text) (pad suffix : Nat) : Prop where
  leftOf : columnAfter tabWidth width 0 before ≤ left
  /-- No other cluster lies wholly left of the left edge. -/
  notLeft : ∀ a g b, removed ++ behind = a ++ g :: b →
    left < columnAfter tabWidth width 0 (before ++ (a ++ [g]))
  /-- No cluster that is removed lies wholly right of the right edge. -/
  notRight : ∀ a g b, removed = a ++ g :: b → columnAfter tabWidth width 0 (before ++ a) < right
  /-- What is put in starts at the left edge, except inside a wide cluster. -/
  starts : columnAfter tabWidth width 0 before + pad = left ∨
    pad = 0 ∧ ∃ g b, removed ++ behind = g :: b ∧ g ≠ ['\t'] ∧ Inside tabWidth width before g left
  leftTab : ∀ a b, before ++ (removed ++ behind) = a ++ ['\t'] :: b →
    Inside tabWidth width a ['\t'] left → a = before ∧ removed.head? = some ['\t'] ∧
      columnAfter tabWidth width 0 a + pad = left
  rightTab : ∀ a b, before ++ (removed ++ behind) = a ++ ['\t'] :: b →
    Inside tabWidth width a ['\t'] right → before ++ removed = a ++ [['\t']] ∧
      right + suffix = columnAfter tabWidth width 0 (a ++ [['\t']])
  noSuffix : (∀ a b, before ++ (removed ++ behind) = a ++ ['\t'] :: b →
    ¬Inside tabWidth width a ['\t'] right) → suffix = 0

end BareLine.Power
