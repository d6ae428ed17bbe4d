import BareLine.Power.Types

/-!
# Display columns

Where the clusters of a row are shown: a tab reaches to the next multiple of the tab width, any
other cluster has a width of its own.
-/

namespace BareLine.Power

open Lib
open Search (Text)
open String (utf8Len)

/-! ## §1 Widths -/

/-- The code points of `fallback_width` that are two columns wide. -/
def wideRanges : List (Nat × Nat) :=
  [(0x1100, 0x115f), (0x2e80, 0xa4cf), (0xac00, 0xd7a3), (0xf900, 0xfaff), (0xfe10, 0xfe6f),
    (0xff01, 0xff60), (0x1f000, 0x1faff), (0x20000, 0x3ffff)]

/-- `fallback_width` -/
def fallbackWidth (g : Text) : Nat :=
  if g.any fun c => wideRanges.any fun r => r.1 ≤ c.toNat && c.toNat ≤ r.2 then 2 else 1

/-- `cluster_width` -/
def clusterWidth (g : Text) (column tabWidth : Nat) : Nat :=
  if g = ['\t'] then max tabWidth 1 - column % max tabWidth 1 else fallbackWidth g

theorem fallbackWidth_pos (g : Text) : 0 < fallbackWidth g := by
  rw [fallbackWidth]
  split_ifs <;> decide

@[simp] theorem clusterWidth_space (column tabWidth : Nat) :
    clusterWidth [' '] column tabWidth = 1 := by
  rw [clusterWidth, if_neg (by decide)]
  decide

/-! ## §2 The map of a row -/

/-- `DisplayColumnMap` -/
structure DisplayColumnMap where
  stops : List (Nat × Nat)
  deriving DecidableEq, Repr

namespace DisplayColumnMap

/-- The loop of `DisplayColumnMap::with_metrics` over the clusters. -/
def stopsFrom (tabWidth : Nat) (width : Text → Nat) : Nat → Nat → List Text → List (Nat × Nat)
  | _, _, [] => []
  | byte, col, g :: clusters =>
    let col := col + if g = ['\t'] then max tabWidth 1 - col % max tabWidth 1 else width g
    (byte + utf8Len g, col) :: stopsFrom tabWidth width (byte + utf8Len g) col clusters

/-- `DisplayColumnMap::with_metrics` -/
def withMetrics (u : Unicode) (text : Text) (tabWidth : Nat) (width : Text → Nat) :
    DisplayColumnMap := ⟨(0, 0) :: stopsFrom tabWidth width 0 0 (u.graphemes text)⟩

/-- `DisplayColumnMap::new` -/
def new (u : Unicode) (text : Text) (tabWidth : Nat) : DisplayColumnMap :=
  withMetrics u text tabWidth fallbackWidth

/-- `DisplayColumnMap::column` -/
def column (map : DisplayColumnMap) (byte : Nat) : Nat :=
  ((map.stops.takeWhile fun stop => stop.1 ≤ byte).getLast?.map Prod.snd).getD 0

end DisplayColumnMap

/-- The columns of `Unicode` are those of the display's map, with fallback widths. -/
def Unicode.Measured (u : Unicode) : Prop :=
  ∀ text tabWidth, u.displayColumn text tabWidth =
    (DisplayColumnMap.new u text tabWidth).column (utf8Len text)

/-- A cluster on its own is as wide as the fallback says. -/
theorem Unicode.Measured.cluster {u : Unicode} (h : u.Measured) {g : Text}
    (hg : u.graphemes g = [g]) (htab : g ≠ ['\t']) (tabWidth : Nat) :
    u.displayColumn g tabWidth = fallbackWidth g := by
  rw [h, DisplayColumnMap.new, DisplayColumnMap.withMetrics, hg, DisplayColumnMap.stopsFrom,
    DisplayColumnMap.stopsFrom, if_neg htab, DisplayColumnMap.column]
  simp

/-! ## §3 Columns of clusters -/

/-- The clusters of a row, each with the column it starts at. -/
def columnsFrom (tabWidth : Nat) : Nat → List Text → List (Text × Nat)
  | _, [] => []
  | col, g :: row => (g, col) :: columnsFrom tabWidth (col + clusterWidth g col tabWidth) row

/-- The column behind a row. -/
def endColumn (tabWidth : Nat) : Nat → List Text → Nat
  | col, [] => col
  | col, g :: row => endColumn tabWidth (col + clusterWidth g col tabWidth) row

variable {tabWidth : Nat}

theorem columnsFrom_append (col : Nat) (row rest : List Text) :
    columnsFrom tabWidth col (row ++ rest) =
      columnsFrom tabWidth col row ++ columnsFrom tabWidth (endColumn tabWidth col row) rest := by
  induction row generalizing col with
  | nil => rfl
  | cons g row ih => exact congrArg ((g, col) :: ·) (ih _)

/-- Some spaces, one column each. -/
theorem columnsFrom_spaces (col n : Nat) : columnsFrom tabWidth col (List.replicate n [' ']) =
    (List.range n).map fun i => ([' '], col + i) := by
  induction n generalizing col with
  | zero => rfl
  | succ n ih =>
    rw [List.replicate_succ, columnsFrom, clusterWidth_space, ih, List.range_succ_eq_map,
      List.map_cons, List.map_map]
    refine congrArg _ (List.map_congr_left fun i _ => ?_)
    simp only [Function.comp_apply, Nat.succ_eq_add_one]
    rw [Nat.add_assoc, Nat.add_comm 1 i]

@[simp] theorem endColumn_spaces (col n : Nat) :
    endColumn tabWidth col (List.replicate n [' ']) = col + n := by
  induction n generalizing col with
  | zero => rfl
  | succ n ih =>
    rw [List.replicate_succ, endColumn, clusterWidth_space, ih]
    omega

end BareLine.Power
