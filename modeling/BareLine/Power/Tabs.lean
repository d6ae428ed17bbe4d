import BareLine.Power.Columns
import BareLine.Power.Rows

/-!
# Tabs and spaces

What the two tab commands write for a row, as a row: tabs become spaces up to the next stop, and
runs of spaces become as many tabs as they reach stops.
-/

namespace BareLine.Power

open Lib
open Search (Text)
open String (utf8Len)

/-! ## §1 Rows written -/

/-- The clusters written for a row that starts at a column, tabs as spaces. -/
def expand (tabWidth : Nat) : Nat → List Text → List Text
  | _, [] => []
  | col, g :: row =>
    (if g = ['\t'] then List.replicate (clusterWidth g col tabWidth) [' '] else [g]) ++
      expand tabWidth (col + clusterWidth g col tabWidth) row

/-- The blanks written for some spaces at a column. -/
def blanks (width : Nat) : Nat → Nat → List Text
  | _, 0 => []
  | col, spaces + 1 =>
    if width - col % width ≤ spaces + 1 ∧ 1 < width - col % width then
      ['\t'] :: blanks width (col + (width - col % width)) (spaces + 1 - (width - col % width))
    else [' '] :: blanks width (col + 1) spaces
  termination_by _ spaces => spaces

/-- The clusters written for a row behind `spaces` spaces that start at a column. -/
def compress (tabWidth : Nat) : Nat → Nat → List Text → List Text
  | col, spaces, [] => blanks (max tabWidth 1) col spaces
  | col, spaces, g :: row =>
    if g = [' '] then compress tabWidth col (spaces + 1) row
    else blanks (max tabWidth 1) col spaces ++
      g :: compress tabWidth (col + spaces + clusterWidth g (col + spaces) tabWidth) 0 row

variable {tabWidth : Nat}

/-! ## §2 Tabs to spaces -/

theorem expand_append (col : Nat) (row rest : List Text) : expand tabWidth col (row ++ rest) =
    expand tabWidth col row ++ expand tabWidth (endColumn tabWidth col row) rest := by
  induction row generalizing col with
  | nil => rfl
  | cons g row ih => rw [List.cons_append, expand, expand, endColumn, ih, List.append_assoc]

/-- No tab is left. -/
theorem tab_not_mem_expand (col : Nat) (row : List Text) : ['\t'] ∉ expand tabWidth col row := by
  induction row generalizing col with
  | nil => exact List.not_mem_nil
  | cons g row ih =>
    rw [expand, List.mem_append]
    rintro (hmem | hmem)
    · split_ifs at hmem with hg
      · exact absurd (List.eq_of_mem_replicate hmem) (by decide)
      · exact hg (List.mem_singleton.mp hmem).symm
    · exact ih _ hmem

/-- A row without tabs is kept. -/
theorem expand_of_no_tab (col : Nat) {row : List Text} (h : ['\t'] ∉ row) :
    expand tabWidth col row = row := by
  induction row generalizing col with
  | nil => rfl
  | cons g row ih =>
    obtain ⟨hg, hrow⟩ := not_or.mp (List.mem_cons.not.mp h)
    rw [expand, if_neg (Ne.symm hg), ih _ hrow]
    rfl

/-- What a cluster at a column becomes. -/
def expandAt (tabWidth : Nat) (g : Text × Nat) : List (Text × Nat) :=
  if g.1 = ['\t'] then
    (List.range (clusterWidth g.1 g.2 tabWidth)).map fun i => ([' '], g.2 + i)
  else [g]

/-- Every cluster but the tabs is where it was. -/
theorem columns_expand (col : Nat) (row : List Text) :
    columnsFrom tabWidth col (expand tabWidth col row) =
      (columnsFrom tabWidth col row).flatMap (expandAt tabWidth) := by
  induction row generalizing col with
  | nil => rfl
  | cons g row ih =>
    rw [expand, columnsFrom_append, columnsFrom, List.flatMap_cons, ← ih, expandAt]
    split_ifs
    · rw [columnsFrom_spaces, endColumn_spaces]
    · rfl

/-! ## §3 A run of spaces -/

theorem blanks_tab {width col spaces : Nat} (h : width - col % width ≤ spaces)
    (h' : 1 < width - col % width) : blanks width col spaces =
      ['\t'] :: blanks width (col + (width - col % width)) (spaces - (width - col % width)) := by
  cases spaces with
  | zero => omega
  | succ n => rw [blanks, if_pos ⟨h, h'⟩]

theorem blanks_space {width col n : Nat}
    (h : ¬(width - col % width ≤ n + 1 ∧ 1 < width - col % width)) :
    blanks width col (n + 1) = [' '] :: blanks width (col + 1) n := by
  rw [blanks, if_neg h]

/-- The code's case split over some spaces, as an induction rule. -/
theorem blanks_induction (width : Nat) {motive : Nat → Nat → Prop}
    (none : ∀ col, motive col 0)
    (tab : ∀ col spaces, width - col % width ≤ spaces → 1 < width - col % width →
      motive (col + (width - col % width)) (spaces - (width - col % width)) → motive col spaces)
    (space : ∀ col n, ¬(width - col % width ≤ n + 1 ∧ 1 < width - col % width) →
      motive (col + 1) n → motive col (n + 1)) (col spaces : Nat) : motive col spaces := by
  induction spaces using Nat.strong_induction_on generalizing col with
  | _ spaces ih =>
    cases spaces with
    | zero => exact none col
    | succ n =>
      by_cases h : width - col % width ≤ n + 1 ∧ 1 < width - col % width
      · exact tab col (n + 1) h.1 h.2 (ih _ (by omega) _)
      · exact space col n h (ih n (by omega) _)

/-- Blanks are spaces and tabs. -/
theorem mem_blanks {width col spaces : Nat} :
    ∀ g ∈ blanks width col spaces, g = [' '] ∨ g = ['\t'] := by
  induction col, spaces using blanks_induction width with
  | none col =>
    rw [blanks]
    exact nofun
  | tab col spaces hle hlt ih =>
    rw [blanks_tab hle hlt]
    exact List.forall_mem_cons.mpr ⟨.inr rfl, ih⟩
  | space col n hnot ih =>
    rw [blanks_space hnot]
    exact List.forall_mem_cons.mpr ⟨.inl rfl, ih⟩

/-- No more blanks than spaces. -/
theorem length_blanks_le {width col spaces : Nat} :
    (blanks width col spaces).length ≤ spaces := by
  induction col, spaces using blanks_induction width with
  | none col => rw [blanks, List.length_nil]
  | tab col spaces hle hlt ih =>
    rw [blanks_tab hle hlt, List.length_cons]
    omega
  | space col n hnot ih =>
    rw [blanks_space hnot, List.length_cons]
    omega

/-- A tab at a column reaches to the next stop. -/
theorem clusterWidth_tab (col : Nat) : clusterWidth ['	'] col tabWidth =
    max tabWidth 1 - col % max tabWidth 1 := if_pos rfl

/-- The blanks are as wide as the spaces. -/
theorem endColumn_blanks {col spaces : Nat} :
    endColumn tabWidth col (blanks (max tabWidth 1) col spaces) = col + spaces := by
  induction col, spaces using blanks_induction (max tabWidth 1) with
  | none col => rw [blanks, endColumn, Nat.add_zero]
  | tab col spaces hle hlt ih =>
    rw [blanks_tab hle hlt, endColumn, clusterWidth_tab, ih]
    omega
  | space col n hnot ih =>
    rw [blanks_space hnot, endColumn, clusterWidth_space, ih]
    omega

/-- As spaces again the blanks are the spaces. -/
theorem expand_blanks {col spaces : Nat} :
    expand tabWidth col (blanks (max tabWidth 1) col spaces) = List.replicate spaces [' '] := by
  induction col, spaces using blanks_induction (max tabWidth 1) with
  | none col =>
    rw [blanks]
    rfl
  | tab col spaces hle hlt ih =>
    rw [blanks_tab hle hlt, expand, if_pos rfl, clusterWidth_tab, ih, List.replicate_append_replicate]
    congr 1
    omega
  | space col n hnot ih =>
    rw [blanks_space hnot, expand, if_neg (by decide), clusterWidth_space, ih]
    rfl

/-- Where the blanks start with spaces, fewer spaces are written as spaces. -/
theorem blanks_front {width : Nat} {p k : Nat} {rest : List Text} {col : Nat}
    (h : blanks width col (p + k) = List.replicate p [' '] ++ rest) :
    blanks width col p = List.replicate p [' '] := by
  induction p generalizing col with
  | zero => rw [blanks, List.replicate_zero]
  | succ p ih =>
    have hnot : ¬(width - col % width ≤ p + k + 1 ∧ 1 < width - col % width) := by
      intro htab
      rw [show p + 1 + k = p + k + 1 by omega, blanks_tab htab.1 htab.2] at h
      exact absurd (List.cons.inj h).1 (by decide)
    rw [show p + 1 + k = p + k + 1 by omega, blanks_space hnot] at h
    rw [blanks_space fun htab => hnot ⟨by omega, htab.2⟩, ih (List.cons.inj h).2]
    rfl

/-! ## §4 Spaces to tabs -/

/-- The row does not start with a space. -/
def NoSpaceFirst (row : List Text) : Prop := ∀ g ∈ row.head?, g ≠ [' ']

theorem compress_flush (col spaces : Nat) {row : List Text} (h : NoSpaceFirst row) :
    compress tabWidth col spaces row =
      blanks (max tabWidth 1) col spaces ++ compress tabWidth (col + spaces) 0 row := by
  cases row with
  | nil => rw [compress, compress, blanks, List.append_nil]
  | cons g row =>
    have hg : g ≠ [' '] := h g rfl
    rw [compress, compress, if_neg hg, if_neg hg, blanks, Nat.add_zero]
    rfl

/-- Blanks are read as the spaces they were written for, where `p` of them were read already. -/
theorem compress_blanks {p k col : Nat} {row : List Text} (h : NoSpaceFirst row)
    (hread : blanks (max tabWidth 1) col (p + k) =
      List.replicate p [' '] ++ blanks (max tabWidth 1) (col + p) k) :
    compress tabWidth col p (blanks (max tabWidth 1) (col + p) k ++ row) =
      blanks (max tabWidth 1) col (p + k) ++ compress tabWidth (col + p + k) 0 row := by
  induction k using Nat.strong_induction_on generalizing col p with
  | _ k ih =>
    cases k with
    | zero =>
      rw [blanks, List.nil_append]
      exact compress_flush col p h
    | succ k =>
      by_cases htab : max tabWidth 1 - (col + p) % max tabWidth 1 ≤ k + 1 ∧
          1 < max tabWidth 1 - (col + p) % max tabWidth 1
      · have hnext := @ih (k + 1 - (max tabWidth 1 - (col + p) % max tabWidth 1)) (by omega) 0
          (col + p + (max tabWidth 1 - (col + p) % max tabWidth 1)) (by simp)
        rw [Nat.zero_add, Nat.add_zero] at hnext
        rw [hread, blanks_tab htab.1 htab.2, List.cons_append, compress, if_neg (by decide),
          clusterWidth_tab, hnext, blanks_front hread]
        simp only [List.append_assoc, List.cons_append]
        congr 4
        omega
      · have hread' : blanks (max tabWidth 1) col (p + 1 + k) =
            List.replicate (p + 1) [' '] ++ blanks (max tabWidth 1) (col + (p + 1)) k := by
          rw [show p + 1 + k = p + (k + 1) by omega, hread, blanks_space htab,
            List.replicate_succ', List.append_assoc]
          rfl
        have hnext := ih k (Nat.lt_succ_self k) hread'
        rw [blanks_space htab, List.cons_append, compress, if_pos rfl, Nat.add_assoc col p 1, hnext]
        rw [show p + 1 + k = p + (k + 1) by omega, show col + (p + 1) + k = col + p + (k + 1) by omega]

/-- Blanks that were written are written again. -/
theorem compress_blanks_append (col spaces : Nat) {row : List Text} (h : NoSpaceFirst row) :
    compress tabWidth col 0 (blanks (max tabWidth 1) col spaces ++ row) =
      blanks (max tabWidth 1) col spaces ++ compress tabWidth (col + spaces) 0 row := by
  have hread := @compress_blanks tabWidth 0 spaces col row h (by simp)
  simpa using hread

/-- Once written, a row stays as it is. -/
theorem compress_compress (col spaces : Nat) (row : List Text) :
    compress tabWidth col 0 (compress tabWidth col spaces row) = compress tabWidth col spaces row := by
  induction row generalizing col spaces with
  | nil =>
    have hread := @compress_blanks_append tabWidth col spaces [] nofun
    rw [List.append_nil, compress, blanks, List.append_nil] at hread
    exact hread
  | cons g row ih =>
    rw [compress]
    split_ifs with hg
    · exact ih col (spaces + 1)
    · rw [compress_blanks_append col spaces (by simpa [NoSpaceFirst] using hg), compress, if_neg hg,
        blanks, List.nil_append, Nat.add_zero, ih]

/-- As spaces, the row written is the row itself as spaces. -/
theorem expand_compress (col spaces : Nat) (row : List Text) :
    expand tabWidth col (compress tabWidth col spaces row) =
      List.replicate spaces [' '] ++ expand tabWidth (col + spaces) row := by
  induction row generalizing col spaces with
  | nil =>
    rw [compress, expand_blanks, expand, List.append_nil]
  | cons g row ih =>
    rw [compress]
    split_ifs with hg
    · subst hg
      rw [ih, expand, if_neg (by decide), clusterWidth_space, List.replicate_succ', Nat.add_assoc,
        List.append_assoc]
    · rw [expand_append, expand_blanks, endColumn_blanks, expand, expand, ih]
      rfl

/-- No row gets longer. -/
theorem length_compress_le (col spaces : Nat) (row : List Text) :
    (compress tabWidth col spaces row).length ≤ spaces + row.length := by
  induction row generalizing col spaces with
  | nil =>
    rw [compress]
    exact length_blanks_le
  | cons g row ih =>
    rw [compress]
    split_ifs with hg
    · have := ih col (spaces + 1)
      rw [List.length_cons]
      omega
    · have hblanks : (blanks (max tabWidth 1) col spaces).length ≤ spaces := length_blanks_le
      have := ih (col + spaces + clusterWidth g (col + spaces) tabWidth) 0
      rw [List.length_append, List.length_cons, List.length_cons]
      omega

/-- The cluster at a column is no blank. -/
def notBlank (g : Text × Nat) : Bool := g.1 ≠ [' '] && g.1 ≠ ['\t']

/-- The cluster at a column is no space. -/
def notSpace (g : Text × Nat) : Bool := g.1 ≠ [' ']

theorem columns_blanks (col spaces : Nat) :
    (columnsFrom tabWidth col (blanks (max tabWidth 1) col spaces)).filter notBlank = [] := by
  have hmem : ∀ (c : Nat) (row : List Text), (∀ g ∈ row, g = [' '] ∨ g = ['\t']) →
      (columnsFrom tabWidth c row).filter notBlank = [] := by
    intro c row
    induction row generalizing c with
    | nil => exact fun _ => rfl
    | cons g row ih =>
      intro h
      obtain ⟨hg, hrow⟩ := List.forall_mem_cons.mp h
      rw [columnsFrom, List.filter_cons, if_neg (by simp [notBlank]; tauto), ih _ hrow]
  exact hmem col _ mem_blanks

/-- Every cluster that is no blank is where it was. -/
theorem columns_compress (col spaces : Nat) (row : List Text) :
    (columnsFrom tabWidth col (compress tabWidth col spaces row)).filter notBlank =
      (columnsFrom tabWidth (col + spaces) row).filter notBlank := by
  induction row generalizing col spaces with
  | nil => rw [compress, columns_blanks]; rfl
  | cons g row ih =>
    rw [compress]
    split_ifs with hg
    · subst hg
      rw [ih, columnsFrom, clusterWidth_space, List.filter_cons, if_neg (by simp [notBlank]),
        Nat.add_assoc]
    · rw [columnsFrom_append, List.filter_append, columns_blanks, endColumn_blanks, List.nil_append,
        columnsFrom, columnsFrom, List.filter_cons, List.filter_cons, ih, Nat.add_zero]

/-- The tabs of the row stay where they were as well. -/
theorem columns_compress_tabs (col spaces : Nat) (row : List Text) :
    ((columnsFrom tabWidth (col + spaces) row).filter notSpace).Sublist
      (columnsFrom tabWidth col (compress tabWidth col spaces row)) := by
  induction row generalizing col spaces with
  | nil => exact List.nil_sublist _
  | cons g row ih =>
    rw [compress]
    split_ifs with hg
    · subst hg
      rw [columnsFrom, clusterWidth_space, List.filter_cons, if_neg (by simp [notSpace]),
        Nat.add_assoc]
      exact ih col (spaces + 1)
    · rw [columnsFrom_append, endColumn_blanks, columnsFrom, columnsFrom, List.filter_cons,
        if_pos (by simpa [notSpace] using hg)]
      exact ((ih _ 0).cons_cons _).trans (List.sublist_append_right _ _)

/-! ## §5 The code writes these rows -/

section Code

variable {u : Unicode} {limits : Limits}

theorem flatten_spaces (n : Nat) : (List.replicate n [' ']).flatten = List.replicate n ' ' := by
  induction n with
  | zero => rfl
  | succ n ih => rw [List.replicate_succ, List.flatten_cons, ih, List.replicate_succ]; rfl

theorem utf8Len_spaces (n : Nat) : utf8Len (List.replicate n ' ') = n := by
  induction n with
  | zero => rfl
  | succ n ih => rw [List.replicate_succ, String.utf8Len_cons, ih]; rfl

/-- Each cluster of the row is one on its own. -/
def Unicode.Row (u : Unicode) (row : List Text) : Prop := ∀ g ∈ row, u.graphemes g = [g]

/-- `TabsToSpaces` writes the expanded row, as long as it fits. -/
theorem tabsToSpacesFrom_eq (hu : u.Measured) {row : List Text} (hrow : u.Row row) (out : Text)
    (col : Nat) :
    (∀ text, tabsToSpacesFrom u limits out col row = .ok text →
      text = out ++ (expand limits.tabWidth col row).flatten) ∧
    (utf8Len (out ++ (expand limits.tabWidth col row).flatten) ≤ limits.maxBytes →
      tabsToSpacesFrom u limits out col row =
        .ok (out ++ (expand limits.tabWidth col row).flatten)) := by
  induction row generalizing out col with
  | nil =>
    rw [tabsToSpacesFrom, expand, List.flatten_nil, List.append_nil]
    exact ⟨fun text h => (Except.ok.inj h).symm, fun _ => rfl⟩
  | cons g row ih =>
    obtain ⟨hg, hrest⟩ := List.forall_mem_cons.mp hrow
    rw [tabsToSpacesFrom, expand, List.flatten_append]
    by_cases htab : g = ['\t']
    · subst htab
      rw [if_pos rfl, if_pos rfl, clusterWidth_tab, flatten_spaces, ← List.append_assoc]
      dsimp only
      by_cases hbytes : limits.maxBytes <
          utf8Len out + (max limits.tabWidth 1 - col % max limits.tabWidth 1)
      · rw [if_pos hbytes]
        refine ⟨fun text h => (nomatch h), fun hfits => ?_⟩
        rw [String.utf8Len_append, String.utf8Len_append, utf8Len_spaces] at hfits
        omega
      · rw [if_neg hbytes]
        exact ih hrest _ _
    · rw [if_neg htab, if_neg htab, List.flatten_singleton, ← List.append_assoc,
        hu.cluster hg htab, ← show clusterWidth g col limits.tabWidth = fallbackWidth g from if_neg htab]
      exact ih hrest _ _

/-- The loop that writes the spaces counted so far. -/
theorem flushSpaces_eq {width fuel : Nat} (out : Text) (col : Nat) {spaces : Nat}
    (h : spaces ≤ fuel) : flushSpaces width fuel out col spaces =
      (out ++ (blanks width col spaces).flatten, col + spaces) := by
  induction fuel generalizing out col spaces with
  | zero =>
    obtain rfl := Nat.le_zero.mp h
    rw [flushSpaces, blanks, List.flatten_nil, List.append_nil, Nat.add_zero]
  | succ fuel ih =>
    rw [flushSpaces]
    cases spaces with
    | zero => rw [if_pos rfl, blanks, List.flatten_nil, List.append_nil, Nat.add_zero]
    | succ n =>
      rw [if_neg (Nat.succ_ne_zero n)]
      dsimp only
      by_cases htab : width - col % width ≤ n + 1 ∧ 1 < width - col % width
      · rw [if_pos htab, ih _ _ (by omega), blanks_tab htab.1 htab.2, List.flatten_cons,
          List.append_assoc]
        congr 1
        omega
      · rw [if_neg htab, ih _ _ (by omega), blanks_space htab, List.flatten_cons, List.append_assoc]
        congr 1
        omega

/-- `SpacesToTabs` writes the compressed row. -/
theorem spacesToTabsFrom_eq (hu : u.Measured) {row : List Text} (hrow : u.Row row) (out : Text)
    (col spaces : Nat) :
    spacesToTabsFrom u (max tabWidth 1) out col spaces (row ++ [[]]) =
      out ++ (compress tabWidth col spaces row).flatten := by
  induction row generalizing out col spaces with
  | nil =>
    rw [List.nil_append, spacesToTabsFrom, if_neg (by decide), flushSpaces_eq out col (Nat.le_refl _),
      compress]
    dsimp only
    rw [spacesToTabsFrom, List.append_nil]
  | cons g row ih =>
    obtain ⟨hg, hrow⟩ := List.forall_mem_cons.mp hrow
    rw [List.cons_append, spacesToTabsFrom, compress]
    by_cases hspace : g = [' ']
    · rw [if_pos hspace, if_pos hspace]
      exact ih hrow _ _ _
    · rw [if_neg hspace, if_neg hspace, flushSpaces_eq out col (Nat.le_refl _)]
      dsimp only
      have hwidth : (if g = ['\t'] then max tabWidth 1 - (col + spaces) % max tabWidth 1
          else u.displayColumn g (max tabWidth 1)) = clusterWidth g (col + spaces) tabWidth := by
        rw [clusterWidth]
        split_ifs with htab
        · rfl
        · exact hu.cluster hg htab _
      rw [hwidth, ih hrow, List.flatten_append, List.flatten_cons]
      simp only [List.append_assoc]

/-- A row without tabs is written as it is, whatever its length. -/
theorem tabsToSpacesFrom_of_no_tab (out : Text) (col : Nat) {row : List Text} (h : ['\t'] ∉ row) :
    tabsToSpacesFrom u limits out col row = .ok (out ++ row.flatten) := by
  induction row generalizing out col with
  | nil => rw [tabsToSpacesFrom, List.flatten_nil, List.append_nil]
  | cons g row ih =>
    obtain ⟨hg, hrow⟩ := not_or.mp (List.mem_cons.not.mp h)
    rw [tabsToSpacesFrom, if_neg (Ne.symm hg), ih _ _ hrow, List.flatten_cons, List.append_assoc]

/-- Where blanks are written as spaces, they are the spaces they stand for. -/
theorem tabsToSpacesFrom_blanks (hu : u.Measured) {rest : List Text} {out text : Text}
    {col spaces : Nat} (hrow : u.Row (blanks (max limits.tabWidth 1) col spaces ++ rest))
    (h : tabsToSpacesFrom u limits out col (blanks (max limits.tabWidth 1) col spaces ++ rest) =
      .ok text) :
    tabsToSpacesFrom u limits (out ++ List.replicate spaces ' ') (col + spaces) rest = .ok text := by
  induction col, spaces using blanks_induction (max limits.tabWidth 1) generalizing out with
  | none col =>
    rw [blanks, List.nil_append] at h
    rwa [List.replicate_zero, List.append_nil, Nat.add_zero]
  | tab col spaces hle hlt ih =>
    rw [blanks_tab hle hlt, List.cons_append] at h hrow
    rw [tabsToSpacesFrom, if_pos rfl] at h
    dsimp only at h
    split_ifs at h
    have hnext := ih (List.forall_mem_cons.mp hrow).2 h
    rw [List.append_assoc, List.replicate_append_replicate, Nat.add_sub_cancel' hle,
      Nat.add_assoc, Nat.add_sub_cancel' hle] at hnext
    exact hnext
  | space col n hnot ih =>
    rw [blanks_space hnot, List.cons_append] at h hrow
    obtain ⟨hspace, hrest⟩ := List.forall_mem_cons.mp hrow
    rw [tabsToSpacesFrom, if_neg (by decide), hu.cluster hspace (by decide)] at h
    have hnext := ih hrest h
    rw [List.append_assoc, Nat.add_assoc, Nat.add_comm 1 n] at hnext
    exact hnext

/-- If `TabsToSpaces` writes the row that `SpacesToTabs` wrote, it writes the same for the row
itself: each tab of the row is still there, behind as many bytes. -/
theorem tabsToSpacesFrom_compress (hu : u.Measured) {row : List Text} (hrow : u.Row row)
    {out text : Text} {col spaces : Nat}
    (hwritten : u.Row (compress limits.tabWidth col spaces row))
    (h : tabsToSpacesFrom u limits out col (compress limits.tabWidth col spaces row) = .ok text) :
    tabsToSpacesFrom u limits (out ++ List.replicate spaces ' ') (col + spaces) row = .ok text := by
  induction row generalizing out col spaces with
  | nil =>
    rw [compress, ← List.append_nil (blanks _ _ _)] at h hwritten
    exact tabsToSpacesFrom_blanks hu hwritten h
  | cons g row ih =>
    obtain ⟨hg, hclusters⟩ := List.forall_mem_cons.mp hrow
    rw [compress] at h hwritten
    by_cases hspace : g = [' ']
    · subst hspace
      rw [if_pos rfl] at h hwritten
      have hnext := ih hclusters hwritten h
      rw [tabsToSpacesFrom, if_neg (by decide), hu.cluster hg (by decide), List.append_assoc,
        Nat.add_assoc]
      rwa [List.replicate_succ'] at hnext
    · rw [if_neg hspace] at h hwritten
      have hnext := tabsToSpacesFrom_blanks hu hwritten h
      have hrest : u.Row (compress limits.tabWidth
          (col + spaces + clusterWidth g (col + spaces) limits.tabWidth) 0 row) :=
        fun g' hg' => hwritten g' (List.mem_append_right _ (List.mem_cons_of_mem _ hg'))
      rw [tabsToSpacesFrom] at hnext ⊢
      by_cases htab : g = ['\t']
      · subst htab
        rw [if_pos rfl] at hnext ⊢
        dsimp only at hnext ⊢
        rw [clusterWidth_tab] at hnext hrest
        split_ifs at hnext ⊢
        simpa using ih hclusters hrest hnext
      · have hwidth : u.displayColumn g limits.tabWidth =
            clusterWidth g (col + spaces) limits.tabWidth := by
          rw [hu.cluster hg htab, clusterWidth, if_neg htab]
        rw [if_neg htab, hwidth] at hnext ⊢
        simpa using ih hclusters hrest hnext

/-- A blank takes one byte. -/
theorem utf8Len_blanks_le {width col spaces : Nat} :
    utf8Len (blanks width col spaces).flatten ≤ spaces := by
  induction col, spaces using blanks_induction width with
  | none col => rw [blanks]; rfl
  | tab col spaces hle hlt ih =>
    have htab : utf8Len ['\t'] = 1 := by decide
    rw [blanks_tab hle hlt, List.flatten_cons, String.utf8Len_append, htab]
    omega
  | space col n hnot ih =>
    have hspace : utf8Len [' '] = 1 := by decide
    rw [blanks_space hnot, List.flatten_cons, String.utf8Len_append, hspace]
    omega

/-- No text gets longer. -/
theorem utf8Len_compress_le (col spaces : Nat) (row : List Text) :
    utf8Len (compress tabWidth col spaces row).flatten ≤ spaces + utf8Len row.flatten := by
  induction row generalizing col spaces with
  | nil =>
    rw [compress]
    exact utf8Len_blanks_le
  | cons g row ih =>
    rw [compress, List.flatten_cons, String.utf8Len_append]
    split_ifs with hg
    · have hspace : utf8Len [' '] = 1 := by decide
      have := ih col (spaces + 1)
      rw [hg, hspace]
      omega
    · have hblanks : utf8Len (blanks (max tabWidth 1) col spaces).flatten ≤ spaces :=
        utf8Len_blanks_le
      have := ih (col + spaces + clusterWidth g (col + spaces) tabWidth) 0
      rw [List.flatten_append, List.flatten_cons, String.utf8Len_append, String.utf8Len_append]
      omega

end Code

/-! ## §6 Columns are kept -/

/-- What the tab commands do to a row, as the clusters they write: columns are kept. -/
structure TabConversion (tabWidth : Nat) (row : List Text) : Prop where
  noTab : ['\t'] ∉ expand tabWidth 0 row
  /-- With its column each tab became spaces, every other cluster stayed. -/
  expanded : columnsFrom tabWidth 0 (expand tabWidth 0 row) =
    (columnsFrom tabWidth 0 row).flatMap (expandAt tabWidth)
  compressed : (columnsFrom tabWidth 0 (compress tabWidth 0 0 row)).filter notBlank =
    (columnsFrom tabWidth 0 row).filter notBlank
  /-- Of the blanks only spaces move. -/
  tabs : ((columnsFrom tabWidth 0 row).filter notSpace).Sublist
    (columnsFrom tabWidth 0 (compress tabWidth 0 0 row))
  shorter : (compress tabWidth 0 0 row).length ≤ row.length
  expandTwice : expand tabWidth 0 (expand tabWidth 0 row) = expand tabWidth 0 row
  compressTwice : compress tabWidth 0 0 (compress tabWidth 0 0 row) = compress tabWidth 0 0 row
  expandCompressed : expand tabWidth 0 (compress tabWidth 0 0 row) = expand tabWidth 0 row

theorem TabConversion.of (tabWidth : Nat) (row : List Text) : TabConversion tabWidth row where
  noTab := tab_not_mem_expand 0 row
  expanded := columns_expand 0 row
  compressed := columns_compress 0 0 row
  tabs := columns_compress_tabs 0 0 row
  shorter := by simpa using @length_compress_le tabWidth 0 0 row
  expandTwice := expand_of_no_tab 0 (tab_not_mem_expand 0 row)
  compressTwice := compress_compress 0 0 row
  expandCompressed := by simpa using @expand_compress tabWidth 0 0 row

namespace Unicode

variable (u : Unicode)

/-- A cluster of a text is one on its own. -/
def Alone : Prop := ∀ text, u.Row (u.graphemes text)

/-- The clusters of a text, with the columns they are displayed at. -/
def columns (tabWidth : Nat) (text : Text) : List (Text × Nat) :=
  columnsFrom tabWidth 0 (u.graphemes text)

/-- The text `TabsToSpaces` writes for a text. -/
def spaced (tabWidth : Nat) (body : Text) : Text := (expand tabWidth 0 (u.graphemes body)).flatten

/-- The text `SpacesToTabs` writes for a text. -/
def tabbed (tabWidth : Nat) (body : Text) : Text :=
  (compress tabWidth 0 0 (u.graphemes body)).flatten

/-- The text of some clusters has these clusters. -/
def Reads (row : List Text) : Prop := u.graphemes row.flatten = row

end Unicode

variable {u : Unicode} {limits : Limits} {eol body : Text}

/-- What the row that `TabsToSpaces` wrote is, read again. -/
structure SpacesWritten (u : Unicode) (limits : Limits) (eol body text : Text) : Prop where
  noTab : ['\t'] ∉ u.graphemes text
  /-- With its column each tab became spaces, every other cluster stayed. -/
  columns : u.columns limits.tabWidth text =
    (u.columns limits.tabWidth body).flatMap (expandAt limits.tabWidth)
  again : rewriteRow u .tabsToSpaces limits eol text = .ok text

/-- What the row that `SpacesToTabs` wrote is, read again. -/
structure TabsWritten (u : Unicode) (limits : Limits) (eol body text : Text) : Prop where
  columns : (u.columns limits.tabWidth text).filter notBlank =
    (u.columns limits.tabWidth body).filter notBlank
  /-- Of the blanks only spaces move. -/
  tabs : ((u.columns limits.tabWidth body).filter notSpace).Sublist
    (u.columns limits.tabWidth text)
  shorter : (u.graphemes text).length ≤ (u.graphemes body).length
  again : rewriteRow u .spacesToTabs limits eol text = .ok text
  /-- As spaces it is the first row as spaces, which is refused only where the bytes run out. -/
  spaces : ∀ spaces, rewriteRow u .tabsToSpaces limits eol text = .ok spaces →
    rewriteRow u .tabsToSpaces limits eol body = .ok spaces
  fits : utf8Len (u.spaced limits.tabWidth body) ≤ limits.maxBytes →
    rewriteRow u .tabsToSpaces limits eol text = .ok (u.spaced limits.tabWidth body)

theorem spacesWritten (hreads : u.Reads (expand limits.tabWidth 0 (u.graphemes body))) :
    SpacesWritten u limits eol body (u.spaced limits.tabWidth body) := by
  have hread : u.graphemes (u.spaced limits.tabWidth body) =
      expand limits.tabWidth 0 (u.graphemes body) := hreads
  have hno : ['\t'] ∉ expand limits.tabWidth 0 (u.graphemes body) := tab_not_mem_expand 0 _
  refine ⟨hread ▸ hno, ?_, ?_⟩
  · rw [Unicode.columns, hread]
    exact columns_expand 0 _
  · rw [rewriteRow, hread]
    exact tabsToSpacesFrom_of_no_tab [] 0 hno

theorem tabsWritten (hu : u.Measured) (halone : u.Alone)
    (hreads : u.Reads (compress limits.tabWidth 0 0 (u.graphemes body))) :
    TabsWritten u limits eol body (u.tabbed limits.tabWidth body) := by
  have hread : u.graphemes (u.tabbed limits.tabWidth body) =
      compress limits.tabWidth 0 0 (u.graphemes body) := hreads
  have hrow : u.Row (compress limits.tabWidth 0 0 (u.graphemes body)) := hread ▸ halone _
  constructor
  · rw [Unicode.columns, hread]
    exact columns_compress 0 0 _
  · rw [Unicode.columns, Unicode.columns, hread]
    exact columns_compress_tabs 0 0 _
  · rw [hread]
    simpa using @length_compress_le limits.tabWidth 0 0 (u.graphemes body)
  · rw [rewriteRow, hread, spacesToTabsFrom_eq hu hrow, compress_compress]
    rfl
  · intro spaces hspaces
    rw [rewriteRow, hread] at hspaces
    exact tabsToSpacesFrom_compress hu (halone body) hrow hspaces
  · intro hfits
    have hsame : expand limits.tabWidth 0 (compress limits.tabWidth 0 0 (u.graphemes body)) =
        expand limits.tabWidth 0 (u.graphemes body) := (TabConversion.of _ _).expandCompressed
    have hwrites := (@tabsToSpacesFrom_eq u limits hu _ hrow [] 0).2
    rw [hsame] at hwrites
    rw [rewriteRow, hread]
    exact hwrites hfits

/-- Tab conversion preserves columns, of the clusters as they are written; and of the row as it
is read again, where its text has the clusters that were written. -/
theorem tab_conversion_keeps_columns {u : Unicode} (hu : u.Measured) (halone : u.Alone)
    (limits : Limits) (eol body : Text) :
    (∀ text, rewriteRow u .tabsToSpaces limits eol body = .ok text →
      text = u.spaced limits.tabWidth body) ∧
    (utf8Len (u.spaced limits.tabWidth body) ≤ limits.maxBytes →
      rewriteRow u .tabsToSpaces limits eol body = .ok (u.spaced limits.tabWidth body)) ∧
    rewriteRow u .spacesToTabs limits eol body = .ok (u.tabbed limits.tabWidth body) ∧
    utf8Len (u.tabbed limits.tabWidth body) ≤ utf8Len body ∧
    TabConversion limits.tabWidth (u.graphemes body) ∧
    (u.Reads (expand limits.tabWidth 0 (u.graphemes body)) →
      SpacesWritten u limits eol body (u.spaced limits.tabWidth body)) ∧
    (u.Reads (compress limits.tabWidth 0 0 (u.graphemes body)) →
      TabsWritten u limits eol body (u.tabbed limits.tabWidth body)) := by
  obtain ⟨hwritten, hfits⟩ := @tabsToSpacesFrom_eq u limits hu _ (halone body) [] 0
  refine ⟨hwritten, hfits, ?_, ?_, .of _ _, spacesWritten, tabsWritten hu halone⟩
  · exact congrArg Except.ok (spacesToTabsFrom_eq hu (halone body) [] 0 0)
  · have hle := @utf8Len_compress_le limits.tabWidth 0 0 (u.graphemes body)
    rw [u.graphemes_flatten, Nat.zero_add] at hle
    exact hle

/-! ### Texts with a combining mark -/

/-- Unicode with the display's columns. -/
def Unicode.measured (u : Unicode) : Unicode :=
  { u with displayColumn := fun text tabWidth =>
      (DisplayColumnMap.new u text tabWidth).column (utf8Len text) }

/-- A scalar joins the cluster behind it: a combining acute accent behind it that a control
does not end, or CR and LF. -/
def joins (c : Char) : Text → Bool
  | '\u0301' :: _ => c != '\t' && c != '\r' && c != '\n'
  | '\n' :: _ => c == '\r'
  | _ => false

def markedClusters : Text → List Text
  | [] => []
  | c :: text =>
    match markedClusters text with
    | [] => [[c]]
    | g :: clusters => if joins c g then (c :: g) :: clusters else [c] :: g :: clusters

theorem markedClusters_flatten (text : Text) : (markedClusters text).flatten = text := by
  induction text with
  | nil => rfl
  | cons c text ih =>
    rw [markedClusters]
    cases hclusters : markedClusters text with
    | nil => rw [hclusters] at ih; rw [← ih]; rfl
    | cons g clusters =>
      rw [hclusters] at ih
      dsimp only
      split_ifs <;> rw [← ih] <;> rfl

/-- Unicode of ASCII texts with combining acute accents; nobody asks for a cursor. -/
def marked : Unicode := Unicode.measured
  { ascii with
    graphemes := markedClusters
    graphemes_flatten := markedClusters_flatten
    seek := fun _ _ _ => .error .invalidBoundary
    seek_boundary := fun _ _ _ _ h => by cases h
    seek_line := fun _ _ _ _ h => by cases h
    seek_pair := fun _ _ _ _ h => by cases h }

theorem marked_alone : marked.Alone := by
  intro text
  show ∀ g ∈ markedClusters text, markedClusters g = [g]
  induction text with
  | nil => exact fun _ h => by cases h
  | cons c text ih =>
    rw [markedClusters]
    cases hclusters : markedClusters text with
    | nil => exact List.forall_mem_singleton.mpr rfl
    | cons g clusters =>
      rw [hclusters] at ih
      obtain ⟨hg, hrest⟩ := List.forall_mem_cons.mp ih
      dsimp only
      split_ifs with hjoins
      · refine List.forall_mem_cons.mpr ⟨?_, hrest⟩
        rw [markedClusters, hg]
        exact if_pos hjoins
      · exact List.forall_mem_cons.mpr ⟨rfl, ih⟩

/-- An accented letter, blanks and a tab: both commands write rows that are read as written. -/
theorem tab_conversion_keeps_columns_marked :
    let body := ['a', '\u0301', ' ', ' ', ' ', '\t', 'b']
    let limits : Limits := ⟨1000, 10, 4⟩
    rewriteRow marked .tabsToSpaces limits [] body =
      .ok ['a', '\u0301', ' ', ' ', ' ', ' ', ' ', ' ', ' ', 'b'] ∧
    rewriteRow marked .spacesToTabs limits [] body = .ok ['a', '\u0301', '\t', '\t', 'b'] ∧
    TabConversion 4 (marked.graphemes body) ∧
    SpacesWritten marked limits [] body ['a', '\u0301', ' ', ' ', ' ', ' ', ' ', ' ', ' ', 'b'] ∧
    TabsWritten marked limits [] body ['a', '\u0301', '\t', '\t', 'b'] := by
  intro body limits
  obtain ⟨-, hspaces, htabs, -, hrow, hspaced, htabbed⟩ :=
    tab_conversion_keeps_columns (u := marked) (fun _ _ => rfl) marked_alone limits [] body
  have hexpand : expand 4 0 (marked.graphemes body) =
      [['a', '\u0301'], [' '], [' '], [' '], [' '], [' '], [' '], [' '], ['b']] := by decide
  have hcompress : compress 4 0 0 (marked.graphemes body) =
      [['a', '\u0301'], ['\t'], ['\t'], ['b']] := by
    have hclusters : marked.graphemes body =
        [['a', '\u0301'], [' '], [' '], [' '], ['\t'], ['b']] := by decide
    have hwidth : clusterWidth ['a', '\u0301'] 0 4 = 1 := by decide
    have hblanks : blanks 4 1 3 = [['\t']] := by
      rw [blanks_tab (by decide) (by decide), blanks]
    simp [hclusters, compress, hwidth, hblanks, blanks]
  have hspaced' : marked.spaced 4 body =
      ['a', '\u0301', ' ', ' ', ' ', ' ', ' ', ' ', ' ', 'b'] := congrArg List.flatten hexpand
  have htabbed' : marked.tabbed 4 body = ['a', '\u0301', '\t', '\t', 'b'] :=
    congrArg List.flatten hcompress
  rw [hspaced'] at hspaces hspaced
  rw [htabbed'] at htabs htabbed
  refine ⟨hspaces (by decide), htabs, hrow, hspaced ?_, htabbed ?_⟩
  · rw [hexpand]
    show markedClusters _ = _
    decide
  · rw [hcompress]
    show markedClusters _ = _
    decide

/-- An accent behind a tab joins the spaces written for it, and the letter behind it moves; and
the spaces that one tab replaced may not fit the bytes that a row without tabs may have. -/
theorem spaces_for_tab_take_accent :
    (rewriteRow marked .tabsToSpaces roomy [] ['\t', '\u0301', 'a'] =
        .ok [' ', ' ', ' ', ' ', '\u0301', 'a'] ∧
      marked.columns 4 ['\t', '\u0301', 'a'] = [(['\t'], 0), (['\u0301'], 4), (['a'], 5)] ∧
      marked.columns 4 [' ', ' ', ' ', ' ', '\u0301', 'a'] =
        [([' '], 0), ([' '], 1), ([' '], 2), ([' ', '\u0301'], 3), (['a'], 4)]) ∧
    (rewriteRow marked .tabsToSpaces ⟨3, 10, 4⟩ [] [' ', ' ', ' ', ' '] =
        .ok [' ', ' ', ' ', ' '] ∧
      rewriteRow marked .spacesToTabs ⟨3, 10, 4⟩ [] [' ', ' ', ' ', ' '] = .ok ['\t'] ∧
      rewriteRow marked .tabsToSpaces ⟨3, 10, 4⟩ [] ['\t'] = .error .budgetExceeded) := by
  refine ⟨⟨?_, ?_, ?_⟩, ?_, ?_, ?_⟩ <;> decide

end BareLine.Power
