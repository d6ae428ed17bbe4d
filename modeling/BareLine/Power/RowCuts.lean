import BareLine.Power.Rectangles

/-!
# How a rectangle cuts a row

An insertion cuts every row at the two edges.  A deletion cuts a row that reaches beyond the left
edge in the same way, and leaves any other row as it is; a rectangle without width takes out at
most the cluster at its column.
-/

namespace BareLine.Power

open Lib
open Search (Text)
open String (utf8Len)
open DisplayColumnMap (ofRow)

variable {tabWidth : Nat} {width : Text → Nat} {row before between behind : List Text}
  {left right : Nat}

/-! ## §1 Places between clusters -/

theorem Clustered.pos {g : Text} (hrow : Clustered row) (hg : g ∈ row) : 0 < utf8Len g :=
  Nat.pos_of_ne_zero fun h => (hrow g hg).1 (String.utf8Len_eq_zero.mp h)

/-- A place is in front of the end just if a cluster stands behind it. -/
theorem lt_flatten_iff (hrow : Clustered (before ++ behind)) :
    utf8Len before.flatten < utf8Len (before ++ behind).flatten ↔ behind ≠ [] := by
  rw [List.flatten_append, String.utf8Len_append]
  cases behind with
  | nil => simp
  | cons g rest =>
    have := hrow.pos (List.mem_append_right before (List.mem_cons_self ..))
    simp only [List.flatten_cons, String.utf8Len_append, ne_eq, reduceCtorEq, not_false_eq_true,
      iff_true]
    omega

/-- A tab follows a place just if the cluster behind it is one. -/
theorem startsWithTab_iff (hrow : Clustered (before ++ behind)) :
    startsWithTab (before ++ behind).flatten (utf8Len before.flatten) = true ↔
      behind.head? = some ['\t'] := by
  rw [startsWithTab, List.flatten_append, getFrom_append, Option.bind_some, beq_iff_eq]
  cases behind with
  | nil => simp
  | cons g rest =>
    obtain ⟨hne, htab⟩ := hrow g (List.mem_append_right before (List.mem_cons_self ..))
    obtain ⟨c, g, rfl⟩ := List.exists_cons_of_ne_nil hne
    rw [List.flatten_cons, List.cons_append, List.head?_cons, List.head?_cons, Option.some_inj,
      Option.some_inj]
    refine ⟨fun hc => htab (hc ▸ List.mem_cons_self ..), fun hg => (List.cons.inj hg).1⟩

/-- The columns of places in a row are in order. -/
theorem columnAfter_le_append (before between : List Text) :
    columnAfter tabWidth width 0 before ≤ columnAfter tabWidth width 0 (before ++ between) := by
  rw [columnAfter_append]
  exact le_columnAfter _ _

theorem lt_columnAfter_concat (hwidth : ∀ g, 0 < width g) (before : List Text) (g : Text) :
    columnAfter tabWidth width 0 before < columnAfter tabWidth width 0 (before ++ [g]) := by
  rw [columnAfter_append]
  exact lt_columnAfter_cons hwidth _ _ _

/-! ## §2 The cut of an insertion -/

/-- The spaces in front of what is put in at a place. -/
def padAt (tabWidth : Nat) (width : Text → Nat) (before behind : List Text) (left : Nat) : Nat :=
  if behind ≠ [] ∧ behind.head? ≠ some ['\t'] then 0 else left - columnAfter tabWidth width 0 before

/-- What follows the left edge is as it should be, whatever is removed of what the edges enclose. -/
theorem CutAt.starts (h : CutAt tabWidth width before behind left) :
    columnAfter tabWidth width 0 before + padAt tabWidth width before behind left = left ∨
      padAt tabWidth width before behind left = 0 ∧
        ∃ g b, behind = g :: b ∧ g ≠ ['\t'] ∧ Inside tabWidth width before g left := by
  have hle := h.le
  rw [padAt]
  split_ifs with hpad
  · obtain ⟨g, rest, rfl⟩ := List.exists_cons_of_ne_nil hpad.1
    rcases Nat.lt_or_eq_of_le hle with hlt | heq
    · refine .inr ⟨rfl, g, rest, rfl, fun hg => hpad.2 (by rw [hg, List.head?_cons]), hlt, ?_⟩
      exact h.lt g rest rfl
    · exact .inl (by rw [heq, Nat.add_zero])
  · exact .inl (Nat.add_sub_cancel' hle)

/-- What the right edge takes of the clusters from the left edge on: those that end before it, and
one that it cuts.  A cut tab leaves the spaces of its columns behind the edge. -/
inductive RightCut (tabWidth : Nat) (width : Text → Nat) (left right : Nat)
    (before between : List Text) : List Text → List Text → List Text → Nat → Prop where
  | tab (behind : List Text) (cut : columnAfter tabWidth width 0 (before ++ between) < right) :
      RightCut tabWidth width left right before between (['\t'] :: behind)
        (between ++ [['\t']]) behind
        (columnAfter tabWidth width 0 (before ++ between ++ [['\t']]) - right)
  | cluster (g : Text) (behind : List Text) (other : g ≠ ['\t']) (lt : left < right)
      (cut : columnAfter tabWidth width 0 (before ++ between) < right) :
      RightCut tabWidth width left right before between (g :: behind) (between ++ [g]) behind 0
  | edge (rest : List Text) (whole : columnAfter tabWidth width 0 (before ++ between) < right →
      rest.head? ≠ some ['\t']) :
      RightCut tabWidth width left right before between rest between rest 0

namespace RightCut

variable {rest removed : List Text} {suffix : Nat}

theorem parts (h : RightCut tabWidth width left right before between rest removed behind suffix) :
    removed ++ behind = between ++ rest := by
  cases h with
  | tab | cluster => rw [List.append_assoc, List.singleton_append]
  | edge => rfl

/-- What is removed starts in front of the right edge. -/
theorem notRight (hwidth : ∀ g, 0 < width g)
    (hright : CutAt tabWidth width (before ++ between) rest right)
    (h : RightCut tabWidth width left right before between rest removed behind suffix)
    {a b : List Text} {g : Text} (hsplit : removed = a ++ g :: b) :
    columnAfter tabWidth width 0 (before ++ a) < right := by
  -- a cut cluster comes last, and starts in front of the edge
  have hlast : ∀ last, columnAfter tabWidth width 0 (before ++ between) < right →
      between ++ [last] = a ++ g :: b → columnAfter tabWidth width 0 (before ++ a) < right := by
    intro last hcut hsame
    obtain ⟨front, hfront⟩ : ∃ front, between = a ++ front := by
      rcases List.append_eq_append_iff.mp hsame with ⟨a', hone, hrest⟩ | ⟨front, hfront, -⟩
      · cases a' with
        | nil => exact ⟨[], by simpa using hone.symm⟩
        | cons g' a' => exact absurd (congrArg List.length hrest) (by simp)
      · exact ⟨front, hfront⟩
    rw [hfront, ← List.append_assoc] at hcut
    exact Nat.lt_of_le_of_lt (columnAfter_le_append _ _) hcut
  cases h with
  | tab behind hcut => exact hlast _ hcut hsplit
  | cluster last behind hother hlt hcut => exact hlast _ hcut hsplit
  | edge =>
    have hle := hright.le
    rw [hsplit, List.append_cons, ← List.append_assoc, ← List.append_assoc] at hle
    exact Nat.lt_of_lt_of_le (lt_columnAfter_concat hwidth _ g)
      (Nat.le_trans (columnAfter_le_append _ b) hle)

/-- A tab that follows the left edge and is cut by it goes. -/
theorem removesTab {tail : List Text} (htail : between ++ rest = ['\t'] :: tail)
    (hcut : columnAfter tabWidth width 0 before < right)
    (h : RightCut tabWidth width left right before between rest removed behind suffix) :
    removed.head? = some ['\t'] := by
  cases between with
  | cons g between =>
    obtain ⟨rfl, -⟩ := List.cons.inj htail
    cases h <;> rfl
  | nil =>
    obtain rfl : rest = ['\t'] :: tail := htail
    cases h with
    | tab => rfl
    | cluster g behind hother => exact absurd rfl hother
    | edge rest hwhole => exact absurd rfl (hwhole (by rwa [List.append_nil]))

/-- Both edges together. -/
theorem columnsCut (hwidth : ∀ g, 0 < width g) (hle : left ≤ right)
    (hleft : CutAt tabWidth width before (between ++ rest) left)
    (hright : CutAt tabWidth width (before ++ between) rest right)
    (h : RightCut tabWidth width left right before between rest removed behind suffix) :
    ColumnsCut tabWidth width left right before removed behind
      (padAt tabWidth width before (between ++ rest) left) suffix := by
  have hparts := h.parts
  have hrow : before ++ between ++ rest = before ++ (removed ++ behind) := by
    rw [hparts, List.append_assoc]
  -- a tab that the right edge cuts stands where the edge cuts the row
  have htabs : ∀ a b, before ++ (removed ++ behind) = a ++ ['\t'] :: b →
      Inside tabWidth width a ['\t'] right → a = before ++ between ∧ ['\t'] :: b = rest :=
    fun a b hsplit hinside =>
      hright.unique (CutAt.of_between hinside.1 hinside.2) (hrow.trans hsplit)
  refine ⟨hleft.le, fun a g b hsplit => hleft.lt_end (hparts.symm.trans hsplit),
    fun a g b hsplit => h.notRight hwidth hright hsplit, hparts ▸ hleft.starts, ?_, ?_, ?_⟩
  · intro a b hsplit hinside
    obtain ⟨rfl, htail⟩ := hleft.unique (CutAt.of_between hinside.1 hinside.2)
      ((congrArg (before ++ ·) hparts.symm).trans hsplit)
    refine ⟨rfl, h.removesTab htail.symm (Nat.lt_of_lt_of_le hinside.1 hle), ?_⟩
    rw [padAt, ← htail, if_neg fun hpad => hpad.2 rfl]
    exact Nat.add_sub_cancel' hleft.le
  · intro a b hsplit hinside
    obtain ⟨rfl, rfl⟩ := htabs a b hsplit hinside
    cases h with
    | tab behind hcut =>
      exact ⟨by rw [List.append_assoc], Nat.add_sub_cancel' (Nat.le_of_lt hinside.2)⟩
    | cluster g behind hother => exact absurd rfl hother
    | edge rest hwhole => exact absurd rfl (hwhole hinside.1)
  · intro hnone
    cases h with
    | tab behind hcut =>
      exact absurd ⟨hcut, hright.lt _ _ rfl⟩ (hnone (before ++ between) behind hrow.symm)
    | cluster | edge => rfl

end RightCut

/-- The cut that takes some clusters out of a row behind others. -/
def RowCut.of (before removed : List Text) (pad suffix : Nat) : RowCut :=
  ⟨utf8Len before.flatten, utf8Len (before ++ removed).flatten, pad, suffix⟩

/-- The two edges of a rectangle in a row. -/
structure Edges (tabWidth : Nat) (width : Text → Nat) (row : List Text) (left right : Nat)
    (before between rest : List Text) : Prop where
  row : row = before ++ (between ++ rest)
  left : CutAt tabWidth width before (between ++ rest) left
  right : CutAt tabWidth width (before ++ between) rest right

theorem exists_edges (tabWidth : Nat) (width : Text → Nat) (row : List Text) (hle : left ≤ right) :
    ∃ before between rest, Edges tabWidth width row left right before between rest := by
  obtain ⟨before, rest', rfl, hleft⟩ := exists_cutAt tabWidth width row left
  obtain ⟨front, rest, hsame, hright⟩ := exists_cutAt tabWidth width (before ++ rest') right
  obtain ⟨between, rfl, rfl⟩ := hleft.mono hright hsame hle
  exact ⟨before, between, rest, rfl, hleft, hright⟩

namespace Edges

variable {rest : List Text}

theorem atLeft (hwidth : ∀ g, 0 < width g) (hrow : Clustered row)
    (h : Edges tabWidth width row left right before between rest) :
    (ofRow tabWidth width row).atColumn left =
      (utf8Len before.flatten, left - columnAfter tabWidth width 0 before) := by
  obtain ⟨rfl, hleft, -⟩ := h
  exact DisplayColumnMap.atColumn_eq hwidth hrow hleft.le hleft.lt

theorem atRight (hwidth : ∀ g, 0 < width g) (hrow : Clustered row)
    (h : Edges tabWidth width row left right before between rest) :
    (ofRow tabWidth width row).atColumn right = (utf8Len (before ++ between).flatten,
      right - columnAfter tabWidth width 0 (before ++ between)) := by
  obtain ⟨rfl, -, hright⟩ := h
  rw [← List.append_assoc] at hrow ⊢
  exact DisplayColumnMap.atColumn_eq hwidth hrow hright.le hright.lt

/-- The padding in front of what is put in. -/
theorem pad_eq (hrow : Clustered row)
    (h : Edges tabWidth width row left right before between rest) :
    (if utf8Len before.flatten < utf8Len row.flatten ∧
        startsWithTab row.flatten (utf8Len before.flatten) = false then 0
      else left - columnAfter tabWidth width 0 before) =
      padAt tabWidth width before (between ++ rest) left := by
  obtain ⟨rfl, -, -⟩ := h
  have hiff := and_congr (lt_flatten_iff hrow) (not_congr (startsWithTab_iff hrow))
  rw [Bool.not_eq_true] at hiff
  rw [padAt]
  exact if_congr hiff rfl rfl

/-- What an insertion takes out of a row. -/
theorem insertCut_eq (hwidth : ∀ g, 0 < width g) (hrow : Clustered row)
    (h : Edges tabWidth width row left right before between rest) :
    ∃ removed behind suffix,
      RightCut tabWidth width left right before between rest removed behind suffix ∧
      insertCut (ofRow tabWidth width row) row.flatten left right =
        RowCut.of before removed (padAt tabWidth width before (between ++ rest) left) suffix := by
  have hpad := h.pad_eq hrow
  rw [insertCut, h.atLeft hwidth hrow, h.atRight hwidth hrow]
  dsimp only
  rw [hpad]
  have hsame := h.row
  rw [← List.append_assoc] at hsame
  subst hsame
  simp only [Nat.sub_pos_iff_lt, lt_flatten_iff hrow, startsWithTab_iff hrow,
    DisplayColumnMap.column_eq hwidth hrow]
  cases rest with
  | nil =>
    rw [if_neg fun hcut => hcut.2.1 rfl, if_neg fun hcut => hcut.2.2 rfl]
    exact ⟨between, [], 0, .edge [] fun _ => nofun, rfl⟩
  | cons g tail =>
    have hafter := @DisplayColumnMap.stopAfter_eq tabWidth width (before ++ between) hwidth g tail
      hrow
    rw [hafter]
    by_cases hlt : columnAfter tabWidth width 0 (before ++ between) < right
    swap
    · rw [if_neg fun hcut => hlt hcut.1, if_neg fun hcut => hlt hcut.2.1]
      exact ⟨between, g :: tail, 0, .edge _ fun hcut => absurd hcut hlt, rfl⟩
    by_cases hg : g = ['\t']
    · subst hg
      rw [if_pos ⟨hlt, List.cons_ne_nil _ _, rfl⟩]
      refine ⟨_, tail, _, .tab tail hlt, ?_⟩
      rw [RowCut.of, ← List.append_assoc]
      rfl
    have hnoTab : (g :: tail).head? ≠ some ['\t'] := fun hhead => hg (Option.some.inj hhead)
    rw [if_neg fun hcut => hnoTab hcut.2.2]
    by_cases hwide : left < right
    · rw [if_pos ⟨hwide, hlt, List.cons_ne_nil _ _⟩]
      refine ⟨_, tail, 0, .cluster g tail hg hwide hlt, ?_⟩
      rw [RowCut.of, ← List.append_assoc]
      rfl
    · rw [if_neg fun hcut => hwide hcut.1]
      exact ⟨between, g :: tail, 0, .edge _ fun _ => hnoTab, rfl⟩

end Edges

/-- An insertion cuts a row at the two edges. -/
theorem insertCut_spec (hwidth : ∀ g, 0 < width g) (hrow : Clustered row) (hle : left ≤ right) :
    ∃ before removed behind pad suffix, row = before ++ (removed ++ behind) ∧
      insertCut (ofRow tabWidth width row) row.flatten left right =
        RowCut.of before removed pad suffix ∧
      ColumnsCut tabWidth width left right before removed behind pad suffix := by
  obtain ⟨before, between, rest, hedges⟩ := exists_edges tabWidth width row hle
  obtain ⟨removed, behind, suffix, hright, hcut⟩ := hedges.insertCut_eq hwidth hrow
  exact ⟨before, removed, behind, _, suffix, hright.parts ▸ hedges.row, hcut,
    hright.columnsCut hwidth hle hedges.left hedges.right⟩

/-! ## §3 The cut of a deletion -/

/-- What a deletion takes out of a row.  A rectangle with a width is cut out as for an insertion,
and a row that ends at or before it is left alone.  Without a width nothing goes unless a key is
named; then it is the cluster the column lies inside, else the one that ends there for Backspace
and the one that starts there for Delete. -/
inductive Deleted (tabWidth : Nat) (width : Text → Nat) (left right : Nat)
    (backward : Option Bool) : List Text → List Text → List Text → Nat → Nat → Prop where
  | rectangle {before removed behind : List Text} {pad suffix : Nat} (lt : left < right)
      (beyond : left < columnAfter tabWidth width 0 (before ++ (removed ++ behind)))
      (cut : ColumnsCut tabWidth width left right before removed behind pad suffix) :
      Deleted tabWidth width left right backward before removed behind pad suffix
  | short {row : List Text} (lt : left < right) (ends : columnAfter tabWidth width 0 row ≤ left) :
      Deleted tabWidth width left right backward row [] [] 0 0
  | around {before behind : List Text} {g : Text} (eq : left = right)
      (key : backward.isSome = true) (inside : Inside tabWidth width before g left) :
      Deleted tabWidth width left right backward before [g] behind 0 0
  | backspace {before behind : List Text} {g : Text} (eq : left = right)
      (key : backward = some true) (ends : columnAfter tabWidth width 0 (before ++ [g]) = left) :
      Deleted tabWidth width left right backward before [g] behind 0 0
  | delete {before behind : List Text} {g : Text} (eq : left = right)
      (key : backward = some false) (starts : columnAfter tabWidth width 0 before = left) :
      Deleted tabWidth width left right backward before [g] behind 0 0
  | nothing {before behind : List Text} (eq : left = right)
      (whole : backward.isSome = true → ∀ a g b, before ++ behind = a ++ g :: b →
        ¬Inside tabWidth width a g left ∧
        (backward = some true → columnAfter tabWidth width 0 (a ++ [g]) ≠ left) ∧
        (backward = some false → columnAfter tabWidth width 0 a ≠ left)) :
      Deleted tabWidth width left right backward before [] behind 0 0

/-- Nothing of a row goes where no cluster meets the column. -/
theorem Deleted.nothing_of_le {backward : Option Bool} (hwidth : ∀ g, 0 < width g)
    (heq : left = right) (hle : columnAfter tabWidth width 0 before ≤ left)
    (hkey : ¬(backward = some true ∧ columnAfter tabWidth width 0 before = left ∧ before ≠ [])) :
    Deleted tabWidth width left right backward before [] [] 0 0 := by
  refine .nothing heq fun _ a g b hsplit => ?_
  rw [List.append_nil] at hsplit
  have hlast : columnAfter tabWidth width 0 (a ++ [g]) ≤ columnAfter tabWidth width 0 before := by
    rw [hsplit.trans (List.append_cons a g b)]
    exact columnAfter_le_append _ _
  have hlt := @lt_columnAfter_concat tabWidth width hwidth a g
  refine ⟨fun hinside => absurd hinside.2 (by omega), fun hback hends => ?_, fun _ => by omega⟩
  refine hkey ⟨hback, by omega, ?_⟩
  rw [hsplit]
  exact List.append_ne_nil_of_right_ne_nil _ (List.cons_ne_nil _ _)

/-- A row that ends at or before the rectangle. -/
theorem deleteCut_behind {backward : Option Bool} (hwidth : ∀ g, 0 < width g)
    (hrow : Clustered row) (hle : left ≤ right)
    (hends : columnAfter tabWidth width 0 row ≤ left) :
    ∃ before removed, row = before ++ (removed ++ []) ∧
      deleteCut (ofRow tabWidth width row) row.flatten left right backward =
        RowCut.of before removed 0 0 ∧
      Deleted tabWidth width left right backward before removed [] 0 0 := by
  have hat := @DisplayColumnMap.atColumn_eq tabWidth width row [] hwidth
    ((List.append_nil row).symm ▸ hrow) left hends nofun
  rw [List.append_nil] at hat
  rw [deleteCut, hat]
  dsimp only
  rw [if_pos (Nat.le_refl _)]
  by_cases hback : backward = some true ∧ left - columnAfter tabWidth width 0 row = 0 ∧
      0 < utf8Len row.flatten ∧ right = left
  · obtain ⟨hkey, hinside, hpos, heq⟩ := hback
    rw [if_pos ⟨hkey, hinside, hpos, heq⟩]
    rcases List.eq_nil_or_concat row with rfl | ⟨front, g, rfl⟩
    · exact absurd hpos (Nat.lt_irrefl 0)
    rw [List.concat_eq_append] at hrow hends hinside ⊢
    rw [DisplayColumnMap.stopBefore_eq hwidth hrow]
    exact ⟨front, [g], by rw [List.append_nil], rfl, .backspace heq.symm hkey (by omega)⟩
  · rw [if_neg hback]
    refine ⟨row, [], by rw [List.append_nil, List.append_nil], ?_, ?_⟩
    · rw [RowCut.of, List.append_nil]
    rcases Nat.lt_or_eq_of_le hle with hlt | heq
    · exact .short hlt hends
    · refine .nothing_of_le hwidth heq hends fun ⟨hkey, hcol, hne⟩ =>
        hback ⟨hkey, by omega, ?_, heq.symm⟩
      obtain ⟨g, tail, rfl⟩ := List.exists_cons_of_ne_nil hne
      have := hrow.pos (List.mem_cons_self ..)
      rw [List.flatten_cons, String.utf8Len_append]
      omega

/-- A rectangle with a width, in a row that reaches beyond its left edge. -/
theorem deleteCut_eq_insertCut {backward : Option Bool} (hlt : left < right)
    (map : DisplayColumnMap) (body : Text) (hbeyond : (map.atColumn left).1 < utf8Len body) :
    deleteCut map body left right backward = insertCut map body left right := by
  rw [deleteCut, insertCut]
  dsimp only
  rw [if_neg (Nat.not_le_of_lt hbeyond), if_pos hlt]
  have hpad :
      (if startsWithTab body (map.atColumn left).1 = true then (map.atColumn left).2 else 0) =
        if (map.atColumn left).1 < utf8Len body ∧
            startsWithTab body (map.atColumn left).1 = false then 0
        else (map.atColumn left).2 := by
    cases startsWithTab body (map.atColumn left).1 <;> simp [hbeyond]
  simp only [hpad, hlt, true_and]

/-- A rectangle without a width, in a row that reaches beyond it. -/
theorem deleteCut_at {backward : Option Bool} {c : Nat} {g : Text} {tail : List Text}
    (hwidth : ∀ g, 0 < width g) (hrow : Clustered (before ++ g :: tail))
    (hcut : CutAt tabWidth width before (g :: tail) c) :
    ∃ front removed behind, before ++ g :: tail = front ++ (removed ++ behind) ∧
      deleteCut (ofRow tabWidth width (before ++ g :: tail)) (before ++ g :: tail).flatten c c
        backward = RowCut.of front removed 0 0 ∧
      Deleted tabWidth width c c backward front removed behind 0 0 := by
  have hle := hcut.le
  have hlt := hcut.lt g tail rfl
  have hbeyond := (lt_flatten_iff hrow).mpr (List.cons_ne_nil g tail)
  have hafter := @DisplayColumnMap.stopAfter_eq tabWidth width before hwidth g tail hrow
  rw [deleteCut, DisplayColumnMap.atColumn_eq hwidth hrow hcut.le hcut.lt]
  dsimp only
  rw [if_neg (Nat.not_le_of_lt hbeyond), if_neg (Nat.lt_irrefl c), hafter]
  cases backward with
  | none =>
    refine ⟨before, [], g :: tail, rfl, ?_, .nothing rfl (by simp)⟩
    rw [RowCut.of, List.append_nil]
  | some back =>
    dsimp only
    by_cases hinside : columnAfter tabWidth width 0 before < c
    · rw [if_pos (Nat.sub_pos_of_lt hinside)]
      exact ⟨before, [g], tail, rfl, rfl, .around rfl rfl ⟨hinside, hlt⟩⟩
    have hcol : columnAfter tabWidth width 0 before = c := by omega
    rw [if_neg (by omega)]
    cases back with
    | false => exact ⟨before, [g], tail, rfl, rfl, .delete rfl rfl hcol⟩
    | true =>
      rw [if_pos rfl]
      rcases List.eq_nil_or_concat before with rfl | ⟨front, g', rfl⟩
      · -- nothing stands in front of the start of the row
        have hnone : (ofRow tabWidth width ([] ++ g :: tail)).stopBefore
            (utf8Len ([] : List Text).flatten) = none := by
          rw [DisplayColumnMap.stopBefore, List.find?_eq_none]
          exact fun stop _ => by simp
        rw [hnone]
        refine ⟨[], [], g :: tail, rfl, rfl, .nothing rfl fun _ a g' b _ => ?_⟩
        obtain rfl : 0 = c := hcol
        have := @lt_columnAfter_concat tabWidth width hwidth a g'
        exact ⟨fun hin => absurd hin.1 (Nat.not_lt_zero _), fun _ => by omega, (by simp)⟩
      · rw [List.concat_eq_append] at hrow hcol ⊢
        rw [List.append_assoc] at hrow ⊢
        rw [List.singleton_append] at hrow ⊢
        rw [DisplayColumnMap.stopBefore_eq hwidth hrow]
        exact ⟨front, [g'], g :: tail, rfl, rfl, .backspace rfl rfl hcol⟩

/-- A deletion takes out of a row what it should. -/
theorem deleteCut_spec {backward : Option Bool} (hwidth : ∀ g, 0 < width g) (hrow : Clustered row)
    (hle : left ≤ right) :
    ∃ before removed behind pad suffix, row = before ++ (removed ++ behind) ∧
      deleteCut (ofRow tabWidth width row) row.flatten left right backward =
        RowCut.of before removed pad suffix ∧
      Deleted tabWidth width left right backward before removed behind pad suffix := by
  obtain ⟨before, rest, rfl, hcut⟩ := exists_cutAt tabWidth width row left
  cases rest with
  | nil =>
    rw [List.append_nil] at hrow ⊢
    obtain ⟨front, removed, hsame, hdelete, hdeleted⟩ :=
      @deleteCut_behind tabWidth width before left right backward hwidth hrow hle hcut.le
    exact ⟨front, removed, [], 0, 0, hsame, hdelete, hdeleted⟩
  | cons g tail =>
    rcases Nat.lt_or_eq_of_le hle with hlt | rfl
    · obtain ⟨front, removed, behind, pad, suffix, hsame, hinsert, hcolumns⟩ :=
        insertCut_spec hwidth hrow hle
      have hbeyond := (lt_flatten_iff hrow).mpr (List.cons_ne_nil g tail)
      refine ⟨front, removed, behind, pad, suffix, hsame, ?_, .rectangle hlt ?_ hcolumns⟩
      · rw [deleteCut_eq_insertCut hlt, hinsert]
        rwa [DisplayColumnMap.atColumn_eq hwidth hrow hcut.le hcut.lt]
      · rw [← hsame, List.append_cons]
        exact Nat.lt_of_lt_of_le (hcut.lt g tail rfl) (columnAfter_le_append _ _)
    · obtain ⟨front, removed, behind, hsame, hdelete, hdeleted⟩ :=
        @deleteCut_at tabWidth width before backward left g tail hwidth hrow hcut
      exact ⟨front, removed, behind, 0, 0, hsame, hdelete, hdeleted⟩

end BareLine.Power
