import BareLine.Completion.Comments

/-!
# A toggle and the toggle behind it

What a toggle of line comments does, line by line: a token goes in or comes out of each line that
is selected and not blank, and nothing else changes.  A second toggle over the same lines brings
back the text before a first one that added tokens, unless the tokens themselves start with a
blank.
-/

namespace BareLine.Power.Completion

open Lib
open Search (Text)
open String (utf8Len)

/-! ## §1 A line with and without a token -/

/-- The blanks a line starts with. -/
def indentOf (l : Text) : Text := l.takeWhile isIndent

/-- What follows them. -/
def contentOf (l : Text) : Text := l.dropWhile isIndent

/-- Whitespace only. -/
def Blank (l : Text) : Prop := ∀ c ∈ l, isWhitespace c = true

instance Blank.decidable (l : Text) : Decidable (Blank l) :=
  List.decidableBAll (fun c => isWhitespace c = true) l

/-- The token is the first on the line. -/
def Commented (token l : Text) : Prop := token <+: contentOf l

/-- The line with the token, and a space, at a column. -/
def withToken (token : Text) (column : Nat) (l : Text) : Text :=
  l.take column ++ (token ++ ' ' :: l.drop column)

/-- The token at the start of a line, with the space behind it if there is one. -/
def commentOf (token l : Text) : Text :=
  token ++ if ((contentOf l).drop token.length).head? = some ' ' then [' '] else []

/-- The line without it. -/
def withoutToken (token l : Text) : Text :=
  indentOf l ++ (contentOf l).drop (commentOf token l).length

/-- The token starts with a blank. -/
def StartsBlank (token : Text) : Prop := token.head?.any isIndent = true

theorem indentOf_append_contentOf (l : Text) : indentOf l ++ contentOf l = l :=
  List.takeWhile_append_dropWhile

theorem utf8Len_indent {k : Text} (h : ∀ c ∈ k, isIndent c = true) : utf8Len k = k.length := by
  induction k with
  | nil => rfl
  | cons c k ih =>
    obtain ⟨hc, hk⟩ := List.forall_mem_cons.mp h
    have hsize : c.utf8Size = 1 := by
      rw [isIndent, Bool.or_eq_true, beq_iff_eq, beq_iff_eq] at hc
      rcases hc with rfl | rfl <;> rfl
    rw [String.utf8Len_cons, ih hk, hsize, List.length_cons]

theorem isIndent_of_mem_indentOf {l : Text} : ∀ c ∈ indentOf l, isIndent c = true :=
  fun _ hc => List.mem_takeWhile_imp hc

/-- A front of the blanks of a line. -/
theorem take_indent {l : Text} {column : Nat} (h : column ≤ (indentOf l).length) :
    l.take column = (indentOf l).take column ∧ utf8Len (l.take column) = column := by
  have htake : l.take column = (indentOf l).take column := by
    conv_lhs => rw [← indentOf_append_contentOf l]
    exact List.take_append_of_le_length h
  refine ⟨htake, ?_⟩
  rw [htake, utf8Len_indent fun c hc => isIndent_of_mem_indentOf c (List.mem_of_mem_take hc),
    List.length_take, Nat.min_eq_left h]

theorem contentOf_head {l : Text} : (contentOf l).head?.any isIndent = false := by
  have hhead := @List.head?_dropWhile_not Char isIndent l
  rw [contentOf]
  cases hl : (l.dropWhile isIndent).head? with
  | none => rfl
  | some c =>
    rw [hl] at hhead
    simpa using hhead

/-- A token that starts with a blank is first on no line. -/
theorem not_commented_of_startsBlank {token l : Text} (h : StartsBlank token) :
    ¬Commented token l := by
  rintro ⟨rest, hrest⟩
  have hhead := @contentOf_head l
  rw [← hrest] at hhead
  cases token with
  | nil => exact nomatch h
  | cons c token => exact absurd (h.symm.trans hhead) (by decide)

/-- Blanks in front of something else are the blanks of the line. -/
theorem indentOf_append {k rest : Text} (hk : ∀ c ∈ k, isIndent c = true)
    (hrest : rest.head?.any isIndent = false) :
    indentOf (k ++ rest) = k ∧ contentOf (k ++ rest) = rest := by
  have hnone : rest.takeWhile isIndent = [] ∧ rest.dropWhile isIndent = rest := by
    cases rest with
    | nil => exact ⟨rfl, rfl⟩
    | cons c rest =>
      have hc : isIndent c = false := hrest
      simp [hc]
  rw [indentOf, contentOf, List.takeWhile_append_of_pos hk, List.dropWhile_append_of_pos hk,
    hnone.1, hnone.2, List.append_nil]
  exact ⟨rfl, rfl⟩

section

variable {token l : Text} {column : Nat}

/-- The token is first on the line it was added to. -/
theorem withToken_parts (hcolumn : column ≤ (indentOf l).length) (hne : token ≠ [])
    (hplain : ¬StartsBlank token) : indentOf (withToken token column l) = l.take column ∧
      contentOf (withToken token column l) = token ++ ' ' :: l.drop column := by
  refine indentOf_append (fun c hc => ?_) ?_
  · rw [(take_indent hcolumn).1] at hc
    exact isIndent_of_mem_indentOf c (List.mem_of_mem_take hc)
  · cases token with
    | nil => exact absurd rfl hne
    | cons c token => exact Bool.eq_false_iff.mpr hplain

theorem commented_withToken (hcolumn : column ≤ (indentOf l).length) (hne : token ≠ [])
    (hplain : ¬StartsBlank token) : Commented token (withToken token column l) := by
  rw [Commented, (withToken_parts hcolumn hne hplain).2]
  exact List.prefix_append _ _

/-- Taken away again, the line is what it was. -/
theorem withoutToken_withToken (hcolumn : column ≤ (indentOf l).length) (hne : token ≠ [])
    (hplain : ¬StartsBlank token) : withoutToken token (withToken token column l) = l := by
  obtain ⟨hindent, hcontent⟩ := withToken_parts hcolumn hne hplain
  have hassoc : token ++ ' ' :: l.drop column = (token ++ [' ']) ++ l.drop column := by simp
  rw [withoutToken, commentOf, hindent, hcontent, List.drop_left, if_pos (by rfl), hassoc,
    List.drop_left, List.take_append_drop]

theorem blank_withToken (h : ¬Blank l) : ¬Blank (withToken token column l) := by
  refine fun hall => h fun c hc => hall c ?_
  rw [← List.take_append_drop column l] at hc
  simp only [withToken, List.mem_append, List.mem_cons] at hc ⊢
  tauto

/-- The token and the space behind it are what is taken away. -/
theorem withoutToken_parts (h : Commented token l) :
    l = indentOf l ++ (commentOf token l ++ (contentOf l).drop (commentOf token l).length) := by
  obtain ⟨rest, hrest⟩ := h
  conv_lhs => rw [← indentOf_append_contentOf l]
  rw [commentOf, ← hrest, List.drop_left]
  split_ifs with hspace
  · obtain ⟨tail, rfl⟩ := List.head?_eq_some_iff.mp hspace
    rw [← List.singleton_append, ← List.append_assoc token, List.drop_left]
  · rw [List.append_nil, List.drop_left]

/-- A token on a line leaves its terminator alone. -/
theorem keepsLine_withToken (hcolumn : column ≤ (indentOf l).length)
    (htoken : CommentProvider.LineToken token) : KeepsLine l (withToken token column l) := by
  rintro body ending rfl hbody hending
  have hfits : column ≤ body.length := by
    refine hcolumn.trans ?_
    have hnone : ending.takeWhile isIndent = [] := by
      cases ending with
      | nil => rfl
      | cons c ending =>
        have hc : isIndent c = false := by
          rcases hending c (List.mem_cons_self ..) with rfl | rfl <;> decide
        simp [hc]
    rw [indentOf, List.takeWhile_append]
    split_ifs
    · rw [hnone, List.append_nil]
    · exact (List.takeWhile_prefix _).length_le
  refine ⟨withToken token column body, ?_, ?_, fun hnil => ?_⟩
  · intro c hc
    simp only [withToken, List.mem_append, List.mem_cons] at hc
    rcases hc with hc | hc | rfl | hc
    · exact hbody c (List.mem_of_mem_take hc)
    · exact htoken.quiet c hc
    · decide
    · exact hbody c (List.mem_of_mem_drop hc)
  · simp only [withToken, List.take_append_of_le_length hfits, List.drop_append_of_le_length hfits,
      List.append_assoc, List.cons_append]
  · rw [withToken] at hnil
    simp at hnil

end

/-! ## §2 The lines of the selections -/

/-- The selection starts on the line, or some of it is there. -/
def Covers (snapshot : DocumentSnapshot) (s : Selection) (n : Nat) : Prop :=
  ∃ o, s.range.start ≤ o ∧ (o < s.range.stop ∨ o = s.range.start) ∧
    Lib.lineAt snapshot.bytes o = n

variable {u : Unicode} {snapshot : DocumentSnapshot} {set : SelectionSet} {limits : Limits}

theorem mem_insertLine {n m : Nat} {lines : List Nat} :
    m ∈ insertLine n lines ↔ m = n ∨ m ∈ lines := by
  rw [insertLine]
  split_ifs with hmem
  · exact ⟨.inr, fun h => h.elim (fun h => h ▸ hmem) id⟩
  · rw [List.mem_orderedInsert]

theorem insertLine_sorted {n : Nat} {lines : List Nat} (h : lines.Pairwise (· < ·)) :
    (insertLine n lines).Pairwise (· < ·) := by
  rw [insertLine]
  split_ifs with hmem
  · exact h
  have hle := (h.imp Nat.le_of_lt).orderedInsert n lines
  have hnodup : (lines.orderedInsert (· ≤ ·) n).Nodup :=
    (List.perm_orderedInsert (· ≤ ·) n lines).nodup_iff.mpr
      (List.nodup_cons.mpr ⟨hmem, h.imp Nat.ne_of_lt⟩)
  exact (hle.and hnodup).imp fun hab => Nat.lt_of_le_of_ne hab.1 hab.2

theorem insertLines_spec {lines ns out : List Nat} (h : insertLines limits lines ns = .ok out)
    (hsorted : lines.Pairwise (· < ·)) :
    out.Pairwise (· < ·) ∧ ∀ m, m ∈ out ↔ m ∈ lines ∨ m ∈ ns := by
  induction ns generalizing lines with
  | nil =>
    obtain rfl := Except.ok.inj h
    exact ⟨hsorted, fun m => by simp⟩
  | cons n ns ih =>
    rw [insertLines] at h
    split_ifs at h
    obtain ⟨hout, hmem⟩ := ih h (insertLine_sorted hsorted)
    refine ⟨hout, fun m => ?_⟩
    rw [hmem, mem_insertLine, List.mem_cons]
    tauto

/-- Stepping back to a boundary stays on the line. -/
theorem lineAt_boundaryUpTo (o : Nat) : Lib.lineAt snapshot.bytes
    (Search.boundaryUpTo snapshot.toDocumentSnapshot o) = Lib.lineAt snapshot.bytes o := by
  induction o with
  | zero => rfl
  | succ o ih =>
    rw [Search.boundaryUpTo]
    split_ifs with hboundary
    · rfl
    · have hends : endsLine snapshot.bytes (o + 1) = false :=
        Bool.eq_false_iff.mpr fun hends => hboundary (isScalarBoundary_of_endsLine hends)
      rw [ih, Lib.lineAt, hends]
      rfl

/-- The lines from the first to the last one of a selection are those it covers. -/
theorem covers_iff {s : Selection} (hle : s.anchor ≤ s.caret) {n : Nat} :
    Covers snapshot s n ↔ Lib.lineAt snapshot.bytes s.anchor ≤ n ∧
      n ≤ Lib.lineAt snapshot.bytes (lastScalar snapshot s) := by
  have hstart : s.range.start = s.anchor := Nat.min_eq_left hle
  have hstop : s.range.stop = s.caret := Nat.max_eq_right hle
  have hlast : Lib.lineAt snapshot.bytes (lastScalar snapshot s) =
      Lib.lineAt snapshot.bytes (if s.anchor < s.caret then s.caret - 1 else s.caret) := by
    rw [lastScalar]
    split_ifs
    · exact lineAt_boundaryUpTo _
    · rfl
  rw [Covers, hstart, hstop, hlast]
  constructor
  · rintro ⟨o, hlo, hhi, rfl⟩
    refine ⟨lineAt_mono _ hlo, lineAt_mono _ ?_⟩
    split_ifs <;> omega
  · rintro ⟨hfirst, hn⟩
    rcases Nat.eq_or_lt_of_le hfirst with rfl | hlt
    · exact ⟨s.anchor, Nat.le_refl _, .inr rfl, rfl⟩
    · obtain ⟨p, hp, hstarts⟩ := exists_startsAt _ hn
      have hafter : s.anchor < p := by
        by_contra hbefore
        have := lineAt_mono snapshot.bytes (Nat.le_of_not_lt hbefore)
        rw [hstarts.lineAt_eq] at this
        omega
      refine ⟨p, by omega, .inl ?_, hstarts.lineAt_eq⟩
      split_ifs at hp <;> omega

theorem coveredFrom_spec {ss : List Selection} {lines out : List Nat}
    (h : coveredFrom snapshot limits lines ss = .ok out) (hle : ∀ s ∈ ss, s.anchor ≤ s.caret)
    (hsorted : lines.Pairwise (· < ·)) :
    out.Pairwise (· < ·) ∧ ∀ n, n ∈ out ↔ n ∈ lines ∨ ∃ s ∈ ss, Covers snapshot s n := by
  induction ss generalizing lines with
  | nil =>
    obtain rfl := Except.ok.inj h
    exact ⟨hsorted, fun n => by simp⟩
  | cons s ss ih =>
    obtain ⟨first, hfirst, h⟩ := bind_ok.mp h
    obtain ⟨last, hlast, h⟩ := bind_ok.mp h
    obtain ⟨lines', hlines, h⟩ := bind_ok.mp h
    obtain ⟨hs, hss⟩ := List.forall_mem_cons.mp hle
    obtain ⟨hsorted', hmem⟩ := insertLines_spec hlines hsorted
    obtain ⟨hout, hcovered⟩ := ih h hss hsorted'
    obtain ⟨-, rfl⟩ := DocumentSnapshot.lineAt_spec hfirst
    obtain ⟨-, rfl⟩ := DocumentSnapshot.lineAt_spec hlast
    refine ⟨hout, fun n => ?_⟩
    have hrange : n ∈ List.range' (Lib.lineAt snapshot.bytes s.anchor)
        (Lib.lineAt snapshot.bytes (lastScalar snapshot s) + 1 -
          Lib.lineAt snapshot.bytes s.anchor) ↔ Covers snapshot s n := by
      rw [covers_iff hs, List.mem_range'_1]
      omega
    rw [hcovered, hmem, hrange, List.exists_mem_cons_iff]
    tauto

/-- A toggle works on the lines its selections cover once they are normalized. -/
def Selected (u : Unicode) (snapshot : DocumentSnapshot) (set : SelectionSet) (limits : Limits)
    (n : Nat) : Prop :=
  ∃ normalized, normalizeDirected u snapshot set limits = .ok normalized ∧
    ∃ s ∈ normalized.selections, Covers snapshot s n

theorem covered_spec {normalized : SelectionSet} {lines : List Nat}
    (hset : normalize u snapshot set limits = .ok normalized)
    (h : coveredFrom snapshot limits [] normalized.selections = .ok lines) :
    lines.Pairwise (· < ·) ∧ ∀ n, n ∈ lines ↔ Selected u snapshot set limits n := by
  obtain ⟨directed, hdirected, hset⟩ := bind_ok.mp hset
  obtain rfl := Except.ok.inj hset
  obtain ⟨hsorted, hmem⟩ := coveredFrom_spec h (fun s hs => by
    obtain ⟨t, -, rfl⟩ := List.mem_map.mp hs
    exact t.range_le) .nil
  refine ⟨hsorted, fun n => ?_⟩
  rw [hmem]
  have hrange : ∀ s : Selection, Covers snapshot ⟨s.range.start, s.range.stop⟩ n ↔
      Covers snapshot s n := by
    intro s
    have hsame : (⟨s.range.start, s.range.stop⟩ : Selection).range = s.range := by
      have := s.range_le
      rw [Selection.range, Nat.min_eq_left this, Nat.max_eq_right this]
    rw [Covers, Covers, hsame]
  constructor
  · rintro (hn | ⟨s, hs, hcovers⟩)
    · cases hn
    · obtain ⟨t, ht, rfl⟩ := List.mem_map.mp hs
      exact ⟨directed, hdirected, t, ht, (hrange t).mp hcovers⟩
  · rintro ⟨directed', hdirected', s, hs, hcovers⟩
    obtain rfl := Except.ok.inj (hdirected.symm.trans hdirected')
    exact .inr ⟨_, List.mem_map_of_mem hs, (hrange s).mpr hcovers⟩

/-! ## §3 The rows -/

variable {ls : List Text}

/-- The row of a line. -/
def rowOf (ls : List Text) (n : Nat) : CommentRow := ⟨utf8Len (ls.take n).flatten, ls.getD n []⟩

theorem commentRows_spec {bytes : Nat} {lines : List Nat} {rows : List CommentRow}
    (hls : LinesOf snapshot.text ls) (h : commentRows snapshot limits bytes lines = .ok rows) :
    rows = lines.map (rowOf ls) ∧ (∀ n ∈ lines, n < ls.length) ∧
      ∀ row ∈ rows, utf8Len row.text ≤ limits.maxBytes := by
  induction lines generalizing bytes rows with
  | nil =>
    obtain rfl := Except.ok.inj h
    exact ⟨rfl, nofun, nofun⟩
  | cons n lines ih =>
    obtain ⟨⟨start, text⟩, hline, h⟩ := bind_ok.mp h
    dsimp only at h
    split_ifs at h with hbudget
    obtain ⟨rest, hrest, h⟩ := bind_ok.mp h
    obtain rfl := Except.ok.inj h
    obtain ⟨rfl, hlt, hfits⟩ := ih hrest
    obtain ⟨hl, rfl⟩ := line_eq hls hline
    have hrow : rowOf ls n = ⟨utf8Len (ls.take n).flatten, text⟩ := by
      rw [rowOf, List.getD_eq_getElem?_getD, hl]
      rfl
    refine ⟨by rw [List.map_cons, hrow], ?_, List.forall_mem_cons.mpr ⟨?_, hfits⟩⟩
    · exact List.forall_mem_cons.mpr ⟨(List.getElem?_eq_some_iff.mp hl).1, hlt⟩
    · exact Nat.le_trans (Nat.le_add_left _ bytes) (Nat.le_of_not_lt hbudget)

/-- The blanks in front of a row. -/
theorem leading_eq (row : CommentRow) : row.leading = (indentOf row.text).length := by
  have hlen : utf8Len row.text = utf8Len (indentOf row.text) + utf8Len (contentOf row.text) := by
    rw [← String.utf8Len_append, indentOf_append_contentOf]
  rw [CommentRow.leading, hlen, ← contentOf, Nat.add_sub_cancel,
    utf8Len_indent isIndent_of_mem_indentOf]

theorem startsWith_iff {row : CommentRow} {token : Text} :
    row.startsWith token = true ↔ Commented token row.text := by
  have hget : getFrom row.text row.leading = some (contentOf row.text) := by
    have hparts := getFrom_append (indentOf row.text) (contentOf row.text)
    rwa [indentOf_append_contentOf, utf8Len_indent isIndent_of_mem_indentOf, ← leading_eq] at hparts
  rw [CommentRow.startsWith, hget, Option.any_some, List.isPrefixOf_iff_prefix, Commented]

theorem dropWhile_eq_nil_iff_blank {l : Text} : l.dropWhile isWhitespace = [] ↔ Blank l := by
  rw [List.dropWhile_eq_nil_iff]
  rfl

theorem blank_iff {row : CommentRow} : row.blank = true ↔ Blank row.text := by
  rw [CommentRow.blank, List.isEmpty_iff, trim, trimEnd, List.reverse_eq_nil_iff,
    dropWhile_eq_nil_iff_blank, trimStart]
  refine ⟨fun h => ?_, fun h => ?_⟩
  · rw [← dropWhile_eq_nil_iff_blank]
    by_contra hne
    obtain ⟨c, rest, hrest⟩ := List.exists_cons_of_ne_nil hne
    have hc : isWhitespace c = true := h c (by rw [hrest]; simp)
    have hnot := List.head?_dropWhile_not isWhitespace row.text
    rw [hrest] at hnot
    simp [hc] at hnot
  · rw [dropWhile_eq_nil_iff_blank.mpr h]
    exact nofun

/-! ## §4 The edits -/

variable {token : Text} {all : Bool} {column : Nat}

/-- What a toggle makes of a line. -/
def rewriteLine (token : Text) (all : Bool) (column : Nat) (l : Text) : Text :=
  if all then withoutToken token l else withToken token column l

/-- The change that does it to a line that starts at an offset. -/
def changeOf (token : Text) (all : Bool) (column offset : Nat) (l : Text) : Change UInt8 :=
  if all then ⟨offset + utf8Len (indentOf l), encode (commentOf token l), []⟩
  else ⟨offset + utf8Len (l.take column), [], encode (token ++ [' '])⟩

theorem patch_changeOf {l : Text} (offset : Nat) (hall : all = true → Commented token l) :
    Patch offset [changeOf token all column offset l] (encode l)
      (encode (rewriteLine token all column l)) := by
  cases all with
  | true =>
    refine ⟨encode (indentOf l), encode ((contentOf l).drop (commentOf token l).length), _,
      ?_, ?_, ?_, rfl⟩
    · conv_lhs => rw [withoutToken_parts (hall rfl)]
      simp [changeOf]
    · simp [changeOf, rewriteLine, withoutToken]
    · simp [changeOf]
  | false =>
    refine ⟨encode (l.take column), encode (l.drop column), _, ?_, ?_, ?_, rfl⟩
    · conv_lhs => rw [← List.take_append_drop column l, encode_append]
      simp [changeOf]
    · have hassoc : withToken token column l =
          l.take column ++ ((token ++ [' ']) ++ l.drop column) := by
        simp [withToken]
      rw [rewriteLine, if_neg Bool.false_ne_true, hassoc, encode_append, encode_append,
        ← List.append_assoc]
      rfl
    · simp [changeOf]

/-- The edit of a row is that change. -/
theorem lineEdit_toSplice {row : CommentRow} (hall : all = true → Commented token row.text)
    (hcolumn : all = false → column ≤ (indentOf row.text).length) :
    (lineEdit token all column row).toSplice =
      (changeOf token all column row.start row.text).toSplice := by
  cases all with
  | true =>
    have hlead : row.leading = utf8Len (indentOf row.text) := by
      rw [leading_eq, utf8Len_indent isIndent_of_mem_indentOf]
    obtain ⟨rest, hrest⟩ := hall rfl
    have hget : getFrom row.text (row.leading + utf8Len token) = some rest := by
      have hparts := getFrom_append (indentOf row.text ++ token) rest
      rwa [List.append_assoc, hrest, indentOf_append_contentOf, String.utf8Len_append,
        ← hlead] at hparts
    have hsize : ' '.utf8Size = 1 := rfl
    rw [hlead] at hget
    rw [lineEdit, changeOf, commentOf, ← hrest, List.drop_left]
    by_cases hspace : rest.head? = some ' ' <;>
      simp [hget, Edit.toSplice, Change.toSplice, Change.stop, hlead, hspace, Nat.add_assoc, hsize]
  | false =>
    have htake := (take_indent (hcolumn rfl)).2
    rw [lineEdit, changeOf]
    simp [Edit.toSplice, Change.toSplice, Change.stop, htake]

/-- A toggle rewrites the line: it is selected and not blank. -/
def lineChanges (token : Text) (all : Bool) (column : Nat) (lines : List Nat) (n offset : Nat)
    (l : Text) : List (Change UInt8) :=
  if n ∈ lines ∧ ¬Blank l then [changeOf token all column offset l] else []

/-- The lines behind a toggle. -/
def toggledLine (token : Text) (all : Bool) (column : Nat) (lines : List Nat) (n : Nat)
    (l : Text) : Text :=
  if n ∈ lines ∧ ¬Blank l then rewriteLine token all column l else l

theorem foldl_min_le {rows : List CommentRow} {start : Nat} :
    rows.foldl (fun indent row => min indent row.leading) start ≤ start ∧
      ∀ row ∈ rows, rows.foldl (fun indent row => min indent row.leading) start ≤ row.leading := by
  induction rows generalizing start with
  | nil => exact ⟨Nat.le_refl _, nofun⟩
  | cons row rows ih =>
    obtain ⟨hstart, hrows⟩ := @ih (min start row.leading)
    rw [List.foldl_cons]
    refine ⟨hstart.trans (Nat.min_le_left _ _), List.forall_mem_cons.mpr ⟨?_, hrows⟩⟩
    exact hstart.trans (Nat.min_le_right _ _)

/-- The common column is no further than the blanks of any row. -/
theorem commentIndent_le {rows : List CommentRow} {row : CommentRow} (hrow : row ∈ rows)
    (hblank : ¬Blank row.text) : commentIndent limits rows ≤ (indentOf row.text).length := by
  rw [← leading_eq]
  refine (Nat.min_le_left _ _).trans (foldl_min_le.2 row (List.mem_filter.mpr ⟨hrow, ?_⟩))
  rw [Bool.not_eq_true', ← Bool.not_eq_true, blank_iff]
  exact hblank

/-- Every row that is not blank starts with the token. -/
theorem allCommented_iff {rows : List CommentRow} : allCommented token rows = true ↔
    ∀ row ∈ rows, ¬Blank row.text → Commented token row.text := by
  rw [allCommented, List.all_eq_true]
  refine forall₂_congr fun row _ => ?_
  rw [Bool.or_eq_true, blank_iff, startsWith_iff, or_iff_not_imp_left]

/-- The edits are the changes of the lines. -/
theorem lineEdits_splices {lines : List Nat} (hsorted : lines.Pairwise (· < ·))
    (hinside : ∀ n ∈ lines, n < ls.length)
    (hall : all = true → ∀ n ∈ lines, ¬Blank (rowOf ls n).text → Commented token (rowOf ls n).text)
    (hcolumn : ∀ n ∈ lines, ¬Blank (rowOf ls n).text →
      column ≤ (indentOf (rowOf ls n).text).length) :
    ((((lines.map (rowOf ls)).filter fun row => !row.blank).map
      (lineEdit token all column)).map Edit.toSplice) =
      (changesFrom (lineChanges token all column lines) 0 ls).map Change.toSplice := by
  have hidle : ∀ n c l, n ∉ lines → lineChanges token all column lines n c l = [] :=
    fun n c l hn => if_neg fun h => hn h.1
  rw [changesFrom_selected 0 hsorted hinside hidle]
  have hsome : ∀ ns : List Nat, (∀ n ∈ ns, n ∈ lines) →
      ((((ns.map (rowOf ls)).filter fun row => !row.blank).map
        (lineEdit token all column)).map Edit.toSplice) =
        (ns.flatMap fun n => lineChanges token all column lines n
          (0 + utf8Len (ls.take n).flatten) (ls.getD n [])).map Change.toSplice := by
    intro ns hsub
    induction ns with
    | nil => rfl
    | cons n ns ih =>
      obtain ⟨hn, hns⟩ := List.forall_mem_cons.mp hsub
      rw [List.map_cons, List.flatMap_cons, List.map_append, ← ih hns, List.filter_cons,
        lineChanges]
      by_cases hblank : Blank (rowOf ls n).text
      · rw [if_neg (by simpa using blank_iff.mpr hblank), if_neg fun h => h.2 hblank]
        rfl
      · have hrow : (!(rowOf ls n).blank) = true := by
          rw [Bool.not_eq_true', ← Bool.not_eq_true, blank_iff]
          exact hblank
        rw [if_pos hrow, List.map_cons, List.map_cons,
          lineEdit_toSplice (fun h => hall h n hn hblank) fun _ => hcolumn n hn hblank,
          if_pos ⟨hn, hblank⟩, Nat.zero_add]
        rfl
  exact hsome lines fun _ => id

/-! ## §5 What a toggle does -/

/-- What a toggle of line comments has done to the lines of a text. -/
structure ToggleOf (u : Unicode) (snapshot : DocumentSnapshot) (set : SelectionSet)
    (limits : Limits) (token : Text) (prepared : PowerEdit) (ls : List Text) (lines : List Nat)
    (all : Bool) (column : Nat) : Prop where
  sorted : lines.Pairwise (· < ·)
  selected : ∀ n, n ∈ lines ↔ Selected u snapshot set limits n
  inside : ∀ n ∈ lines, n < ls.length
  commented : all = true ↔ ∀ n ∈ lines, ∀ l, ls[n]? = some l → ¬Blank l → Commented token l
  common : ∀ n ∈ lines, ∀ l, ls[n]? = some l → ¬Blank l → column ≤ (indentOf l).length
  edits : prepared.edits = ((lines.map (rowOf ls)).filter fun row => !row.blank).map
    (lineEdit token all column)
  applied : prepared.applied snapshot =
    encode (ls.mapIdx (toggledLine token all column lines)).flatten

theorem rowOf_text {n : Nat} {l : Text} (hl : ls[n]? = some l) : (rowOf ls n).text = l := by
  rw [rowOf, List.getD_eq_getElem?_getD, hl]
  rfl

theorem toggle_spec {tokens : CommentTokens} {prepared : PowerEdit}
    (hls : LinesOf snapshot.text ls) (htoken : tokens.line = some token)
    (h : toggleComment u snapshot set (some tokens) false limits = .ok prepared) :
    ∃ lines all column, ToggleOf u snapshot set limits token prepared ls lines all column := by
  obtain ⟨tokens', htokens, h⟩ := bind_ok.mp h
  obtain rfl := Except.ok.inj htokens
  obtain ⟨normalized, hset, h⟩ := bind_ok.mp h
  rw [if_neg Bool.false_ne_true] at h
  obtain ⟨token', hline, h⟩ := bind_ok.mp h
  rw [htoken] at hline
  obtain rfl := Except.ok.inj hline
  obtain ⟨lines, hlines, h⟩ := bind_ok.mp h
  obtain ⟨rows, hrows, h⟩ := bind_ok.mp h
  obtain ⟨hsorted, hselected⟩ := covered_spec hset hlines
  obtain ⟨rfl, hinside, -⟩ := commentRows_spec hls hrows
  have hget : ∀ n ∈ lines, ls[n]? = some (rowOf ls n).text := fun n hn => by
    have hl := List.getElem?_eq_getElem (hinside n hn)
    rw [rowOf_text hl, hl]
  have hall : allCommented token (lines.map (rowOf ls)) = true ↔
      ∀ n ∈ lines, ¬Blank (rowOf ls n).text → Commented token (rowOf ls n).text := by
    rw [allCommented_iff, List.forall_mem_map]
  have hcolumn : ∀ n ∈ lines, ¬Blank (rowOf ls n).text →
      commentIndent limits (lines.map (rowOf ls)) ≤ (indentOf (rowOf ls n).text).length :=
    fun n hn => commentIndent_le (List.mem_map_of_mem hn)
  have hsplices := lineEdits_splices hsorted hinside hall.mp hcolumn
  have hpatch : Patch 0 (changesFrom (lineChanges token (allCommented token (lines.map (rowOf ls)))
      (commentIndent limits (lines.map (rowOf ls))) lines) 0 ls) (encode ls.flatten)
      (encode (ls.mapIdx (toggledLine token (allCommented token (lines.map (rowOf ls)))
        (commentIndent limits (lines.map (rowOf ls))) lines)).flatten) := by
    refine patch_changesFrom fun n c l hl => ?_
    rw [lineChanges, toggledLine]
    split_ifs with hn
    · refine patch_changeOf c fun hyes => ?_
      have := hall.mp hyes n hn.1
      rw [rowOf_text hl] at this
      exact this hn.2
    · exact rfl
  have hedits : prepared.edits = lineEdits token limits (lines.map (rowOf ls)) := by
    refine finish_edits (edits_sorted (c := 0) (n := 0 + (encode ls.flatten).length) ?_) h
    rw [lineEdits, hsplices]
    exact hpatch.ordered
  refine ⟨lines, _, _, hsorted, hselected, hinside, ?_, ?_, hedits, ?_⟩
  · rw [hall]
    refine forall₂_congr fun n hn => ⟨fun h l hl hblank => ?_, fun h => h _ (hget n hn)⟩
    rw [rowOf_text hl] at h
    exact h hblank
  · intro n hn l hl hblank
    have := hcolumn n hn
    rw [rowOf_text hl] at this
    exact this hblank
  · rw [PowerEdit.applied, hedits, lineEdits, hsplices, ← hls.flatten]
    exact hpatch.spliceFrom_eq

/-- Some line of the selections is not blank and does not start with the token. -/
def Adds (token : Text) (ls : List Text) (selected : Nat → Prop) : Prop :=
  ∃ n l, ls[n]? = some l ∧ selected n ∧ ¬Blank l ∧ ¬Commented token l

/-- What a toggle owes to the lines of a text. -/
structure LinesToggled (token : Text) (ls : List Text) (selected : Nat → Prop) (edits : List Edit)
    (ls' : List Text) : Prop where
  length : ls'.length = ls.length
  kept : ∀ n l, ls[n]? = some l → ¬selected n ∨ Blank l → ls'[n]? = some l
  removed : ¬Adds token ls selected → ∀ n l, ls[n]? = some l → selected n → ¬Blank l →
    Commented token l ∧ ls'[n]? = some (withoutToken token l)
  added : Adds token ls selected → ∃ column, ∀ n l, ls[n]? = some l → selected n → ¬Blank l →
    column ≤ (indentOf l).length ∧ ls'[n]? = some (withToken token column l)
  /-- One edit for each of these lines, inside it. -/
  once : ∃ ns : List Nat, ns.Pairwise (· < ·) ∧
    (∀ n, n ∈ ns ↔ ∃ l, ls[n]? = some l ∧ selected n ∧ ¬Blank l) ∧
    List.Forall₂ (fun n e => utf8Len (ls.take n).flatten ≤ e.range.start ∧
      e.range.start ≤ e.range.stop ∧ e.range.stop ≤ utf8Len (ls.take (n + 1)).flatten) ns edits

namespace ToggleOf

variable {prepared : PowerEdit} {lines : List Nat}

theorem all_iff (h : ToggleOf u snapshot set limits token prepared ls lines all column) :
    all = true ↔ ¬Adds token ls (Selected u snapshot set limits) := by
  rw [h.commented]
  constructor
  · rintro hall ⟨n, l, hl, hn, hblank, hnot⟩
    exact hnot (hall n ((h.selected n).mpr hn) l hl hblank)
  · intro hnone n hn l hl hblank
    by_contra hnot
    exact hnone ⟨n, l, hl, (h.selected n).mp hn, hblank, hnot⟩

theorem getElem?_toggled {n : Nat} {l : Text} (hl : ls[n]? = some l) :
    (ls.mapIdx (toggledLine token all column lines))[n]? =
      some (toggledLine token all column lines n l) := by
  rw [List.getElem?_mapIdx, hl]
  rfl

/-- The edit of a row lies inside its line. -/
theorem edit_inside (h : ToggleOf u snapshot set limits token prepared ls lines all column)
    {n : Nat} (hn : n ∈ lines) {l : Text} (hl : ls[n]? = some l) (hblank : ¬Blank l) :
    utf8Len (ls.take n).flatten ≤ (lineEdit token all column (rowOf ls n)).range.start ∧
      (lineEdit token all column (rowOf ls n)).range.start ≤
        (lineEdit token all column (rowOf ls n)).range.stop ∧
      (lineEdit token all column (rowOf ls n)).range.stop ≤
        utf8Len (ls.take (n + 1)).flatten := by
  have hsplice := @lineEdit_toSplice token all column (rowOf ls n)
    (by rw [rowOf_text hl]; exact fun hall => h.commented.mp hall n hn l hl hblank)
    (by rw [rowOf_text hl]; exact fun _ => h.common n hn l hl hblank)
  rw [rowOf_text hl] at hsplice
  have hpatch := @patch_changeOf token all column l (utf8Len (ls.take n).flatten)
    fun hall => h.commented.mp hall n hn l hl hblank
  have hordered := hpatch.ordered
  have hnext : utf8Len (ls.take (n + 1)).flatten =
      utf8Len (ls.take n).flatten + (encode l).length := by
    rw [List.take_add_one, hl, Option.toList_some, List.flatten_concat, String.utf8Len_append,
      length_encode]
  rw [List.map_singleton] at hordered
  have hstart : (rowOf ls n).start = utf8Len (ls.take n).flatten := rfl
  rw [hstart] at hsplice
  rw [← hsplice, ← hnext] at hordered
  exact hordered

/-- A toggle does to the lines what it owes them. -/
theorem linesToggled (h : ToggleOf u snapshot set limits token prepared ls lines all column) :
    LinesToggled token ls (Selected u snapshot set limits) prepared.edits
      (ls.mapIdx (toggledLine token all column lines)) where
  length := List.length_mapIdx
  kept n l hl hn := by
    rw [getElem?_toggled hl, toggledLine, if_neg]
    rintro ⟨hmem, hblank⟩
    exact hn.elim (fun hn => hn ((h.selected n).mp hmem)) hblank
  removed hnone n l hl hn hblank := by
    have hall := h.all_iff.mpr hnone
    have hmem := (h.selected n).mpr hn
    refine ⟨h.commented.mp hall n hmem l hl hblank, ?_⟩
    rw [getElem?_toggled hl, toggledLine, if_pos ⟨hmem, hblank⟩, rewriteLine, if_pos hall]
  added hadds := by
    have hall : ¬all = true := fun hall => h.all_iff.mp hall hadds
    refine ⟨column, fun n l hl hn hblank => ?_⟩
    have hmem := (h.selected n).mpr hn
    refine ⟨h.common n hmem l hl hblank, ?_⟩
    rw [getElem?_toggled hl, toggledLine, if_pos ⟨hmem, hblank⟩, rewriteLine, if_neg hall]
  once := by
    refine ⟨lines.filter fun n => !(rowOf ls n).blank, h.sorted.filter _, fun n => ?_, ?_⟩
    · rw [List.mem_filter, Bool.not_eq_true', ← Bool.not_eq_true, blank_iff, h.selected]
      constructor
      · rintro ⟨hn, hblank⟩
        have hl := List.getElem?_eq_getElem (h.inside n ((h.selected n).mpr hn))
        rw [rowOf_text hl] at hblank
        exact ⟨_, hl, hn, hblank⟩
      · rintro ⟨l, hl, hn, hblank⟩
        rw [rowOf_text hl]
        exact ⟨hn, hblank⟩
    · rw [h.edits, List.filter_map, List.map_map, List.forall₂_map_right_iff]
      refine List.forall₂_same.mpr fun n hn => ?_
      obtain ⟨hn, hrow⟩ := List.mem_filter.mp hn
      have hl := List.getElem?_eq_getElem (h.inside n hn)
      rw [Bool.not_eq_true', ← Bool.not_eq_true, blank_iff, rowOf_text hl] at hrow
      exact h.edit_inside hn hl hrow

end ToggleOf

/-! ## §6 The toggle behind it -/

section

variable {prepared : PowerEdit} {lines : List Nat}

/-- Lines with tokens are lines. -/
theorem linesOf_added (hls : LinesOf snapshot.text ls) (htoken : CommentProvider.LineToken token)
    (h : ToggleOf u snapshot set limits token prepared ls lines false column) :
    LinesOf (ls.mapIdx (toggledLine token false column lines)).flatten
      (ls.mapIdx (toggledLine token false column lines)) := by
  refine (hls.rewritten fun n l hl => ?_).1
  rw [toggledLine]
  split_ifs with hn
  · exact keepsLine_withToken (h.common n hn.1 l hl hn.2) htoken
  · exact KeepsLine.refl l

/-- Tokens make a text longer. -/
theorem length_toggled (ls : List Text) (f : Nat → Text → Text)
    (hle : ∀ n l, ls[n]? = some l → l.length ≤ (f n l).length) :
    ls.flatten.length ≤ (ls.mapIdx f).flatten.length ∧
      ∀ n l, ls[n]? = some l → l.length < (f n l).length →
        ls.flatten.length < (ls.mapIdx f).flatten.length := by
  induction ls generalizing f with
  | nil => exact ⟨Nat.le_refl _, nofun⟩
  | cons l ls ih =>
    obtain ⟨hrest, hmore⟩ := ih (fun n => f (n + 1)) fun n l' hl' => hle (n + 1) l' hl'
    have hfirst := hle 0 l rfl
    rw [List.mapIdx_cons, List.flatten_cons, List.flatten_cons, List.length_append,
      List.length_append]
    refine ⟨by omega, fun n l' hl' hlt => ?_⟩
    cases n with
    | zero =>
      obtain rfl := Option.some.inj hl'
      omega
    | succ n =>
      have := hmore n l' hl' hlt
      omega

theorem length_toggledLine (n : Nat) (l : Text) :
    l.length ≤ (toggledLine token false column lines n l).length ∧
      (n ∈ lines → ¬Blank l → l.length < (toggledLine token false column lines n l).length) := by
  have hlonger : l.length < (withToken token column l).length := by
    have := congrArg List.length (List.take_append_drop column l)
    simp only [List.length_append] at this
    simp only [withToken, List.length_append, List.length_cons]
    omega
  rw [toggledLine]
  split_ifs with hn
  · exact ⟨Nat.le_of_lt hlonger, fun _ _ => hlonger⟩
  · exact ⟨Nat.le_refl _, fun hmem hblank => absurd ⟨hmem, hblank⟩ hn⟩

end

/-- What toggling twice comes to: the first toggle does to every line what it owes, and where it
adds tokens, one that covers the same lines brings the text back just if the token does not start
with a blank. -/
theorem toggle_toggle {provider : CommentProvider} {tokens : CommentTokens} {prepared : PowerEdit}
    (hvalid : provider.Valid) (htokens : provider.TokensFor tokens)
    (htoken : tokens.line = some token) (hls : LinesOf snapshot.text ls)
    (h : toggleComment u snapshot set (some tokens) false limits = .ok prepared) :
    ∃ ls', prepared.applied snapshot = encode ls'.flatten ∧
      LinesToggled token ls (Selected u snapshot set limits) prepared.edits ls' ∧
      (Adds token ls (Selected u snapshot set limits) →
        ∀ next set' limits' again, next.bytes = prepared.applied snapshot →
          (∀ n, Selected u next set' limits' n ↔ Selected u snapshot set limits n) →
          toggleComment u next set' (some tokens) false limits' = .ok again →
          (again.applied next = snapshot.bytes ↔ ¬StartsBlank token)) := by
  have hline := htokens.lineToken hvalid htoken
  obtain ⟨lines, all, column, htoggle⟩ := toggle_spec hls htoken h
  refine ⟨_, htoggle.applied, htoggle.linesToggled, ?_⟩
  intro hadds next set' limits' again hnext hsame hagain
  obtain rfl : all = false := by
    rw [← Bool.not_eq_true, htoggle.all_iff, not_not]
    exact hadds
  -- the second toggle starts from the lines with tokens
  have hls' := linesOf_added hls hline htoggle
  have htext : next.text = (ls.mapIdx (toggledLine token false column lines)).flatten :=
    encode_injective (hnext.trans htoggle.applied)
  obtain ⟨lines', all', column', hsecond⟩ := toggle_spec (htext ▸ hls') htoken hagain
  have hmem : ∀ n, n ∈ lines' ↔ n ∈ lines := fun n => by
    rw [hsecond.selected, hsame, htoggle.selected]
  have htoggled : ∀ n l, ls[n]? = some l → n ∈ lines → ¬Blank l →
      toggledLine token false column lines n l = withToken token column l :=
    fun n l _ hn hblank => if_pos ⟨hn, hblank⟩
  rw [hsecond.applied, DocumentSnapshot.bytes, ← hls.flatten]
  constructor
  · intro happlied hstarts
    obtain ⟨n, l, hl, hn, hblank, -⟩ := hadds
    have hn := (htoggle.selected n).mpr hn
    have hl' : (ls.mapIdx (toggledLine token false column lines))[n]? =
        some (withToken token column l) := by
      rw [ToggleOf.getElem?_toggled hl, htoggled n l hl hn hblank]
    obtain rfl : all' = false := by
      by_contra hall
      exact not_commented_of_startsBlank hstarts (hsecond.commented.mp (by simpa using hall) n
        ((hmem n).mpr hn) _ hl' (blank_withToken hblank))
    have hfirst := (length_toggled ls (toggledLine token false column lines)
      fun n l _ => (length_toggledLine n l).1).1
    have hagain := (length_toggled _ (toggledLine token false column' lines')
      fun n l _ => (length_toggledLine n l).1).2 n _ hl'
      ((length_toggledLine n _).2 ((hmem n).mpr hn) (blank_withToken hblank))
    rw [encode_injective happlied] at hagain
    omega
  · intro hplain
    obtain rfl : all' = true := by
      rw [hsecond.commented]
      intro n hn l' hl' hblank'
      obtain ⟨l, hl⟩ : ∃ l, ls[n]? = some l :=
        ⟨_, List.getElem?_eq_getElem (htoggle.inside n ((hmem n).mp hn))⟩
      rw [ToggleOf.getElem?_toggled hl] at hl'
      obtain rfl := Option.some.inj hl'
      have hn := (hmem n).mp hn
      by_cases hblank : Blank l
      · rw [toggledLine, if_neg fun h => h.2 hblank] at hblank'
        exact absurd hblank hblank'
      · rw [htoggled n l hl hn hblank]
        exact commented_withToken (htoggle.common n hn l hl hblank) hline.nonempty hplain
    congr 2
    refine List.ext_getElem? fun n => ?_
    cases hl : ls[n]? with
    | none =>
      rw [List.getElem?_mapIdx, List.getElem?_mapIdx, hl]
      rfl
    | some l =>
      rw [ToggleOf.getElem?_toggled (ToggleOf.getElem?_toggled hl)]
      by_cases hn : n ∈ lines ∧ ¬Blank l
      · rw [htoggled n l hl hn.1 hn.2, toggledLine,
          if_pos ⟨(hmem n).mpr hn.1, blank_withToken hn.2⟩, rewriteLine, if_pos rfl,
          withoutToken_withToken (htoggle.common n hn.1 l hl hn.2) hline.nonempty hplain]
      · have hkept : toggledLine token false column lines n l = l := if_neg hn
        rw [hkept, toggledLine, if_neg]
        rw [hmem]
        exact hn

/-- A caret at the start of the text. -/
def caretAtStart : SelectionSet := ⟨[⟨0, 0⟩], 0⟩

theorem selected_caretAtStart
    (h : normalizeDirected u snapshot set limits = .ok caretAtStart) {n : Nat} :
    Selected u snapshot set limits n ↔ n = 0 := by
  constructor
  · rintro ⟨normalized, hnormalized, s, hs, o, -, ho, rfl⟩
    obtain rfl := Except.ok.inj (h.symm.trans hnormalized)
    obtain rfl := List.mem_singleton.mp hs
    obtain rfl : o = 0 := ho.resolve_left (Nat.not_lt_zero o)
    rfl
  · rintro rfl
    exact ⟨_, h, ⟨0, 0⟩, List.mem_singleton_self _, 0, Nat.le_refl _, .inr rfl, rfl⟩

/-- The line `x`, commented out and back in. -/
theorem toggle_toggle_slashes : ∃ prepared again,
    let slashes : CommentTokens := ⟨some ['/', '/'], some (['/', '*'], ['*', '/'])⟩
    toggleComment ascii (opened ['x'] (by decide)) caretAtStart (some slashes) false roomy =
      .ok prepared ∧
    toggleComment ascii (opened ['/', '/', ' ', 'x'] (by decide)) caretAtStart (some slashes) false
      roomy = .ok again ∧
    again.applied (opened ['/', '/', ' ', 'x'] (by decide)) =
      (opened ['x'] (by decide)).bytes := by
  refine ⟨⟨1, [⟨⟨0, 0⟩, ['/', '/', ' ']⟩], ⟨[⟨3, 3⟩], 0⟩⟩, ⟨1, [⟨⟨0, 3⟩, []⟩], ⟨[⟨0, 0⟩], 0⟩⟩,
    by decide +kernel, by decide +kernel, ?_⟩
  have hselected := fun n => @selected_caretAtStart ascii (opened ['x'] (by decide)) caretAtStart
    roomy (by decide +kernel) n
  have hselected' := fun n => @selected_caretAtStart ascii
    (opened ['/', '/', ' ', 'x'] (by decide)) caretAtStart roomy (by decide +kernel) n
  obtain ⟨ls', -, -, hback⟩ := @toggle_toggle ascii (opened ['x'] (by decide)) caretAtStart roomy
    [['x']] ['/', '/'] (.language .rust) ⟨some ['/', '/'], some (['/', '*'], ['*', '/'])⟩
    ⟨1, [⟨⟨0, 0⟩, ['/', '/', ' ']⟩], ⟨[⟨3, 3⟩], 0⟩⟩ trivial ⟨by decide, by decide, by decide⟩ rfl
    (.last (by decide : NoBreak ['x'])) (by decide +kernel)
  refine (hback ⟨0, ['x'], rfl, (hselected 0).mpr rfl, by decide, ?_⟩ _ caretAtStart roomy _
    (by decide +kernel) (fun n => (hselected' n).trans (hselected n).symm)
    (by decide +kernel)).mpr (show ¬(some '/').any isIndent = true by decide)
  show ¬['/', '/'] <+: contentOf ['x']
  decide

/-- A definition whose comments start with a space. -/
def spacedHash : Syntax.Definition := ⟨1, [97], [], [], [], [], some [32, 35], none, [], []⟩

/-- Its comments pile up: the second toggle adds one more. -/
theorem spaced_comments_pile_up : ∃ tokens prepared again,
    (CommentProvider.definition spacedHash).Valid ∧
    (CommentProvider.definition spacedHash).TokensFor tokens ∧
    tokens.line = some [' ', '#'] ∧ LinesOf (opened ['x'] (by decide)).text [['x']] ∧
    toggleComment ascii (opened ['x'] (by decide)) caretAtStart (some tokens) false roomy =
      .ok prepared ∧
    Adds [' ', '#'] [['x']] (Selected ascii (opened ['x'] (by decide)) caretAtStart roomy) ∧
    (opened [' ', '#', ' ', 'x'] (by decide)).bytes =
      prepared.applied (opened ['x'] (by decide)) ∧
    (∀ n, Selected ascii (opened [' ', '#', ' ', 'x'] (by decide)) caretAtStart roomy n ↔
      Selected ascii (opened ['x'] (by decide)) caretAtStart roomy n) ∧
    toggleComment ascii (opened [' ', '#', ' ', 'x'] (by decide)) caretAtStart (some tokens) false
      roomy = .ok again ∧
    again.applied (opened [' ', '#', ' ', 'x'] (by decide)) =
      encode [' ', ' ', '#', ' ', '#', ' ', 'x'] := by
  have hselected := fun n => @selected_caretAtStart ascii (opened ['x'] (by decide)) caretAtStart
    roomy (by decide +kernel) n
  have hselected' := fun n => @selected_caretAtStart ascii
    (opened [' ', '#', ' ', 'x'] (by decide)) caretAtStart roomy (by decide +kernel) n
  refine ⟨⟨some [' ', '#'], none⟩, ⟨1, [⟨⟨0, 0⟩, [' ', '#', ' ']⟩], ⟨[⟨3, 3⟩], 0⟩⟩,
    ⟨1, [⟨⟨1, 1⟩, [' ', '#', ' ']⟩], ⟨[⟨4, 4⟩], 0⟩⟩, show spacedHash.validate = .ok () by decide,
    ⟨by decide, by decide, by decide⟩,
    rfl, .last (by decide : NoBreak ['x']), by decide +kernel,
    ⟨0, ['x'], rfl, (hselected 0).mpr rfl, by decide, ?_⟩,
    by decide +kernel, fun n => (hselected' n).trans (hselected n).symm, by decide +kernel,
    by decide +kernel⟩
  show ¬[' ', '#'] <+: contentOf ['x']
  decide

end BareLine.Power.Completion
