import BareLine.Power.RowCuts
import BareLine.Power.Steps

/-!
# What the edits of a rectangle do

An insertion or a deletion rewrites the rows of its rectangle, each for itself, in front of its
terminator: the clusters on either side of the columns stay, and where an edge cuts a tab, spaces
stand for the columns outside.
-/

namespace BareLine.Power

open Lib
open Search (Text)
open String (utf8Len)

/-! ## §1 The commands -/

/-- A command on a rectangle. -/
inductive ColumnCommand where
  | insert (what : ColumnInsert)
  | delete (backward : Option Bool)
  deriving DecidableEq, Repr

/-- The function that runs the command. -/
def ColumnCommand.run (u : Unicode) (snapshot : DocumentSnapshot) (rectangle : Rectangle)
    (limits : Limits) (maps : Option (Nat → Option DisplayColumnMap)) :
    ColumnCommand → Except Error PowerEdit
  | .insert what => columnInsertMapped u snapshot rectangle what limits maps
  | .delete backward => rectangleDeleteMapped u snapshot rectangle backward limits maps

/-- The terminator at the end of a line. -/
def terminator (l : Text) : Text := l.rtakeWhile isBreak

theorem content_append_terminator (l : Text) : content l ++ terminator l = l := by
  rw [content, terminator, List.rdropWhile, List.rtakeWhile, ← List.reverse_append,
    List.takeWhile_append_dropWhile, List.reverse_reverse]

/-- A row is cut, and a value is put in between spaces. -/
def Rewrites (u : Unicode) (l l' value : Text)
    (Cut : List Text → List Text → List Text → Nat → Nat → Prop) : Prop :=
  ∃ before removed behind pad suffix, u.graphemes (content l) = before ++ (removed ++ behind) ∧
    Cut before removed behind pad suffix ∧
    l' = before.flatten ++ (List.replicate pad ' ' ++ (value ++ List.replicate suffix ' ') ++
      (behind.flatten ++ terminator l))

/-- What a command does to a row. -/
def ColumnCommand.Row (u : Unicode) (rectangle : Rectangle) (limits : Limits) (tabs : Nat → Nat)
    (widths : Nat → Text → Nat) (n : Nat) (l l' : Text) : ColumnCommand → Prop
  | .insert what => ∃ value, what.value (n - rectangle.firstLine) limits = .ok value ∧
      Rewrites u l l' value (ColumnsCut (tabs n) (widths n) rectangle.left rectangle.right)
  | .delete backward => Rewrites u l l' []
      (Deleted (tabs n) (widths n) rectangle.left rectangle.right backward)

/-- The rows are shown with these tab widths and widths of clusters. -/
structure Shown (u : Unicode) (limits : Limits) (maps : Option (Nat → Option DisplayColumnMap))
    (ls : List Text) (tabs : Nat → Nat) (widths : Nat → Text → Nat) : Prop where
  pos : ∀ n g, 0 < widths n g
  map : ∀ n l map, ls[n]? = some l → rowMap u limits maps n (content l) = .ok map →
    map = DisplayColumnMap.withMetrics u (content l) (tabs n) (widths n)

/-- Without maps the fallback widths are used. -/
theorem Shown.fallback (u : Unicode) (limits : Limits) (ls : List Text) :
    Shown u limits none ls (fun _ => limits.tabWidth) (fun _ => fallbackWidth) :=
  ⟨fun _ => fallbackWidth_pos, fun _ _ _ _ hmap => (Except.ok.inj hmap).symm⟩

/-! ## §2 Rows rewritten one after the other -/

variable {u : Unicode} {snapshot : DocumentSnapshot} {rectangle : Rectangle} {limits : Limits}
  {maps : Option (Nat → Option DisplayColumnMap)} {ls : List Text} {tabs : Nat → Nat}
  {widths : Nat → Text → Nat}

/-- Lines from one on are rewritten, each by one edit at most. -/
inductive RowEdits (ls : List Text) (Row : Nat → Text → Text → Prop) :
    Nat → Nat → List Edit → List Text → Prop where
  | done (n : Nat) : RowEdits ls Row n 0 [] []
  | edit {n k : Nat} {edits : List Edit} {news : List Text} {a r b insert : Text}
      (line : ls[n]? = some (a ++ (r ++ b))) (row : Row n (a ++ (r ++ b)) (a ++ (insert ++ b)))
      (rest : RowEdits ls Row (n + 1) k edits news) :
      RowEdits ls Row n (k + 1)
        (⟨⟨utf8Len (ls.take n).flatten + utf8Len a,
          utf8Len (ls.take n).flatten + utf8Len (a ++ r)⟩, insert⟩ :: edits)
        ((a ++ (insert ++ b)) :: news)
  | keep {n k : Nat} {edits : List Edit} {news : List Text} {l : Text}
      (line : ls[n]? = some l) (row : Row n l l) (rest : RowEdits ls Row (n + 1) k edits news) :
      RowEdits ls Row n (k + 1) edits (l :: news)

namespace RowEdits

variable {Row : Nat → Text → Text → Prop} {n k : Nat} {edits : List Edit} {news : List Text}

theorem length (h : RowEdits ls Row n k edits news) : news.length = k := by
  induction h with
  | done => rfl
  | edit line row rest ih => rw [List.length_cons, ih]
  | keep line row rest ih => rw [List.length_cons, ih]

/-- Each row becomes what it should. -/
theorem rows (h : RowEdits ls Row n k edits news) {i : Nat} (hi : i < k) :
    ∃ l l', ls[n + i]? = some l ∧ news[i]? = some l' ∧ Row (n + i) l l' := by
  induction h generalizing i with
  | done => exact absurd hi (Nat.not_lt_zero i)
  | @edit n k _ _ _ _ _ _ line row rest ih | @keep n k _ _ _ line row rest ih =>
    cases i with
    | zero => exact ⟨_, _, line, rfl, row⟩
    | succ i =>
      obtain ⟨l, l', hl, hl', hrow⟩ := ih (Nat.lt_of_succ_lt_succ hi)
      rw [Nat.add_assoc, Nat.add_comm 1 i] at hl hrow
      exact ⟨l, l', hl, hl', hrow⟩

/-- A row in front of others, and where those start. -/
theorem drop_take_succ {l : Text} (line : ls[n]? = some l) :
    (ls.drop n).take (k + 1) = l :: (ls.drop (n + 1)).take k ∧
      utf8Len (ls.take (n + 1)).flatten = utf8Len (ls.take n).flatten + (encode l).length := by
  obtain ⟨hlt, hget⟩ := List.getElem?_eq_some_iff.mp line
  refine ⟨by rw [List.drop_eq_getElem_cons hlt, hget, List.take_succ_cons], ?_⟩
  rw [List.take_add_one, line, Option.toList_some, List.flatten_concat, String.utf8Len_append,
    length_encode]

/-- The edits are one patch of the rows. -/
theorem patch (h : RowEdits ls Row n k edits news) :
    ∃ changes, changes.map Change.toSplice = edits.map Edit.toSplice ∧
      Patch (utf8Len (ls.take n).flatten) changes (encode ((ls.drop n).take k).flatten)
        (encode news.flatten) := by
  induction h with
  | done => exact ⟨[], rfl, rfl⟩
  | @edit n k edits news a r b insert line row rest ih =>
    obtain ⟨changes, hsame, hpatch⟩ := ih
    obtain ⟨hrows, hstart⟩ := @drop_take_succ ls n k _ line
    rw [hstart] at hpatch
    let start := utf8Len (ls.take n).flatten
    have hone : Patch start [⟨start + utf8Len a, encode r, encode insert⟩] (encode (a ++ (r ++ b)))
        (encode (a ++ (insert ++ b))) :=
      ⟨encode a, encode b, encode b, by simp, by simp, by simp, rfl⟩
    refine ⟨⟨start + utf8Len a, encode r, encode insert⟩ :: changes, ?_, ?_⟩
    · rw [List.map_cons, List.map_cons, hsame, String.utf8Len_append, ← Nat.add_assoc]
      simp [Change.toSplice, Change.stop, Edit.toSplice, start]
    · rw [hrows, List.flatten_cons, List.flatten_cons, encode_append (a ++ (r ++ b)),
        encode_append (a ++ (insert ++ b))]
      exact hone.append hpatch
  | @keep n k edits news l line row rest ih =>
    obtain ⟨changes, hsame, hpatch⟩ := ih
    obtain ⟨hrows, hstart⟩ := @drop_take_succ ls n k _ line
    rw [hstart] at hpatch
    refine ⟨changes, hsame, ?_⟩
    rw [hrows, List.flatten_cons, List.flatten_cons, encode_append, encode_append]
    exact Patch.prepend _ hpatch

/-- Around the rows the text stays. -/
theorem whole (h : RowEdits ls Row n k edits news) :
    Ordered 0 (edits.map Edit.toSplice) (utf8Len ls.flatten) ∧
      splice (edits.map Edit.toSplice) (encode ls.flatten) =
        encode (ls.take n ++ (news ++ ls.drop (n + k))).flatten := by
  obtain ⟨changes, hsame, hpatch⟩ := h.patch
  have hparts : ls.flatten =
      (ls.take n).flatten ++ (((ls.drop n).take k).flatten ++ (ls.drop (n + k)).flatten) := by
    rw [← List.flatten_append, ← List.drop_drop, List.take_append_drop, ← List.flatten_append,
      List.take_append_drop]
  have hall : Patch 0 changes (encode ls.flatten)
      (encode (ls.take n ++ (news ++ ls.drop (n + k))).flatten) := by
    rw [hparts, List.flatten_append, List.flatten_append]
    simp only [encode_append]
    refine Patch.prepend _ ?_
    rw [Nat.zero_add, length_encode, ← List.append_nil changes]
    exact hpatch.append rfl
  have hordered := hall.ordered
  rw [Nat.zero_add, length_encode, hsame] at hordered
  exact ⟨hordered, hsame ▸ hall.spliceFrom_eq⟩

end RowEdits

/-! ## §3 The edits of the commands -/

/-- The map of a row is that of its clusters. -/
theorem Shown.map_eq (hshown : Shown u limits maps ls tabs widths) {n : Nat} {l : Text}
    {map : DisplayColumnMap} (hl : ls[n]? = some l)
    (hmap : rowMap u limits maps n (content l) = .ok map) :
    map = DisplayColumnMap.ofRow (tabs n) (widths n) (u.graphemes (content l)) :=
  hshown.map n l map hl hmap

/-- A line in the parts of its row. -/
theorem line_parts {l : Text} {before removed behind : List Text}
    (hrow : u.graphemes (content l) = before ++ (removed ++ behind)) :
    l = before.flatten ++ (removed.flatten ++ (behind.flatten ++ terminator l)) := by
  conv_lhs => rw [← content_append_terminator l, ← u.graphemes_flatten (content l), hrow]
  simp

/-- A row that is cut is rewritten by one edit. -/
theorem RowEdits.cut {Row : Nat → Text → Text → Prop} {n k : Nat} {edits : List Edit}
    {news : List Text} {l insert : Text} {before removed behind : List Text} {pad suffix : Nat}
    (hl : ls[n]? = some l) (hparts : u.graphemes (content l) = before ++ (removed ++ behind))
    (hrow : Row n l (before.flatten ++ (insert ++ (behind.flatten ++ terminator l))))
    (hrest : RowEdits ls Row (n + 1) k edits news) :
    RowEdits ls Row n (k + 1)
      (⟨⟨utf8Len (ls.take n).flatten + (RowCut.of before removed pad suffix).start,
        utf8Len (ls.take n).flatten + (RowCut.of before removed pad suffix).stop⟩, insert⟩ :: edits)
      ((before.flatten ++ (insert ++ (behind.flatten ++ terminator l))) :: news) := by
  have hline := line_parts hparts
  rw [RowCut.of, List.flatten_append]
  rw [hline] at hl
  refine .edit hl ?_ hrest
  rwa [← hline]

theorem Rectangle.left_le_right (rectangle : Rectangle) : rectangle.left ≤ rectangle.right :=
  Nat.le_trans (Nat.min_le_left ..) (Nat.le_max_left ..)

/-- The loop of an insertion. -/
theorem columnInsertFrom_spec {what : ColumnInsert} {total n k : Nat} {edits : List Edit}
    (hclustered : ∀ text, Clustered (u.graphemes text)) (hls : LinesOf snapshot.text ls)
    (hshown : Shown u limits maps ls tabs widths)
    (hn : rectangle.firstLine ≤ n)
    (h : columnInsertFrom u snapshot rectangle what limits maps total (n - rectangle.firstLine)
      (List.range' n k) = .ok edits) :
    ∃ news, RowEdits ls (fun n l l' => (ColumnCommand.insert what).Row u rectangle limits tabs
      widths n l l') n k edits news := by
  induction k generalizing n total edits with
  | zero =>
    obtain rfl := Except.ok.inj h
    exact ⟨[], .done n⟩
  | succ k ih =>
    rw [List.range'_succ] at h
    obtain ⟨⟨start, l⟩, hline, h⟩ := bind_ok.mp h
    obtain ⟨map, hmap, h⟩ := bind_ok.mp h
    obtain ⟨value, hvalue, h⟩ := bind_ok.mp h
    obtain ⟨_, -, h⟩ := bind_ok.mp h
    obtain ⟨_, -, h⟩ := bind_ok.mp h
    obtain ⟨_, -, h⟩ := bind_ok.mp h
    obtain ⟨edits, hedits, h⟩ := bind_ok.mp h
    obtain rfl := Except.ok.inj h
    obtain ⟨hl, rfl⟩ := line_eq hls hline
    obtain rfl := hshown.map_eq hl hmap
    obtain ⟨before, removed, behind, pad, suffix, hrow, hcut, hcolumns⟩ :=
      insertCut_spec (hshown.pos n) (hclustered (content l)) rectangle.left_le_right
    rw [u.graphemes_flatten] at hcut
    rw [← Nat.sub_add_comm hn] at hedits
    obtain ⟨news, hrest⟩ := ih (Nat.le_succ_of_le hn) hedits
    rw [hcut]
    exact ⟨_, .cut hl hrow
      ⟨value, hvalue, before, removed, behind, pad, suffix, hrow, hcolumns, rfl⟩ hrest⟩

/-- A row from which nothing goes stays as it is. -/
theorem rewrites_self {l : Text} {before : List Text} {behind : List Text}
    {Cut : List Text → List Text → List Text → Nat → Nat → Prop}
    (hrow : u.graphemes (content l) = before ++ ([] ++ behind)) (hcut : Cut before [] behind 0 0) :
    Rewrites u l l [] Cut :=
  ⟨before, [], behind, 0, 0, hrow, hcut, line_parts hrow⟩

/-- The loop of a deletion. -/
theorem rectangleDeleteFrom_spec {backward : Option Bool} {total n k : Nat} {delta : Int}
    {edits : List Edit} {carets : List Selection}
    (hclustered : ∀ text, Clustered (u.graphemes text)) (hls : LinesOf snapshot.text ls)
    (hshown : Shown u limits maps ls tabs widths)
    (h : rectangleDeleteFrom u snapshot rectangle backward limits maps total delta
      (List.range' n k) = .ok (edits, carets)) :
    ∃ news, RowEdits ls (fun n l l' => (ColumnCommand.delete backward).Row u rectangle limits tabs
      widths n l l') n k edits news := by
  induction k generalizing n total delta edits carets with
  | zero =>
    obtain ⟨rfl, -⟩ := Prod.mk.inj (Except.ok.inj h)
    exact ⟨[], .done n⟩
  | succ k ih =>
    rw [List.range'_succ] at h
    obtain ⟨⟨start, l⟩, hline, h⟩ := bind_ok.mp h
    obtain ⟨map, hmap, h⟩ := bind_ok.mp h
    obtain ⟨_, -, h⟩ := bind_ok.mp h
    obtain ⟨_, -, h⟩ := bind_ok.mp h
    obtain ⟨hl, rfl⟩ := line_eq hls hline
    obtain rfl := hshown.map_eq hl hmap
    obtain ⟨before, removed, behind, pad, suffix, hrow, hcut, hdeleted⟩ :=
      @deleteCut_spec (tabs n) (widths n) (u.graphemes (content l)) rectangle.left rectangle.right
        backward (hshown.pos n) (hclustered (content l)) rectangle.left_le_right
    rw [u.graphemes_flatten] at hcut
    rw [hcut] at h
    split_ifs at h with hchanges
    · obtain ⟨_, -, h⟩ := bind_ok.mp h
      obtain ⟨⟨edits, carets⟩, hedits, h⟩ := bind_ok.mp h
      obtain ⟨rfl, -⟩ := Prod.mk.inj (Except.ok.inj h)
      obtain ⟨news, hrest⟩ := ih hedits
      refine ⟨_, .cut hl hrow ?_ hrest⟩
      refine ⟨before, removed, behind, pad, suffix, hrow, hdeleted, ?_⟩
      rw [List.nil_append, List.replicate_append_replicate]
      rfl
    · obtain ⟨⟨edits, carets⟩, hedits, h⟩ := bind_ok.mp h
      obtain ⟨rfl, -⟩ := Prod.mk.inj (Except.ok.inj h)
      obtain ⟨news, hrest⟩ := ih hedits
      -- nothing goes, and no space comes in
      obtain ⟨rfl, rfl, rfl⟩ : removed = [] ∧ pad = 0 ∧ suffix = 0 := by
        have hrowClusters := hclustered (content l)
        rw [hrow] at hrowClusters
        rw [RowCut.of, List.flatten_append, String.utf8Len_append] at hchanges
        refine ⟨?_, by dsimp only at hchanges; omega, by dsimp only at hchanges; omega⟩
        by_contra hne
        obtain ⟨g, tail, rfl⟩ := List.exists_cons_of_ne_nil hne
        have := hrowClusters.pos (List.mem_append_right before (List.mem_cons_self ..))
        rw [List.flatten_cons, String.utf8Len_append] at hchanges
        dsimp only at hchanges
        omega
      exact ⟨_, .keep hl (rewrites_self hrow hdeleted) hrest⟩

/-! ## §4 Columns keep the rest of every row -/

theorem checkRectangle_le (h : checkRectangle snapshot rectangle limits = .ok ()) :
    rectangle.firstLine ≤ rectangle.lastLine := by
  rw [checkRectangle] at h
  split_ifs at h with hbad
  exact Nat.le_of_not_lt fun hlt => hbad (.inl hlt)

/-- What the edits of a command make of the rows. -/
theorem ColumnCommand.rowEdits {command : ColumnCommand} {prepared : PowerEdit}
    (hclustered : ∀ text, Clustered (u.graphemes text)) (hls : LinesOf snapshot.text ls)
    (hshown : Shown u limits maps ls tabs widths)
    (h : command.run u snapshot rectangle limits maps = .ok prepared) :
    rectangle.firstLine ≤ rectangle.lastLine ∧ ∃ edits news,
      RowEdits ls (fun n l l' => command.Row u rectangle limits tabs widths n l l')
        rectangle.firstLine (rectangle.lastLine + 1 - rectangle.firstLine) edits news ∧
      ∃ finished, finish snapshot edits limits = .ok finished ∧
        prepared.edits = finished.edits := by
  cases command with
  | insert what =>
    obtain ⟨_, hcheck, h⟩ := bind_ok.mp h
    obtain ⟨edits, hedits, h⟩ := bind_ok.mp h
    rw [Rectangle.lines, ← Nat.sub_self rectangle.firstLine] at hedits
    obtain ⟨news, hnews⟩ :=
      columnInsertFrom_spec hclustered hls hshown (Nat.le_refl rectangle.firstLine) hedits
    exact ⟨checkRectangle_le hcheck, edits, news, hnews, prepared, h, rfl⟩
  | delete backward =>
    obtain ⟨_, hcheck, h⟩ := bind_ok.mp h
    obtain ⟨⟨edits, carets⟩, hedits, h⟩ := bind_ok.mp h
    obtain ⟨finished, hfinished, h⟩ := bind_ok.mp h
    obtain rfl := Except.ok.inj h
    obtain ⟨news, hnews⟩ := rectangleDeleteFrom_spec hclustered hls hshown hedits
    exact ⟨checkRectangle_le hcheck, edits, news, hnews, finished, hfinished, rfl⟩

/-- A command on a rectangle rewrites the rows of the rectangle as it should, each in front of its
terminator, and no other line; its edits are in order and apart. -/
theorem columns_keep_rows {command : ColumnCommand} {prepared : PowerEdit}
    (hclustered : ∀ text, Clustered (u.graphemes text)) (hls : LinesOf snapshot.text ls)
    (hshown : Shown u limits maps ls tabs widths)
    (h : command.run u snapshot rectangle limits maps = .ok prepared) :
    ∃ ls' : List Text, prepared.applied snapshot = encode ls'.flatten ∧ ls'.length = ls.length ∧
      (∀ n, n < rectangle.firstLine ∨ rectangle.lastLine < n → ls'[n]? = ls[n]?) ∧
      (∀ n, rectangle.firstLine ≤ n → n ≤ rectangle.lastLine → ∃ l l', ls[n]? = some l ∧
        ls'[n]? = some l' ∧ command.Row u rectangle limits tabs widths n l l') ∧
      Ordered 0 (prepared.edits.map Edit.toSplice) (utf8Len snapshot.text) := by
  obtain ⟨hle, edits, news, hrows, finished, hfinished, hsame⟩ :=
    ColumnCommand.rowEdits hclustered hls hshown h
  obtain ⟨hordered, hsplice⟩ := hrows.whole
  rw [hls.flatten] at hordered hsplice
  have hedits := hsame.trans (finish_edits (edits_sorted hordered) hfinished)
  have hlength := hrows.length
  obtain ⟨l, -, hlast, -⟩ := hrows.rows (i := rectangle.lastLine - rectangle.firstLine) (by omega)
  have hin := (List.getElem?_eq_some_iff.mp hlast).1
  have htake : (ls.take rectangle.firstLine).length = rectangle.firstLine :=
    List.length_take_of_le (by omega)
  refine ⟨_, by rw [PowerEdit.applied, hedits]; exact hsplice, ?_, ?_, ?_, hedits ▸ hordered⟩
  · simp only [List.length_append, htake, hlength, List.length_drop]
    omega
  · rintro n (hn | hn)
    · rw [List.getElem?_append_left (by omega), List.getElem?_take_of_lt hn]
    · rw [List.getElem?_append_right (by omega), List.getElem?_append_right (by omega), htake,
        hlength, List.getElem?_drop]
      congr 1
      omega
  · intro n hfirst hlast
    obtain ⟨l, l', hl, hl', hrow⟩ := hrows.rows (i := n - rectangle.firstLine) (by omega)
    rw [Nat.add_sub_cancel' hfirst] at hl hrow
    refine ⟨l, l', hl, ?_, hrow⟩
    rw [List.getElem?_append_right (by omega), List.getElem?_append_left (by omega), htake, hl']

theorem asciiClusters_clustered (text : Text) : Clustered (asciiClusters text) := by
  fun_induction asciiClusters text with
  | case1 => exact fun _ h => by cases h
  | case2 rest ih => exact List.forall_mem_cons.mpr ⟨⟨List.cons_ne_nil _ _, by decide⟩, ih⟩
  | case3 c rest _ ih =>
    refine List.forall_mem_cons.mpr ⟨⟨List.cons_ne_nil _ _, fun htab => ?_⟩, ih⟩
    rw [List.mem_singleton.mp htab]

/-- A rectangle in the tab of the first row and behind the end of the second. -/
theorem columns_keep_rows_around_tab :
    let snapshot := opened ['\t', 'b', '\n', 'c'] (by decide)
    let command : ColumnCommand := .insert (.text ['x'])
    let prepared : PowerEdit := ⟨1, [⟨⟨0, 1⟩, [' ', 'x', ' ', ' ']⟩, ⟨⟨4, 4⟩, ['x']⟩],
      ⟨[⟨4, 4⟩, ⟨8, 8⟩], 0⟩⟩
    command.run ascii snapshot ⟨0, 1, 1, 2⟩ roomy none = .ok prepared ∧
    ∃ ls' : List Text, prepared.applied snapshot = encode ls'.flatten ∧ ls'.length = 2 ∧
      (∀ n, n < 0 ∨ 1 < n → ls'[n]? = none) ∧
      (∀ n ≤ 1, ∃ l l', [['\t', 'b', '\n'], ['c']][n]? = some l ∧ ls'[n]? = some l' ∧
        command.Row ascii ⟨0, 1, 1, 2⟩ roomy (fun _ => 4) (fun _ => fallbackWidth) n l l') ∧
      Ordered 0 (prepared.edits.map Edit.toSplice) 4 := by
  intro snapshot command prepared
  have hls : LinesOf snapshot.text [['\t', 'b', '\n'], ['c']] := by
    exact .ended (by decide : NoBreak ['\t', 'b']) (.inr (.inl rfl)) (.last (by decide))
  have hrun : command.run ascii snapshot ⟨0, 1, 1, 2⟩ roomy none = .ok prepared := by
    decide +kernel
  obtain ⟨ls', happlied, hlength, houtside, hrows, hordered⟩ :=
    columns_keep_rows asciiClusters_clustered hls (Shown.fallback ascii roomy _) hrun
  refine ⟨hrun, ls', happlied, hlength, fun n hn => (houtside n hn).trans ?_,
    fun n hn => hrows n (Nat.zero_le n) hn, hordered⟩
  exact List.getElem?_eq_none (by simp only [List.length_cons, List.length_nil]; omega)

/-- Backspace with a rectangle without width takes the cluster in front of it out of a row. -/
theorem backspace_removes_cluster_left_of_column :
    let snapshot := opened ['a'] (by decide)
    let rectangle : Rectangle := ⟨0, 0, 1, 1⟩
    ascii.graphemes snapshot.text = [['a']] ∧
      columnAfter roomy.tabWidth fallbackWidth 0 [['a']] ≤ rectangle.left ∧
      ∃ prepared, rectangleDeleteMapped ascii snapshot rectangle (some true) roomy none =
        .ok prepared ∧ prepared.applied snapshot = [] := by
  refine ⟨by decide, by decide, ⟨1, [⟨⟨0, 1⟩, []⟩], ⟨[⟨0, 0⟩], 0⟩⟩, by decide +kernel, by decide⟩

end BareLine.Power
