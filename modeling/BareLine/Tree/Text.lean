import BareLine.Tree.Node

/-!
# What the tree operations do to the text

`Node.Wf` is the invariant of the piece tree: every leaf covers a nonempty range it
really has, every stored height is exact and every stored summary describes the text
below it.  Each operation is shown to keep the invariant and to do to `text` what its
name says: `concat` appends, `split` cuts, `slice` selects, `chunks` reads.
-/

namespace BareLine.Tree

open Lib

/-! ## §1 Well-formed trees -/

/-- Where the leaves of a tree may keep their bytes. -/
inductive Storage where
  /-- Owned segments only. -/
  | resident
  /-- Owned segments and ranges of page sources. -/
  | paged
  deriving DecidableEq, Repr

structure Piece.Wf (p : Piece) : Prop where
  nonempty : p.range.start < p.range.stop
  inSegment : p.range.stop ≤ p.segment.text.length
  summary_eq : p.summary = Summary.scan p.text

/-- The tree invariant. -/
def Node.Wf (st : Storage) : Node → Prop
  | .leaf piece => piece.Wf
  | .source src range => st = .paged ∧ range.start < range.stop ∧ range.stop ≤ src.data.length
  | .ownedSource src range _ summary => st = .paged ∧ range.start < range.stop ∧
      range.stop ≤ src.data.length ∧ summary.Describes (range.of src.data)
  | .branch left right height summary => left.Wf st ∧ right.Wf st ∧
      height = 1 + max left.height right.height ∧
      summary = left.summary.combine right.summary

/-- The invariant of a possibly empty tree. -/
def RootWf (st : Storage) (root : Root) : Prop := ∀ node ∈ root, node.Wf st

@[simp] theorem rootWf_none (st : Storage) : RootWf st none := fun _ h => nomatch h

@[simp] theorem rootWf_some {st : Storage} {node : Node} : RootWf st (some node) ↔ node.Wf st :=
  ⟨fun h => h node rfl, fun h _ hn => Option.some.inj hn ▸ h⟩

@[simp] theorem text_none : text none = [] := rfl

@[simp] theorem text_some (node : Node) : text (some node) = node.text := rfl

@[simp] theorem summary_none : summary none = Summary.default := rfl

@[simp] theorem summary_some (node : Node) : summary (some node) = node.summary := rfl

theorem Piece.Wf.length {p : Piece} (h : p.Wf) : p.text.length = p.range.stop - p.range.start := by
  have := h.inSegment
  simp only [Piece.text, Range.of_length]
  omega

/-- Stored summaries describe the text below them. -/
theorem Node.Wf.describes {st : Storage} {n : Node} (h : n.Wf st) :
    n.summary.Describes n.text := by
  induction n with
  | leaf piece =>
    have hs : piece.summary = Summary.scan piece.text := h.summary_eq
    simp only [Node.summary_leaf, Node.text, hs]
    exact Summary.describes_scan _
  | source src range =>
    rcases h with ⟨-, hlt, hle⟩
    refine ⟨?_, fun hu => by simp [unread] at hu⟩
    simp only [Node.summary_source, Node.text, unread, Range.of_length]
    omega
  | ownedSource src range original summary => exact h.2.2.2
  | branch left right height summary ihl ihr =>
    rcases h with ⟨hl, hr, -, hs⟩
    simp only [Node.summary_branch, Node.text, hs]
    exact (ihl hl).combine (ihr hr)

theorem Node.Wf.bytes {st : Storage} {n : Node} (h : n.Wf st) :
    n.summary.bytes = n.text.length := h.describes.1

theorem RootWf.bytes {st : Storage} {root : Root} (h : RootWf st root) :
    (summary root).bytes = (text root).length := by
  cases root with
  | none => rfl
  | some node => exact (h node rfl).bytes

/-- Resident text was all read. -/
theorem Node.Wf.known {n : Node} (h : n.Wf .resident) : n.summary.unknown = false := by
  induction n with
  | leaf piece => rw [Node.summary_leaf, h.summary_eq, Summary.scan_unknown]
  | source src range => cases h.1
  | ownedSource src range original summary => cases h.1
  | branch left right height summary ihl ihr =>
    rcases h with ⟨hl, hr, -, hs⟩
    simp [hs, Summary.combine, ihl hl, ihr hr]

/-- The summary of a resident node is the scan of its text. -/
theorem Node.Wf.summary_eq {n : Node} (h : n.Wf .resident) :
    n.summary = Summary.scan n.text := h.describes.2 h.known

theorem RootWf.summary_eq {root : Root} (h : RootWf .resident root) :
    summary root = Summary.scan (text root) := by
  cases root with
  | none => rfl
  | some node => exact (h node rfl).summary_eq

theorem Node.Wf.text_pos {st : Storage} {n : Node} (h : n.Wf st) : 0 < n.text.length := by
  induction n with
  | leaf piece =>
    have hp : piece.Wf := h
    have := hp.nonempty
    simp only [Node.text, hp.length]
    omega
  | source src range =>
    rcases h with ⟨-, hlt, hle⟩
    simp only [Node.text, Range.of_length]
    omega
  | ownedSource src range original summary =>
    rcases h with ⟨-, hlt, hle, -⟩
    simp only [Node.text, Range.of_length]
    omega
  | branch left right height summary ihl ihr =>
    have := ihl h.1
    simp only [Node.text, List.length_append]
    omega

/-! ## §2 Joining -/

theorem branch_wf {st : Storage} {l r : Node} (hl : l.Wf st) (hr : r.Wf st) :
    (branch l r).Wf st := ⟨hl, hr, rfl, rfl⟩

@[simp] theorem branch_text (l r : Node) : (branch l r).text = l.text ++ r.text := rfl

theorem balance_wf {st : Storage} {l r : Node} (hl : l.Wf st) (hr : r.Wf st) :
    (balance l r).Wf st := by
  unfold balance
  split_ifs with h1 h2
  · split
    · split_ifs
      · exact branch_wf hl.1 (branch_wf hl.2.1 hr)
      · split
        · exact branch_wf (branch_wf hl.1 hl.2.1.1) (branch_wf hl.2.1.2.1 hr)
        · exact branch_wf hl hr
    · exact branch_wf hl hr
  · split
    · split_ifs
      · exact branch_wf (branch_wf hl hr.1) hr.2.1
      · split
        · exact branch_wf (branch_wf hl hr.1.1) (branch_wf hr.1.2.1 hr.2.1)
        · exact branch_wf hl hr
    · exact branch_wf hl hr
  · exact branch_wf hl hr

@[simp] theorem balance_text (l r : Node) : (balance l r).text = l.text ++ r.text := by
  unfold balance
  split_ifs with h1 h2
  · split
    · split_ifs
      · simp [Node.text]
      · split <;> simp [Node.text]
    · rfl
  · split
    · split_ifs
      · simp [Node.text]
      · split <;> simp [Node.text]
    · rfl
  · rfl

theorem concatNode_wf {st : Storage} {l r : Node} (hl : l.Wf st) (hr : r.Wf st) :
    (concatNode l r).Wf st := by
  fun_induction concatNode l r with
  | case1 r a b height summary h ih => exact balance_wf hl.1 (ih hl.2.1 hr)
  | case2 l r h hno => exact branch_wf hl hr
  | case3 l a b height summary h h' ih => exact balance_wf (ih hl hr.1) hr.2.1
  | case4 l r h h' hno => exact branch_wf hl hr
  | case5 l r h h' => exact branch_wf hl hr

@[simp] theorem concatNode_text (l r : Node) : (concatNode l r).text = l.text ++ r.text := by
  fun_induction concatNode l r with
  | case1 r a b height summary h ih => rw [balance_text, ih, Node.text, List.append_assoc]
  | case2 l r h hno => rfl
  | case3 l a b height summary h h' ih => rw [balance_text, ih, Node.text, List.append_assoc]
  | case4 l r h h' hno => rfl
  | case5 l r h h' => rfl

/-- `concat` keeps the invariant. -/
theorem concat_wf {st : Storage} {l r : Root} (hl : RootWf st l) (hr : RootWf st r) :
    RootWf st (concat l r) := by
  cases l <;> cases r <;> simp only [concat, rootWf_none, rootWf_some] at *
  · exact hr
  · exact hl
  · exact concatNode_wf hl hr

/-- `concat` appends. -/
@[simp] theorem concat_text (l r : Root) : text (concat l r) = text l ++ text r := by
  cases l <;> cases r <;> simp [concat]

/-! ## §3 Cutting -/

/-- A nonempty front of a text ends in the byte before the cut. -/
theorem take_eq_concat {t : Bytes} {offset : Nat} (hpos : 0 < offset) (hle : offset ≤ t.length) :
    t.take offset = t.take (offset - 1) ++ [t.getD (offset - 1) 0] := by
  obtain ⟨k, rfl⟩ := Nat.exists_eq_add_one_of_ne_zero (Nat.ne_of_gt hpos)
  have hbyte : t[k]? = some t[k] := List.getElem?_eq_getElem hle
  rw [Nat.add_sub_cancel, List.take_add_one, hbyte, Option.toList_some, List.getD, hbyte,
    Option.getD_some]

theorem Piece.prefixSummary_eq {p : Piece} (h : p.Wf) {offset : Nat} (hpos : 0 < offset)
    (hlt : offset < p.text.length) : p.prefixSummary offset = Summary.scan (p.text.take offset) := by
  unfold Piece.prefixSummary
  split_ifs
  · rfl
  · have hfull : p.summary = Summary.scan (p.text.take offset ++ p.text.drop offset) := by
      rw [List.take_append_drop]
      exact h.summary_eq
    rw [hfull, take_eq_concat hpos (Nat.le_of_lt hlt)]
    exact Summary.before_scan _ _ _

/-- Both halves of a cut piece are well formed and hold the two sides of its text. -/
theorem Piece.split_spec {p : Piece} (h : p.Wf) {offset : Nat} (hpos : 0 < offset)
    (hlt : offset < p.text.length) :
    ((p.split offset).1.Wf ∧ (p.split offset).1.text = p.text.take offset) ∧
      ((p.split offset).2.Wf ∧ (p.split offset).2.text = p.text.drop offset) := by
  have hlen := h.length
  have hin := h.inSegment
  have hleft : (⟨p.range.start, p.range.start + offset⟩ : Range).of p.segment.text =
      p.text.take offset := by
    simp only [Range.of, Piece.text, List.take_drop, List.take_take]
    congr 2
    omega
  have hright : (⟨p.range.start + offset, p.range.stop⟩ : Range).of p.segment.text =
      p.text.drop offset := by
    simp only [Range.of, Piece.text, List.drop_drop]
  have hsl := Piece.prefixSummary_eq h hpos hlt
  refine ⟨⟨⟨?_, ?_, ?_⟩, hleft⟩, ⟨⟨?_, hin, ?_⟩, hright⟩⟩
  · simp only [Piece.split]; omega
  · simp only [Piece.split]; omega
  · simp only [Piece.split, Piece.text]
    rw [hleft, hsl]
  · simp only [Piece.split]; omega
  · change p.summary.after (p.prefixSummary offset) (p.text.getD offset 0) =
      Summary.scan (Range.of ⟨p.range.start + offset, p.range.stop⟩ p.segment.text)
    rw [hright, hsl, h.summary_eq]
    obtain ⟨b, u, hd⟩ : ∃ b u, p.text.drop offset = b :: u := by
      cases hd : p.text.drop offset with
      | nil => simp only [List.drop_eq_nil_iff] at hd; omega
      | cons b u => exact ⟨b, u, rfl⟩
    have hfull : p.text = p.text.take offset ++ b :: u := by
      rw [← hd, List.take_append_drop]
    have hget : p.text.getD offset 0 = b := by
      have hg : (p.text.take offset ++ b :: u).getD offset 0 = b := by
        have : (p.text.take offset).length = offset := by simp; omega
        rw [List.getD_eq_getElem?_getD, List.getElem?_append_right (by omega)]
        simp [this]
      rw [← hfull] at hg
      exact hg
    rw [hget, hd]
    have := Summary.after_scan (p.text.take offset) b u
    rw [← hfull] at this
    exact this

private theorem range_of_take {t : Bytes} {a b n : Nat} (h : a + n ≤ b) :
    (⟨a, a + n⟩ : Range).of t = ((⟨a, b⟩ : Range).of t).take n := by
  simp only [Range.of, List.take_drop, List.take_take]
  congr 2
  omega

private theorem range_of_drop {t : Bytes} {a b n : Nat} :
    (⟨a + n, b⟩ : Range).of t = ((⟨a, b⟩ : Range).of t).drop n := by
  simp only [Range.of, List.drop_drop]

private theorem fromSource_spec (src : MemorySource) {r : Range} (h : r.stop ≤ src.data.length) :
    RootWf .paged (fromSource src r) ∧ text (fromSource src r) = r.of src.data := by
  unfold fromSource
  split_ifs with he
  · refine ⟨rootWf_none _, ?_⟩
    simp only [Range.isEmpty, decide_eq_true_eq] at he
    simp only [text_none, Range.of]
    exact (List.drop_eq_nil_of_le (by simp; omega)).symm
  · simp only [Range.isEmpty, decide_eq_true_eq, Nat.not_le] at he
    exact ⟨rootWf_some.mpr ⟨rfl, he, h⟩, rfl⟩

private theorem fromOwnedSource_spec (src : MemorySource) {r : Range}
    (original : Option (MemorySource × Range)) (h : r.stop ≤ src.data.length) :
    RootWf .paged (fromOwnedSource src r original) ∧
      text (fromOwnedSource src r original) = r.of src.data := by
  unfold fromOwnedSource
  split_ifs with he
  · refine ⟨rootWf_none _, ?_⟩
    simp only [Range.isEmpty, decide_eq_true_eq] at he
    simp only [text_none, Range.of]
    exact (List.drop_eq_nil_of_le (by simp; omega)).symm
  · simp only [Range.isEmpty, decide_eq_true_eq, Nat.not_le] at he
    refine ⟨rootWf_some.mpr ⟨rfl, he, h, ?_, fun hu => by simp [unread] at hu⟩, rfl⟩
    simp only [unread, Range.of_length]
    omega

/-- A cut at the end leaves nothing on the right. -/
private theorem whole_spec {st : Storage} {n : Node} (h : n.Wf st) {offset : Nat}
    (he : offset = n.summary.bytes) :
    (RootWf st (some n) ∧ text (some n) = n.text.take offset) ∧
      (RootWf st none ∧ text none = n.text.drop offset) := by
  rw [he, h.bytes]
  exact ⟨⟨rootWf_some.mpr h, by simp⟩, ⟨rootWf_none _, by simp⟩⟩

/-- Cutting a tree: both sides are well formed and hold the two sides of its text. -/
theorem splitNode_spec {st : Storage} {n : Node} (h : n.Wf st) (offset : Nat)
    (hle : offset ≤ n.text.length) :
    (RootWf st (splitNode n offset).1 ∧ text (splitNode n offset).1 = n.text.take offset) ∧
      (RootWf st (splitNode n offset).2 ∧ text (splitNode n offset).2 = n.text.drop offset) := by
  induction n generalizing offset with
  | leaf piece =>
    have hbytes := h.bytes
    rw [splitNode]
    split_ifs with h0 h1
    · simp [h0, h]
    · exact whole_spec h h1
    · have hspec := Piece.split_spec h (Nat.pos_of_ne_zero h0)
        (by rw [Node.text] at *; omega)
      exact ⟨⟨rootWf_some.mpr hspec.1.1, hspec.1.2⟩, ⟨rootWf_some.mpr hspec.2.1, hspec.2.2⟩⟩
  | source src range =>
    have hbytes := h.bytes
    rw [splitNode]
    split_ifs with h0 h1
    · simp [h0, h]
    · exact whole_spec h h1
    · rcases h with ⟨rfl, hlt, hin⟩
      simp only [Node.text, Range.of_length] at hle
      have hl := fromSource_spec src (r := ⟨range.start, range.start + offset⟩)
        (by simp only; omega)
      have hr := fromSource_spec src (r := ⟨range.start + offset, range.stop⟩) hin
      refine ⟨⟨hl.1, hl.2.trans ?_⟩, ⟨hr.1, hr.2.trans ?_⟩⟩
      · exact range_of_take (by omega)
      · exact range_of_drop
  | ownedSource src range original summary =>
    have hbytes := h.bytes
    rw [splitNode]
    split_ifs with h0 h1
    · simp [h0, h]
    · exact whole_spec h h1
    · rcases h with ⟨rfl, hlt, hin, -⟩
      simp only [Node.text, Range.of_length] at hle
      have hl := fromOwnedSource_spec src (r := ⟨range.start, range.start + offset⟩)
        (splitOriginal original offset).1 (by simp only; omega)
      have hr := fromOwnedSource_spec src (r := ⟨range.start + offset, range.stop⟩)
        (splitOriginal original offset).2 hin
      refine ⟨⟨hl.1, hl.2.trans ?_⟩, ⟨hr.1, hr.2.trans ?_⟩⟩
      · exact range_of_take (by omega)
      · exact range_of_drop
  | branch left right height summary ihl ihr =>
    have hbytes := h.bytes
    rw [splitNode]
    dsimp only
    split_ifs with h0 h1 h2
    · simp [h0, h]
    · exact whole_spec h h1
    · rcases h with ⟨hl, hr, -, -⟩
      have hlb := hl.bytes
      obtain ⟨⟨hw1, ht1⟩, ⟨hw2, ht2⟩⟩ := ihl hl offset (by omega)
      refine ⟨⟨hw1, ?_⟩, ⟨concat_wf hw2 (rootWf_some.mpr hr), ?_⟩⟩
      · rw [ht1, Node.text, List.take_append_of_le_length (by omega)]
      · rw [concat_text, ht2, text_some, Node.text, List.drop_append_of_le_length (by omega)]
    · rcases h with ⟨hl, hr, -, -⟩
      have hlb := hl.bytes
      simp only [Node.text, List.length_append] at hle
      obtain ⟨⟨hw1, ht1⟩, ⟨hw2, ht2⟩⟩ := ihr hr (offset - left.summary.bytes) (by omega)
      refine ⟨⟨concat_wf (rootWf_some.mpr hl) hw1, ?_⟩, ⟨hw2, ?_⟩⟩
      · rw [concat_text, ht1, text_some, Node.text, List.take_append, hlb,
          List.take_of_length_le (l := left.text) (by omega)]
      · rw [ht2, Node.text, List.drop_append, hlb,
          List.drop_of_length_le (l := left.text) (by omega), List.nil_append]

theorem split_spec {st : Storage} {root : Root} (h : RootWf st root) (offset : Nat)
    (hle : offset ≤ (text root).length) :
    (RootWf st (split root offset).1 ∧ text (split root offset).1 = (text root).take offset) ∧
      (RootWf st (split root offset).2 ∧
        text (split root offset).2 = (text root).drop offset) := by
  cases root with
  | none => simp [split]
  | some n => exact splitNode_spec (h n rfl) offset hle

/-- Two cuts select the range between them. -/
private theorem split_split_spec {st : Storage} {n : Node} (h : n.Wf st) {a b : Nat}
    (hb : b ≤ n.text.length) (ha : a ≤ b) :
    RootWf st (split (splitNode n b).1 a).2 ∧
      text (split (splitNode n b).1 a).2 = (⟨a, b⟩ : Range).of n.text := by
  obtain ⟨⟨hw, ht⟩, -⟩ := splitNode_spec h b hb
  obtain ⟨-, ⟨hw2, ht2⟩⟩ := split_spec hw a (by rw [ht]; simp; omega)
  exact ⟨hw2, by rw [ht2, ht]; rfl⟩

private theorem slice_empty {st : Storage} {t : Bytes} {r : Range} (h : r.isEmpty = true) :
    RootWf st none ∧ text none = r.of t := by
  rw [Range.isEmpty_iff] at h
  exact ⟨rootWf_none _, (Range.of_eq_nil (by omega)).symm⟩

private theorem slice_whole {st : Storage} {n : Node} (h : n.Wf st) {a b : Nat}
    (hall : a = 0 ∧ b = n.text.length) :
    RootWf st (some n) ∧ text (some n) = (⟨a, b⟩ : Range).of n.text :=
  ⟨rootWf_some.mpr h, by rw [hall.1, Range.of_all (by omega), text_some]⟩

/-- Selecting a range, clamped to the text. -/
theorem sliceNode_spec {st : Storage} {n : Node} (h : n.Wf st) (r : Range) :
    RootWf st (sliceNode n r) ∧ text (sliceNode n r) = r.of n.text := by
  induction n generalizing r with
  | leaf piece =>
    have hp : piece.Wf := h
    have hlen := hp.length
    have hin := hp.inSegment
    have hbytes := h.bytes
    rw [sliceNode]
    dsimp only
    rw [← Range.of_clamp, hbytes]
    split_ifs with he hall
    · exact slice_empty he
    · exact slice_whole h hall
    · rw [Range.isEmpty_iff] at he
      simp only [Node.text] at he ⊢
      refine ⟨rootWf_some.mpr ⟨?_, ?_, rfl⟩, ?_⟩
      · simp only [Piece.new]; omega
      · simp only [Piece.new]; omega
      · generalize min r.start piece.text.length = a at *
        generalize hb : min r.stop piece.text.length = b at *
        simp only [text_some, Node.text, Piece.text, Piece.new, Range.of, List.take_drop,
          List.drop_drop, List.take_take]
        congr 2
        omega
  | source src range =>
    rw [sliceNode]
    · dsimp only
      rw [← Range.of_clamp, h.bytes]
      split_ifs with he hall
      · exact slice_empty he
      · exact slice_whole h hall
      · rw [Range.isEmpty_iff] at he
        exact split_split_spec h (Nat.min_le_right _ _) (by simp only at he; omega)
    all_goals intros; contradiction
  | ownedSource src range original summary =>
    rw [sliceNode]
    · dsimp only
      rw [← Range.of_clamp, h.bytes]
      split_ifs with he hall
      · exact slice_empty he
      · exact slice_whole h hall
      · rw [Range.isEmpty_iff] at he
        exact split_split_spec h (Nat.min_le_right _ _) (by simp only at he; omega)
    all_goals intros; contradiction
  | branch left right height summary ihl ihr =>
    have hl := h.1
    have hr := h.2.1
    have hlb := hl.bytes
    rw [sliceNode]
    dsimp only
    rw [← Range.of_clamp, h.bytes]
    generalize ha : min r.start (Node.branch left right height summary).text.length = a
    generalize hb : min r.stop (Node.branch left right height summary).text.length = b
    have hble : b ≤ left.text.length + right.text.length := by
      rw [← hb, Node.text, List.length_append]; omega
    -- A range within one child is a slice of it; one over the seam is joined from two.
    split_ifs with he hall hleft hright
    · exact slice_empty he
    · exact slice_whole h hall
    · obtain ⟨hw, ht⟩ := ihl hl ⟨a, b⟩
      refine ⟨hw, ht.trans ?_⟩
      rw [Node.text, Range.of_append, Range.of_eq_nil (t := right.text) (by simp only; omega),
        List.append_nil]
    · obtain ⟨hw, ht⟩ := ihr hr ⟨a - left.summary.bytes, b - left.summary.bytes⟩
      refine ⟨hw, ht.trans ?_⟩
      rw [Node.text, Range.of_append, Range.of_eq_nil (t := left.text) (by simp only; omega),
        hlb, List.nil_append]
    · obtain ⟨hw1, ht1⟩ := ihl hl ⟨a, left.summary.bytes⟩
      obtain ⟨hw2, ht2⟩ := ihr hr ⟨0, b - left.summary.bytes⟩
      refine ⟨concat_wf hw1 hw2, ?_⟩
      have ha0 : a - left.text.length = 0 := by omega
      rw [concat_text, ht1, ht2, Node.text, Range.of_append, hlb, ha0]
      simp only [Range.of]
      rw [List.take_of_length_le (Nat.le_refl _),
        List.take_of_length_le (l := left.text) (by omega)]

theorem slice_spec {st : Storage} {root : Root} (h : RootWf st root) (r : Range) :
    RootWf st (slice root r) ∧ text (slice root r) = r.of (text root) := by
  cases root with
  | none => simp [slice, Range.of]
  | some n => exact sliceNode_spec (h n rfl) r

/-! ## §4 Reading a resident tree -/

theorem byteAtNode_eq {n : Node} (h : n.Wf .resident) (offset : Nat) :
    byteAtNode n offset = n.text[offset]? := by
  induction n generalizing offset with
  | leaf piece => rfl
  | source src range => cases h.1
  | ownedSource src range original summary => cases h.1
  | branch left right height summary ihl ihr =>
    rw [byteAtNode, h.1.bytes, ihl h.1, ihr h.2.1, Node.text, List.getElem?_append]

theorem byteAt_eq {root : Root} (h : RootWf .resident root) (offset : Nat) :
    byteAt root offset = (text root)[offset]? := by
  cases root with
  | none => rfl
  | some n => exact byteAtNode_eq (h n rfl) offset

/-- A resident tree has no page source to stop at, and its chunks are the range. -/
theorem chunksNode_spec {n : Node} (h : n.Wf .resident) {r : Range}
    (hle : r.stop ≤ n.text.length) (hlt : r.start < r.stop) :
    (chunksNode n r).2 = false ∧ (chunksNode n r).1.flatten = r.of n.text := by
  induction n generalizing r with
  | leaf piece => exact ⟨rfl, by simp [chunksNode, Node.text]⟩
  | source src range => cases h.1
  | ownedSource src range original summary => cases h.1
  | branch left right height summary ihl ihr =>
    have hlb := h.1.bytes
    have hlen : r.stop ≤ left.text.length + right.text.length := by
      simpa [Node.text] using hle
    rw [chunksNode, hlb, Node.text, Range.of_append]
    by_cases hs : r.start < left.text.length
    · obtain ⟨hf1, ht1⟩ := ihl h.1 (r := ⟨r.start, min r.stop left.text.length⟩)
        (Nat.min_le_right _ _) (by simp only; omega)
      have hcut : (⟨r.start, min r.stop left.text.length⟩ : Range).of left.text =
          r.of left.text := by
        simp only [Range.of, ← List.take_eq_take_min]
      simp only [hs, if_true, hf1, Bool.false_eq_true, if_false]
      split_ifs with hm
      · obtain ⟨hf2, ht2⟩ := ihr h.2.1 (r := ⟨r.start - left.text.length,
          r.stop - left.text.length⟩) (by simp only; omega) (by simp only; omega)
        refine ⟨hf2, ?_⟩
        rw [List.flatten_append, ht1, ht2, hcut]
      · refine ⟨rfl, ?_⟩
        rw [ht1, hcut, Range.of_eq_nil (t := right.text) (by simp only; omega),
          List.append_nil]
    · have hm : r.stop > left.text.length := by omega
      obtain ⟨hf2, ht2⟩ := ihr h.2.1 (r := ⟨r.start - left.text.length,
          r.stop - left.text.length⟩) (by simp only; omega) (by simp only; omega)
      simp only [hs, if_false, Bool.false_eq_true, hm, if_true, List.nil_append]
      refine ⟨hf2, ?_⟩
      rw [ht2, Range.of_eq_nil (t := left.text) (by simp only; omega), List.nil_append]

theorem chunks_eq {root : Root} (h : RootWf .resident root) {r : Range}
    (hle : r.stop ≤ (text root).length) : chunks root r = r.of (text root) := by
  unfold chunks
  split_ifs with he
  · simp only [Range.isEmpty, decide_eq_true_eq] at he
    exact (Range.of_eq_nil (by omega)).symm
  · simp only [Range.isEmpty, decide_eq_true_eq, Nat.not_le] at he
    cases root with
    | none => simp at hle; omega
    | some n => exact (chunksNode_spec (h n rfl) hle he).2

/-- The boundaries of a resident tree are those of its text. -/
theorem boundary_eq {root : Root} (h : RootWf .resident root) (offset : Nat) :
    boundary root offset = atBoundary (text root) offset := by
  rw [boundary, h.bytes, byteAt_eq h]
  rfl

/-! ## §5 New text -/

/-- New text is appended chunk by chunk, and exactly its bytes are charged. -/
theorem textSegments_spec {st : Storage} {inserted : Bool} {t : Bytes} {root : Root}
    {heap heap' : Heap} {root' : Root} (hroot : RootWf st root)
    (h : textSegments inserted t root heap = .ok (root', heap')) :
    RootWf st root' ∧ text root' = text root ++ t ∧
      heap'.used = heap.used + t.length ∧ heap'.limit = heap.limit := by
  induction t, root, heap using textSegments.induct inserted with
  | case1 root heap =>
    rw [textSegments, dif_pos rfl] at h
    obtain ⟨rfl, rfl⟩ := Prod.mk.inj (Except.ok.inj h)
    simp [hroot]
  | case2 t root heap hne n e hres =>
    rw [textSegments, dif_neg hne] at h
    simp only [n] at hres
    simp [hres] at h
  | case3 t root heap hne n heap₁ hres segment ih =>
    rw [textSegments, dif_neg hne] at h
    simp only [n] at hres
    simp only [hres] at h
    have hn : n ≤ t.length := chunkLen_le t
    have hpos : 0 < n := chunkLen_pos hne
    have hleaf : (Piece.new segment ⟨0, n⟩).Wf :=
      ⟨hpos, by simp [Piece.new, segment]; omega, rfl⟩
    have htext : (Piece.new segment ⟨0, n⟩).text = t.take n := by
      simp [Piece.text, Piece.new, Range.of, segment, List.take_take]
    obtain ⟨hw, ht, hu, hl⟩ := ih (concat_wf hroot (rootWf_some.mpr hleaf)) h
    obtain ⟨hle, rfl⟩ := Heap.reserve_ok hres
    refine ⟨hw, ?_, ?_, hl⟩
    · rw [ht, concat_text, text_some, Node.text, htext, List.append_assoc, List.take_append_drop]
    · rw [hu]
      simp only [List.length_drop]
      omega

theorem lastLeafNode_suffix {st : Storage} {n : Node} (h : n.Wf st) {p : Piece}
    (hp : lastLeafNode n = some p) : p.Wf ∧ ∃ pre, n.text = pre ++ p.text := by
  induction n with
  | leaf piece =>
    cases hp
    exact ⟨h, [], rfl⟩
  | source src range => cases hp
  | ownedSource src range original summary => cases hp
  | branch left right height summary ihl ihr =>
    obtain ⟨hw, pre, ht⟩ := ihr h.2.1 hp
    exact ⟨hw, left.text ++ pre, by simp [Node.text, ht]⟩

/-- Coalesced or not, the typed text follows the text before it. -/
theorem concatCoalesced_spec {left right : Root} (hl : RootWf .resident left)
    (hr : RootWf .resident right) (limit : Nat) (heap : Heap) :
    RootWf .resident (concatCoalesced left right limit heap).1 ∧
      text (concatCoalesced left right limit heap).1 = text left ++ text right := by
  have hplain := concat_wf hl hr
  unfold concatCoalesced
  split
  next length joined hjoin =>
    split
    next leaf heap' hleaf =>
      simp only [coalescedText, Option.bind_eq_some_iff] at hjoin
      obtain ⟨piece, hlast, hjoin⟩ := hjoin
      split_ifs at hjoin with hno hlen
      obtain ⟨rfl, rfl⟩ := Prod.mk.inj (Option.some.inj hjoin)
      obtain ⟨hw, ht, -, -⟩ := textSegments_spec (rootWf_none _) hleaf
      cases left with
      | none => cases hlast
      | some node =>
        obtain ⟨hpw, pre, hpre⟩ := lastLeafNode_suffix (hl node rfl) hlast
        have hplen := hpw.length
        have hcut : (summary (some node)).bytes - (piece.range.stop - piece.range.start) =
            pre.length := by
          rw [hl.bytes, text_some, hpre, List.length_append]
          omega
        obtain ⟨⟨hsw, hst⟩, -⟩ := split_spec hl pre.length (by simp [hpre])
        refine ⟨concat_wf (by rw [hcut]; exact hsw) hw, ?_⟩
        rw [concat_text, hcut, hst, ht, hr.bytes, chunks_eq hr (Nat.le_refl _)]
        rw [Range.of_all (Nat.le_refl _)]
        simp [hpre]
    next => exact ⟨hplain, concat_text _ _⟩
  next => exact ⟨hplain, concat_text _ _⟩

end BareLine.Tree
