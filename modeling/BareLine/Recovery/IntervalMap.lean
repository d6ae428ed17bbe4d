import BareLine.Recovery.Types

/-!
# The interval map of a replay

The current document of a replay is a list of blocks of spans, each span a range of the
sealed baseline or of a record's segment file.  A splice cuts spans at both ends of the
replaced range, drains what lies between, and inserts at most one span.

- A position in the blocks is a pair of indices; §4 reads it as the spans in front of it
  (`front`) and behind it (`back`), and every index computation of the splice is checked
  against those two.
-/

namespace BareLine

open Lib

/-! ## §1 Spans and blocks -/

/-- `BLOCK`: spans per block before a block splits. -/
def BLOCK : Nat := 256

/-- `MAX_SPANS` -/
def MAX_SPANS : Nat := 2 ^ 22

inductive Origin where
  | baseline
  | segment (index : Nat)
  deriving DecidableEq, Repr

structure Span where
  origin : Origin
  offset : Nat
  len : Nat
  deriving DecidableEq, Repr

structure Block where
  len : Nat
  spans : List Span
  deriving DecidableEq, Repr

/-- `Replay`: the map itself; the file handles and buffers it keeps carry no data. -/
structure Replay where
  blocks : List Block
  len : Nat
  spans : Nat
  deriving DecidableEq, Repr

/-- `out_of_memory` -/
def outOfMemory : IoError := ⟨.outOfMemory, "out of memory"⟩

def spanLen (spans : List Span) : Nat := (spans.map Span.len).sum

/-! ## §2 The code -/

/-- The inner loop of `pieces`. -/
def piecesOfSpans (offset stop : Nat) : Nat → List Span → List (Origin × Nat × Nat)
  | _, [] => []
  | start, span :: rest =>
    let spanEnd := start + span.len
    if spanEnd > offset ∧ start < stop then
      let lo := max offset start
      let hi := min stop spanEnd
      (span.origin, span.offset + (lo - start), hi - lo) :: piecesOfSpans offset stop spanEnd rest
    else piecesOfSpans offset stop spanEnd rest

/-- The outer loop of `pieces`. -/
def piecesOfBlocks (offset stop : Nat) : Nat → List Block → List (Origin × Nat × Nat)
  | _, [] => []
  | blockStart, block :: rest =>
    let blockEnd := blockStart + block.len
    let here := if blockEnd > offset ∧ blockStart < stop then
      piecesOfSpans offset stop blockStart block.spans else []
    if blockEnd ≥ stop then here else here ++ piecesOfBlocks offset stop blockEnd rest

/-- The inner loop of `split`: the spans, the position of the one that starts at `offset`,
and whether a span was cut for it. -/
def splitSpans (offset : Nat) : Nat → List Span → Option (List Span × Nat × Bool)
  | _, [] => none
  | start, span :: rest =>
    if offset = start then some (span :: rest, 0, false)
    else if offset < start + span.len then
      let head := offset - start
      some ({ span with len := head } ::
        { span with offset := span.offset + head, len := span.len - head } :: rest, 1, true)
    else (splitSpans offset (start + span.len) rest).map fun (spans, position, inside) =>
      (span :: spans, position + 1, inside)

/-- The outer loop of `split`. -/
def splitBlocks (offset : Nat) : Nat → List Block →
    Except IoError (List Block × (Nat × Nat) × Bool)
  | blockStart, [] =>
    if offset = blockStart then .ok ([], (0, 0), false)
    else .error (invalid "recovery edit outside source")
  | blockStart, block :: rest =>
    if offset < blockStart + block.len then
      match splitSpans offset blockStart block.spans with
      | none => .error (invalid "recovery map length mismatch")
      | some (spans, position, inside) => .ok ({ block with spans } :: rest, (0, position), inside)
    else
      match splitBlocks offset (blockStart + block.len) rest with
      | .error error => .error error
      | .ok (blocks, (index, position), inside) =>
        .ok (block :: blocks, (index + 1, position), inside)

/-- What the drains of `splice` leave of block `n`, between the positions `first` and
`last`. -/
def drained (first last : Nat × Nat) (n : Nat) (block : Block) : Block :=
  if n = first.1 ∧ n = last.1 then
    { block with spans := block.spans.take first.2 ++ block.spans.drop last.2 }
  else if n = first.1 then { block with spans := block.spans.take first.2 }
  else if first.1 < n ∧ n < last.1 then { block with spans := [] }
  else if n = last.1 then { block with spans := block.spans.drop last.2 }
  else block

def spanCount (blocks : List Block) : Nat := (blocks.map fun block => block.spans.length).sum

/-- Where `splice` inserts: text appended at the end joins the last block. -/
def appendPlace (blocks : List Block) (first : Nat × Nat) : List Block × Nat × Nat :=
  if first.1 = blocks.length then
    match blocks.getLast? with
    | some last => (blocks, first.1 - 1, last.spans.length)
    | none => (blocks ++ [⟨0, []⟩], first.1, first.2)
  else (blocks, first.1, first.2)

/-- `spans.insert(position, span)` in the block at `target`. -/
def insertSpan (blocks : List Block) (target position : Nat) (span : Span) : List Block :=
  blocks.modify target fun block =>
    { block with spans := block.spans.insertIdx position span }

/-- The blocks `target..=last` get their lengths again. -/
def recount (target last : Nat) (blocks : List Block) : List Block :=
  blocks.mapIdx fun n block =>
    if target ≤ n ∧ n ≤ last then { block with len := spanLen block.spans } else block

/-- An overfull block at `target` splits. -/
def splitOverfull (target : Nat) (blocks : List Block) : List Block :=
  match blocks[target]? with
  | none => blocks
  | some block =>
    if block.spans.length > 2 * BLOCK then
      let tail := block.spans.drop BLOCK
      blocks.take target ++ ⟨block.len - spanLen tail, block.spans.take BLOCK⟩ ::
        ⟨spanLen tail, tail⟩ :: blocks.drop (target + 1)
    else blocks

/-- The end of `splice`, after the spans are in place. -/
def settle (target last : Nat) (blocks : List Block) : List Block :=
  (splitOverfull target (recount target last blocks)).filter fun block => !block.spans.isEmpty

namespace Replay

/-- `Replay::pieces` -/
def pieces (r : Replay) (offset len : Nat) : Except IoError (List (Origin × Nat × Nat)) :=
  match endWithin offset len r.len with
  | none => .error (invalid "recovery edit outside source")
  | some stop =>
    let pieces := piecesOfBlocks offset stop 0 r.blocks
    if (pieces.map fun piece => piece.2.2).sum ≠ len then
      .error (invalid "recovery map length mismatch")
    else .ok pieces

/-- `Replay::split`: the position of the first span at `offset`, and the map. -/
def split (r : Replay) (offset : Nat) : Except IoError (Nat × Nat) × Replay :=
  match splitBlocks offset 0 r.blocks with
  | .error error => (.error error, r)
  | .ok (blocks, position, inside) =>
    if inside then
      if r.spans ≥ MAX_SPANS then (.error outOfMemory, r)
      else (.ok position, { r with blocks, spans := r.spans + 1 })
    else (.ok position, { r with blocks })

/-- `Replay::splice` -/
def splice (r : Replay) (offset removed : Nat) (insert : Option Span) :
    Except IoError Unit × Replay :=
  match endWithin offset removed r.len with
  | none => (.error (invalid "recovery edit outside source"), r)
  | some stop =>
    match r.split offset with
    | (.error error, r) => (.error error, r)
    | (.ok first, r) =>
      -- A second split lands at or after the first and never shifts it.
      match r.split stop with
      | (.error error, r) => (.error error, r)
      | (.ok last, r) =>
        let blocks := r.blocks.mapIdx (drained first last)
        let spans := r.spans - (spanCount r.blocks - spanCount blocks)
        match insert with
        | none => (.ok (), ⟨settle first.1 last.1 blocks, r.len - removed, spans⟩)
        | some span =>
          let (blocks, target, position) := appendPlace blocks first
          if spans ≥ MAX_SPANS then (.error outOfMemory, { r with blocks, spans })
          else (.ok (), ⟨settle target last.1 (insertSpan blocks target position span),
            r.len - removed + span.len, spans + 1⟩)

end Replay

/-! ## §3 The text a map spells -/

variable (source : Origin → Bytes)

/-- The bytes of a span, given the files the map reads. -/
def Span.bytes (s : Span) : Bytes := (⟨s.offset, s.offset + s.len⟩ : Range).of (source s.origin)

/-- A span is not empty and lies in its file. -/
structure Span.Wf (s : Span) : Prop where
  pos : 0 < s.len
  inside : s.offset + s.len ≤ (source s.origin).length

def spanText (spans : List Span) : Bytes := spans.flatMap (Span.bytes source)

/-- The spans of the blocks, in order. -/
def flat (blocks : List Block) : List Span := blocks.flatMap Block.spans

/-- A block's length is that of its spans, and it has some. -/
structure Block.Wf (b : Block) : Prop where
  len_eq : b.len = spanLen b.spans
  nonempty : b.spans ≠ []
  spans : ∀ s ∈ b.spans, s.Wf source

/-- The block map invariant. -/
structure Replay.Wf (r : Replay) : Prop where
  blocks : ∀ b ∈ r.blocks, b.Wf source
  len_eq : r.len = (r.blocks.map Block.len).sum
  count : r.spans = spanCount r.blocks

/-- The document the map stands for. -/
def Replay.text (r : Replay) : Bytes := spanText source (flat r.blocks)

variable {source}

@[simp] theorem spanLen_nil : spanLen [] = 0 := rfl

@[simp] theorem spanLen_cons (s : Span) (ss : List Span) :
    spanLen (s :: ss) = s.len + spanLen ss := rfl

@[simp] theorem spanLen_append (ss ss' : List Span) :
    spanLen (ss ++ ss') = spanLen ss + spanLen ss' := by
  simp [spanLen]

@[simp] theorem spanText_nil : spanText source [] = [] := rfl

@[simp] theorem spanText_cons (s : Span) (ss : List Span) :
    spanText source (s :: ss) = s.bytes source ++ spanText source ss := rfl

@[simp] theorem spanText_append (ss ss' : List Span) :
    spanText source (ss ++ ss') = spanText source ss ++ spanText source ss' :=
  List.flatMap_append

@[simp] theorem flat_nil : flat [] = [] := rfl

@[simp] theorem flat_cons (b : Block) (bs : List Block) : flat (b :: bs) = b.spans ++ flat bs := rfl

@[simp] theorem flat_append (bs bs' : List Block) : flat (bs ++ bs') = flat bs ++ flat bs' :=
  List.flatMap_append

theorem Span.Wf.bytes_length {s : Span} (h : s.Wf source) : (s.bytes source).length = s.len := by
  have := h.inside
  simp only [Span.bytes, Range.of_length]
  omega

theorem spanText_length {spans : List Span} (h : ∀ s ∈ spans, s.Wf source) :
    (spanText source spans).length = spanLen spans := by
  induction spans with
  | nil => rfl
  | cons s ss ih =>
    rw [spanText_cons, List.length_append, (h s List.mem_cons_self).bytes_length,
      ih fun s hs => h s (List.mem_cons_of_mem _ hs), spanLen_cons]

theorem flat_spans_wf {blocks : List Block} (h : ∀ b ∈ blocks, b.Wf source) :
    ∀ s ∈ flat blocks, s.Wf source := by
  intro s hs
  obtain ⟨b, hb, hs⟩ := List.mem_flatMap.mp hs
  exact (h b hb).spans s hs

/-- Blocks that know their lengths know the length of the whole. -/
theorem sum_len_eq {blocks : List Block} (h : ∀ b ∈ blocks, b.len = spanLen b.spans) :
    (blocks.map Block.len).sum = spanLen (flat blocks) := by
  induction blocks with
  | nil => rfl
  | cons b bs ih =>
    rw [List.map_cons, List.sum_cons, flat_cons, spanLen_append, h b List.mem_cons_self,
      ih fun b hb => h b (List.mem_cons_of_mem _ hb)]

theorem spanCount_eq (blocks : List Block) : spanCount blocks = (flat blocks).length :=
  List.length_flatMap.symm

theorem Replay.Wf.spans_wf {r : Replay} (h : r.Wf source) : ∀ s ∈ flat r.blocks, s.Wf source :=
  flat_spans_wf h.blocks

theorem Replay.Wf.spanLen_eq {r : Replay} (h : r.Wf source) : spanLen (flat r.blocks) = r.len := by
  rw [h.len_eq, sum_len_eq fun b hb => (h.blocks b hb).len_eq]

theorem Replay.Wf.text_length {r : Replay} (h : r.Wf source) :
    (r.text source).length = r.len := by
  rw [Replay.text, spanText_length h.spans_wf, h.spanLen_eq]

/-! ## §4 Positions -/

/-- The spans in front of a position. -/
def front : List Block → Nat × Nat → List Span
  | [], _ => []
  | b :: _, (0, j) => b.spans.take j
  | b :: bs, (i + 1, j) => b.spans ++ front bs (i, j)

/-- The spans behind a position. -/
def back : List Block → Nat × Nat → List Span
  | [], _ => []
  | b :: bs, (0, j) => b.spans.drop j ++ flat bs
  | _ :: bs, (i + 1, j) => back bs (i, j)

/-- The position is that of a span, or the end of the document. -/
def Points : List Block → Nat × Nat → Prop
  | [], p => p = (0, 0)
  | b :: _, (0, j) => j < b.spans.length
  | _ :: bs, (i + 1, j) => Points bs (i, j)

/-- `p` comes no later than `q`. -/
def Before (p q : Nat × Nat) : Prop := p.1 < q.1 ∨ p.1 = q.1 ∧ p.2 ≤ q.2

theorem front_append_back (blocks : List Block) (p : Nat × Nat) :
    front blocks p ++ back blocks p = flat blocks := by
  obtain ⟨i, j⟩ := p
  induction blocks generalizing i with
  | nil => rfl
  | cons b bs ih =>
    cases i with
    | zero =>
      show b.spans.take j ++ (b.spans.drop j ++ flat bs) = _
      rw [← List.append_assoc, List.take_append_drop, flat_cons]
    | succ i =>
      show b.spans ++ front bs (i, j) ++ back bs (i, j) = _
      rw [List.append_assoc, ih i, flat_cons]

/-- A later position has no fewer spans in front of it. -/
theorem front_length_mono {blocks : List Block} {p q : Nat × Nat} (h : Before p q)
    (hp : Points blocks p) : (front blocks p).length ≤ (front blocks q).length := by
  obtain ⟨i, j⟩ := p
  obtain ⟨i', j'⟩ := q
  induction blocks generalizing i i' with
  | nil => exact Nat.le_refl _
  | cons b bs ih =>
    cases i with
    | zero =>
      cases i' with
      | zero =>
        have hj : j ≤ j' := by
          rcases h with h | ⟨-, h⟩
          · exact absurd h (Nat.lt_irrefl 0)
          · exact h
        simp only [front, List.length_take]
        omega
      | succ i' =>
        simp only [front, List.length_take, List.length_append]
        omega
    | succ i =>
      cases i' with
      | zero =>
        rcases h with h | ⟨h, -⟩
        · exact absurd h (Nat.not_lt_zero _)
        · cases h
      | succ i' =>
        have h' : Before (i, j) (i', j') := by
          rcases h with h | ⟨h, hj⟩
          · exact Or.inl (Nat.lt_of_succ_lt_succ h)
          · exact Or.inr ⟨Nat.succ.inj h, hj⟩
        have := ih i hp i' h'
        simp only [front, List.length_append]
        omega

theorem drained_succ (i j i' j' n : Nat) :
    drained (i + 1, j) (i' + 1, j') (n + 1) = drained (i, j) (i', j') n := by
  funext b
  simp [drained]

/-- Behind the last block nothing is drained. -/
theorem mapIdx_drained_behind (j i' j' : Nat) (bs : List Block) :
    bs.mapIdx (fun n => drained (0, j) (i', j') (n + i' + 1)) = bs := by
  apply List.ext_getElem (by simp)
  intro n h _
  rw [List.getElem_mapIdx]
  have h₁ : ¬n + i' + 1 = i' := by omega
  have h₂ : ¬n + i' + 1 < i' := by omega
  simp [drained, h₁, h₂]

theorem drained_tail (j i' j' n : Nat) :
    drained (0, j) (i' + 1 + 1, j') (n + 1 + 1) = drained (0, j) (i' + 1, j') (n + 1) := by
  funext b
  simp [drained]

/-- Of the blocks behind the first drained one, those up to the last are emptied. -/
theorem flat_cleared (bs : List Block) (j i' j' : Nat) :
    flat (bs.mapIdx fun n => drained (0, j) (i' + 1, j') (n + 1)) = back bs (i', j') := by
  induction bs generalizing i' with
  | nil => rfl
  | cons b bs ih =>
    rw [List.mapIdx_cons, flat_cons]
    cases i' with
    | zero =>
      have hrest := mapIdx_drained_behind j 1 j' bs
      simp only [Nat.zero_add]
      rw [hrest]
      simp [drained, back]
    | succ i' =>
      simp only [drained_tail, ih i']
      simp [drained, back]

/-- The drains take out exactly the spans between the positions. -/
theorem flat_drained (blocks : List Block) {p q : Nat × Nat} (h : Before p q) :
    flat (blocks.mapIdx (drained p q)) = front blocks p ++ back blocks q := by
  obtain ⟨i, j⟩ := p
  obtain ⟨i', j'⟩ := q
  induction blocks generalizing i i' with
  | nil => rfl
  | cons b bs ih =>
    rw [List.mapIdx_cons, flat_cons]
    cases i with
    | zero =>
      cases i' with
      | zero =>
        have hrest := mapIdx_drained_behind j 0 j' bs
        simp only [Nat.add_zero] at hrest
        rw [hrest]
        simp [drained, front, back]
      | succ i' =>
        rw [flat_cleared]
        simp [drained, front, back]
    | succ i =>
      cases i' with
      | zero =>
        rcases h with h | ⟨h, -⟩
        · exact absurd h (Nat.not_lt_zero _)
        · cases h
      | succ i' =>
        have h' : Before (i, j) (i', j') := by
          rcases h with h | ⟨h, hj⟩
          · exact Or.inl (Nat.lt_of_succ_lt_succ h)
          · exact Or.inr ⟨Nat.succ.inj h, hj⟩
        simp only [drained_succ, ih i i' h']
        simp [drained, front, back]

/-! ## §5 Pieces -/

/-- The bytes a piece names. -/
def pieceBytes (source : Origin → Bytes) (piece : Origin × Nat × Nat) : Bytes :=
  (⟨piece.2.1, piece.2.1 + piece.2.2⟩ : Range).of (source piece.1)

/-- A piece lies in its file. -/
def PieceInside (source : Origin → Bytes) (piece : Origin × Nat × Nat) : Prop :=
  piece.2.1 + piece.2.2 ≤ (source piece.1).length

/-- The pieces of one block spell the wanted range of its text. -/
theorem piecesOfSpans_spec {offset stop start : Nat} {spans : List Span} (hle : offset ≤ stop)
    (h : ∀ s ∈ spans, s.Wf source) :
    (∀ piece ∈ piecesOfSpans offset stop start spans, PieceInside source piece) ∧
    (piecesOfSpans offset stop start spans).flatMap (pieceBytes source) =
      (⟨offset - start, stop - start⟩ : Range).of (spanText source spans) := by
  induction spans generalizing start with
  | nil => exact ⟨by simp [piecesOfSpans], by simp [piecesOfSpans, Range.of]⟩
  | cons s ss ih =>
    have hs := h s List.mem_cons_self
    obtain ⟨hin, htext⟩ := ih fun s hs => h s (List.mem_cons_of_mem _ hs)
    have hlen := hs.bytes_length
    rw [spanText_cons, Range.of_append, hlen, Nat.sub_sub, Nat.sub_sub, ← htext, piecesOfSpans]
    split
    · next hmeet =>
      have hpiece : pieceBytes source (s.origin, s.offset + (max offset start - start),
          min stop (start + s.len) - max offset start) =
          (⟨offset - start, stop - start⟩ : Range).of (s.bytes source) := by
        rw [← Range.of_clamp, hlen, Span.bytes, Range.of_of (by omega)]
        simp only [pieceBytes]
        congr 2 <;> omega
      constructor
      · intro piece hp
        rcases List.mem_cons.mp hp with rfl | hp
        · have := hs.inside
          simp only [PieceInside]
          omega
        · exact hin piece hp
      · rw [List.flatMap_cons, hpiece]
    · next hmiss =>
      -- The span lies outside the range.
      refine ⟨hin, ?_⟩
      rw [Range.of_eq_nil (t := s.bytes source) (by simp only [hlen]; omega), List.nil_append]

/-- The pieces of the map spell the wanted range of the document. -/
theorem piecesOfBlocks_spec {offset stop start : Nat} {blocks : List Block} (hle : offset ≤ stop)
    (h : ∀ b ∈ blocks, b.Wf source) :
    (∀ piece ∈ piecesOfBlocks offset stop start blocks, PieceInside source piece) ∧
    (piecesOfBlocks offset stop start blocks).flatMap (pieceBytes source) =
      (⟨offset - start, stop - start⟩ : Range).of (spanText source (flat blocks)) := by
  induction blocks generalizing start with
  | nil => exact ⟨by simp [piecesOfBlocks], by simp [piecesOfBlocks, Range.of]⟩
  | cons b bs ih =>
    have hb := h b List.mem_cons_self
    obtain ⟨hin, htext⟩ := ih fun b hb => h b (List.mem_cons_of_mem _ hb)
    obtain ⟨hin', htext'⟩ := piecesOfSpans_spec hle hb.spans
    have hlen : (spanText source b.spans).length = b.len := by
      rw [spanText_length hb.spans, hb.len_eq]
    -- What a block contributes, also where it is skipped.
    have hhere : (∀ piece ∈ (if start + b.len > offset ∧ start < stop then
          piecesOfSpans offset stop start b.spans else []), PieceInside source piece) ∧
        (if start + b.len > offset ∧ start < stop then
          piecesOfSpans offset stop start b.spans else []).flatMap (pieceBytes source) =
        (⟨offset - start, stop - start⟩ : Range).of (spanText source b.spans) := by
      split
      · exact ⟨hin', htext'⟩
      · refine ⟨by simp, ?_⟩
        rw [Range.of_eq_nil (by simp only [hlen]; omega)]
        rfl
    rw [flat_cons, spanText_append, Range.of_append, hlen, Nat.sub_sub, Nat.sub_sub, ← htext,
      ← hhere.2, piecesOfBlocks]
    split
    · next hlast =>
      have hnone : (piecesOfBlocks offset stop (start + b.len) bs).flatMap (pieceBytes source) =
          [] := by
        rw [htext, Range.of_eq_nil (by simp only; omega)]
      rw [hnone, List.append_nil]
      exact ⟨hhere.1, rfl⟩
    · refine ⟨?_, List.flatMap_append⟩
      intro piece hp
      rcases List.mem_append.mp hp with hp | hp
      · exact hhere.1 piece hp
      · exact hin piece hp

theorem flatMap_pieceBytes_length {pieces : List (Origin × Nat × Nat)}
    (h : ∀ piece ∈ pieces, PieceInside source piece) :
    (pieces.flatMap (pieceBytes source)).length =
      (pieces.map fun piece => piece.2.2).sum := by
  rw [List.length_flatMap]
  congr 1
  apply List.map_congr_left
  intro piece hp
  have := h piece hp
  simp only [PieceInside] at this
  simp only [pieceBytes, Range.of_length]
  omega

/-- `pieces` finds every range of the document. -/
theorem Replay.pieces_spec {r : Replay} (h : r.Wf source) {offset len : Nat}
    (hlen : offset + len ≤ r.len) (hmax : r.len ≤ u64Max) :
    ∃ pieces, r.pieces offset len = .ok pieces ∧
      (∀ piece ∈ pieces, PieceInside source piece) ∧
      pieces.flatMap (pieceBytes source) =
        (⟨offset, offset + len⟩ : Range).of (r.text source) := by
  obtain ⟨hin, htext⟩ := piecesOfBlocks_spec (Nat.le_add_right offset len) h.blocks
  rw [Nat.sub_zero, Nat.sub_zero] at htext
  have hsum := flatMap_pieceBytes_length hin
  have htotal := h.text_length
  rw [Replay.text] at htotal
  rw [htext, Range.of_length, htotal] at hsum
  refine ⟨_, ?_, hin, htext⟩
  rw [Replay.pieces, (endWithin_eq_some hmax).mpr ⟨hlen, rfl⟩]
  show (if _ ≠ _ then _ else _) = _
  rw [if_neg]
  simp only at hsum
  omega

end BareLine
