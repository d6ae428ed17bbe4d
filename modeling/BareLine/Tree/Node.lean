import BareLine.Basic
import BareLine.Tree.Summary

/-!
# The piece tree

A document is a height-balanced tree of pieces: ranges of immutable owned segments, or
ranges of a page source.  This module holds the tree itself and the operations every
document shares: joining, cutting, slicing and reading.

The bytes below a node are `Node.text`; a node is well formed (`Node.Wf`) when every
stored range, height and summary is true of them.  The trees of a resident document hold
owned leaves only (`Storage.resident`).
-/

namespace BareLine

open Lib

/-! ## §1 Nodes -/

/-- `MemorySource`: immutable bytes behind pages.  `ownedLoader` tells whether private
storage can resolve its pages. -/
structure MemorySource where
  identity : Nat
  data : Bytes
  pageSize : Nat
  ownedLoader : Bool
  deriving DecidableEq, Repr

namespace Tree

/-- `CHUNK`: longest text of one segment. -/
def CHUNK : Nat := 64 * 1024

/-- `Segment`: one owned allocation, identified by its address `id`.  `inserted` marks
the text of an edit, the only text a coalesced leaf may copy. -/
structure Segment where
  id : Nat
  text : Bytes
  origin : Option (MemorySource × Range)
  inserted : Bool
  deriving DecidableEq, Repr

/-- `Piece`: a range of a segment with the summary of its text. -/
structure Piece where
  segment : Segment
  range : Range
  summary : Summary
  deriving DecidableEq, Repr

namespace Piece

/-- `Piece::text` -/
def text (p : Piece) : Bytes := p.range.of p.segment.text

/-- `Piece::new` -/
def new (segment : Segment) (range : Range) : Piece :=
  ⟨segment, range, Summary.scan (range.of segment.text)⟩

/-- `Piece::prefix_summary`: only the shorter side of the cut is scanned. -/
def prefixSummary (p : Piece) (offset : Nat) : Summary :=
  if offset ≤ p.text.length / 2 then Summary.scan (p.text.take offset)
  else p.summary.before (Summary.scan (p.text.drop offset)) (p.text.getD (offset - 1) 0)

/-- `Piece::split`, for an offset strictly inside the piece. -/
def split (p : Piece) (offset : Nat) : Piece × Piece :=
  let middle := p.range.start + offset
  let left := p.prefixSummary offset
  let right := p.summary.after left (p.text.getD offset 0)
  (⟨p.segment, ⟨p.range.start, middle⟩, left⟩, ⟨p.segment, ⟨middle, p.range.stop⟩, right⟩)

end Piece

/-- `tree::Node` -/
inductive Node where
  | leaf (piece : Piece)
  | source (source : MemorySource) (range : Range)
  | ownedSource (source : MemorySource) (range : Range)
      (original : Option (MemorySource × Range)) (summary : Summary)
  | branch (left right : Node) (height : Nat) (summary : Summary)
  deriving DecidableEq, Repr

/-- `tree::Root` -/
abbrev Root := Option Node

/-- The summary of text that was not read. -/
def unread (range : Range) : Summary :=
  { Summary.default with bytes := range.stop - range.start, unknown := true }

namespace Node

/-- `Node::height` -/
def height : Node → Nat
  | .branch _ _ height _ => height
  | _ => 1

/-- `Node::summary` -/
def summary : Node → Summary
  | .leaf piece => piece.summary
  | .ownedSource _ _ _ summary => summary
  | .source _ range => unread range
  | .branch _ _ _ summary => summary

@[simp] theorem summary_leaf (piece : Piece) : (leaf piece).summary = piece.summary := rfl

@[simp] theorem summary_source (src : MemorySource) (range : Range) :
    (source src range).summary = unread range := rfl

@[simp] theorem summary_ownedSource (src : MemorySource) (range : Range)
    (original : Option (MemorySource × Range)) (s : Summary) :
    (ownedSource src range original s).summary = s := rfl

@[simp] theorem summary_branch (left right : Node) (h : Nat) (s : Summary) :
    (branch left right h s).summary = s := rfl

/-- The bytes a node stands for. -/
def text : Node → Bytes
  | .leaf piece => piece.text
  | .source src range => range.of src.data
  | .ownedSource src range _ _ => range.of src.data
  | .branch left right _ _ => left.text ++ right.text

/-- Number of nodes, the measure of `concat`. -/
def size : Node → Nat
  | .branch left right _ _ => left.size + right.size + 1
  | _ => 1

end Node

/-- `tree::summary` -/
def summary (root : Root) : Summary := root.elim Summary.default Node.summary

/-- `tree::height` -/
def height (root : Root) : Nat := root.elim 0 Node.height

/-- The bytes of a document. -/
def text (root : Root) : Bytes := root.elim [] Node.text

/-! ## §2 Joining -/

/-- `tree::branch` -/
def branch (left right : Node) : Node :=
  .branch left right (1 + max left.height right.height) (left.summary.combine right.summary)

/-- `tree::balance`: one rotation when the heights differ by more than one.  The branches
marked `unreachable!()` in the source leave the pair unrotated here. -/
def balance (left right : Node) : Node :=
  if left.height > right.height + 1 then
    match left with
    | .branch a b _ _ =>
      if a.height ≥ b.height then branch a (branch b right)
      else match b with
        | .branch c d _ _ => branch (branch a c) (branch d right)
        | _ => branch left right
    | _ => branch left right
  else if right.height > left.height + 1 then
    match right with
    | .branch a b _ _ =>
      if b.height ≥ a.height then branch (branch left a) b
      else match a with
        | .branch c d _ _ => branch (branch left c) (branch d b)
        | _ => branch left right
    | _ => branch left right
  else branch left right

/-- `tree::concat` of two nonempty trees: the shorter one joins the spine of the taller. -/
def concatNode (l r : Node) : Node :=
  if l.height > r.height + 1 then
    match l with
    | .branch a b _ _ => balance a (concatNode b r)
    | _ => branch l r
  else if r.height > l.height + 1 then
    match r with
    | .branch a b _ _ => balance (concatNode l a) b
    | _ => branch l r
  else branch l r
termination_by l.size + r.size
decreasing_by all_goals simp only [Node.size]; omega

/-- `tree::concat` -/
def concat : Root → Root → Root
  | none, r => r
  | l, none => l
  | some l, some r => some (concatNode l r)

/-! ## §3 Cutting -/

/-- `tree::from_source` -/
def fromSource (source : MemorySource) (range : Range) : Root :=
  if range.isEmpty then none else some (.source source range)

/-- `tree::from_owned_source` -/
def fromOwnedSource (source : MemorySource) (range : Range)
    (original : Option (MemorySource × Range)) : Root :=
  if range.isEmpty then none else some (.ownedSource source range original (unread range))

/-- The provenance of the first `offset` bytes and of the rest. -/
def splitOriginal (original : Option (MemorySource × Range)) (offset : Nat) :
    Option (MemorySource × Range) × Option (MemorySource × Range) :=
  (original.map fun (s, r) => (s, ⟨r.start, r.start + offset⟩),
    original.map fun (s, r) => (s, ⟨r.start + offset, r.stop⟩))

/-- `tree::split` of a nonempty tree. -/
def splitNode (node : Node) (offset : Nat) : Root × Root :=
  if offset = 0 then (none, some node)
  else if offset = node.summary.bytes then (some node, none)
  else match node with
    | .ownedSource source range original _ =>
      let middle := range.start + offset
      let (leftOriginal, rightOriginal) := splitOriginal original offset
      (fromOwnedSource source ⟨range.start, middle⟩ leftOriginal,
        fromOwnedSource source ⟨middle, range.stop⟩ rightOriginal)
    | .source source range =>
      let middle := range.start + offset
      (fromSource source ⟨range.start, middle⟩, fromSource source ⟨middle, range.stop⟩)
    | .leaf piece =>
      let (left, right) := piece.split offset
      (some (.leaf left), some (.leaf right))
    | .branch left right _ _ =>
      let size := left.summary.bytes
      if offset < size then
        let (a, b) := splitNode left offset
        (a, concat b (some right))
      else
        let (a, b) := splitNode right (offset - size)
        (concat (some left) a, b)

/-- `tree::split` -/
def split (root : Root) (offset : Nat) : Root × Root :=
  match root with
  | none => (none, none)
  | some node => splitNode node offset

/-- `slice_node` of `tree::slice`; every node the range covers whole is shared. -/
def sliceNode (node : Node) (range : Range) : Root :=
  let bytes := node.summary.bytes
  let range : Range := ⟨min range.start bytes, min range.stop bytes⟩
  if range.isEmpty then none
  else if range.start = 0 ∧ range.stop = bytes then some node
  else match node with
    | .leaf piece =>
      some (.leaf (.new piece.segment
        ⟨piece.range.start + range.start, piece.range.start + range.stop⟩))
    | .branch left right _ _ =>
      let size := left.summary.bytes
      if range.stop ≤ size then sliceNode left range
      else if range.start ≥ size then sliceNode right ⟨range.start - size, range.stop - size⟩
      else concat (sliceNode left ⟨range.start, size⟩) (sliceNode right ⟨0, range.stop - size⟩)
    | _ => (split (splitNode node range.stop).1 range.start).2

/-- `tree::slice` -/
def slice (root : Root) (range : Range) : Root := root.bind fun node => sliceNode node range

/-! ## §4 Reading -/

/-- `tree::byte_at` -/
def byteAtNode : Node → Nat → Option UInt8
  | .leaf piece, offset => piece.text[offset]?
  | .branch left right _ _, offset =>
    if offset < left.summary.bytes then byteAtNode left offset
    else byteAtNode right (offset - left.summary.bytes)
  | _, _ => none

def byteAt (root : Root) (offset : Nat) : Option UInt8 :=
  root.bind fun node => byteAtNode node offset

/-- `tree::boundary` -/
def boundary (root : Root) (offset : Nat) : Bool :=
  offset == (summary root).bytes ||
    match byteAt root offset with
    | some byte => !isContinuation byte
    | none => false

/-- The slices `Chunks` yields below one node, and whether it met a page source, where the
iteration ends. -/
def chunksNode : Node → Range → List Bytes × Bool
  | .leaf piece, range => ([range.of piece.text], false)
  | .branch left right _ _, range =>
    let middle := left.summary.bytes
    let (first, stopped) :=
      if range.start < middle then chunksNode left ⟨range.start, min range.stop middle⟩
      else ([], false)
    if stopped then (first, true)
    else if range.stop > middle then
      let (rest, stopped) := chunksNode right ⟨range.start - middle, range.stop - middle⟩
      (first ++ rest, stopped)
    else (first, false)
  | _, _ => ([], true)

/-- `tree::chunks` collected into one string. -/
def chunks (root : Root) (range : Range) : Bytes :=
  if range.isEmpty then []
  else match root with
    | none => []
    | some node => (chunksNode node range).1.flatten

/-! ## §5 New text -/

/-- The end of the next chunk: `end` moved back to a character boundary. -/
def chunkEnd (text : Bytes) : Nat → Nat
  | 0 => 0
  | n + 1 => if isCharBoundary text (n + 1) then n + 1 else chunkEnd text n

/-- Length of the first chunk of a nonempty text.  Every `str` has a boundary within its
first bytes, so the second branch is never taken for one. -/
def chunkLen (text : Bytes) : Nat :=
  let longest := min CHUNK text.length
  let cut := chunkEnd text longest
  if 0 < cut then cut else longest

theorem chunkEnd_le (text : Bytes) (n : Nat) : chunkEnd text n ≤ n := by
  induction n with
  | zero => exact Nat.le_refl 0
  | succ n ih =>
    rw [chunkEnd]
    split_ifs
    · exact Nat.le_refl _
    · exact Nat.le_succ_of_le ih

theorem chunkLen_le (text : Bytes) : chunkLen text ≤ text.length := by
  have := chunkEnd_le text (min CHUNK text.length)
  rw [chunkLen]
  split_ifs <;> omega

theorem chunkLen_pos {text : Bytes} (h : text ≠ []) : 0 < chunkLen text := by
  have hlen : 0 < text.length := List.length_pos_iff.mpr h
  rw [chunkLen]
  split_ifs with hcut
  · exact hcut
  · exact Nat.lt_min.mpr ⟨by decide, hlen⟩

/-- `text_segments`: one owned leaf for each chunk, joined from the left. -/
def textSegments (inserted : Bool) (text : Bytes) (root : Root) (heap : Heap) :
    Except Error (Root × Heap) :=
  if _h : text = [] then .ok (root, heap)
  else
    let n := chunkLen text
    match heap.reserve n with
    | .error e => .error e
    | .ok heap =>
      let segment : Segment := ⟨heap.next, text.take n, none, inserted⟩
      textSegments inserted (text.drop n)
        (concat root (some (.leaf (.new segment ⟨0, n⟩)))) { heap with next := heap.next + 1 }
termination_by text.length
decreasing_by
  have h1 := chunkLen_pos _h
  have h2 := chunkLen_le text
  simp only [List.length_drop]
  omega

/-- `tree::from_text` -/
def fromText (text : Bytes) (heap : Heap) : Except Error (Root × Heap) :=
  textSegments false text none heap

/-- `tree::from_inserted_text`: text a later typing run may coalesce. -/
def fromInsertedText (text : Bytes) (heap : Heap) : Except Error (Root × Heap) :=
  textSegments true text none heap

/-- `last_leaf` -/
def lastLeafNode : Node → Option Piece
  | .leaf piece => some piece
  | .branch _ right _ _ => lastLeafNode right
  | _ => none

def lastLeaf (root : Root) : Option Piece := root.bind lastLeafNode

/-- The text of the leaf `concat_coalesced` would put in place of `left`'s last leaf: that
leaf's bytes followed by all of `right`. -/
def coalescedText (left right : Root) (limit : Nat) : Option (Nat × Bytes) :=
  let rightBytes := (summary right).bytes
  (lastLeaf left).bind fun piece =>
    let length := piece.range.stop - piece.range.start
    if rightBytes = 0 ∨ piece.segment.inserted = false ∨ piece.segment.origin.isSome ∨
        saturatingAdd length rightBytes > limit then none
    else
      let text := piece.text ++ chunks right ⟨0, rightBytes⟩
      -- source-backed text is unavailable here; keep the pieces separate
      if text.length = length + rightBytes then some (length, text) else none

/-- `tree::concat_coalesced`: typed text joins the small owned leaf before it. -/
def concatCoalesced (left right : Root) (limit : Nat) (heap : Heap) : Root × Heap :=
  match coalescedText left right limit with
  | some (length, text) =>
    match fromInsertedText text heap with
    | .ok (leaf, heap) =>
      let total := (summary left).bytes
      (concat (split left (total - length)).1 leaf, heap)
    | .error _ => (concat left right, heap)
  | none => (concat left right, heap)

end Tree

end BareLine
