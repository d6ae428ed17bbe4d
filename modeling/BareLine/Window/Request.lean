import BareLine.Codec.ValidText
import BareLine.Lib.LineBreaks
import BareLine.Tree.Node

/-!
# Reading a window of a paged document

A window request owns the bytes it has read so far and is polled until the pages it needs are
there.  Only the finished request cuts its edges: first at a CR LF, then at scalars.
-/

namespace BareLine

open Lib

/-! ## §1 Pages -/

/-- `source::Unavailable` -/
inductive Unavailable where
  | sourceChanged
  | invalidRange
  | cancelled
  deriving DecidableEq, Repr

/-- `PageTicket`, with the source instead of its generation. -/
structure PageTicket where
  source : Nat
  page : Nat
  deriving DecidableEq, Repr

/-- What a source has of a page when it is asked: the page itself; nothing, or a cache another
thread holds; nothing, and it never will. -/
inductive PageState where
  | held
  | missing
  | refused (reason : Unavailable)
  deriving DecidableEq, Repr

/-- `SourceRead`; a page slice is its bytes. -/
inductive SourceRead where
  | ready (page : Bytes)
  | pending (ticket : PageTicket)
  | unavailable (reason : Unavailable)
  deriving DecidableEq, Repr

namespace MemorySource

/-- The bytes of one page. -/
def page (self : MemorySource) (index : Nat) : Bytes :=
  (⟨index * self.pageSize, (index + 1) * self.pageSize⟩ : Range).of self.data

/-- `MemorySource::read` -/
def read (self : MemorySource) (state : PageState) (range : Range) : SourceRead :=
  if range.start ≥ range.stop ∨ range.stop > self.data.length ∨
      range.start / self.pageSize ≠ (range.stop - 1) / self.pageSize then
    .unavailable .invalidRange
  else
    let index := range.start / self.pageSize
    match state with
    | .held =>
      let start := range.start % self.pageSize
      .ready ((⟨start, start + (range.stop - range.start)⟩ : Range).of (self.page index))
    | .missing => .pending ⟨self.identity, index⟩
    | .refused reason => .unavailable reason

end MemorySource

namespace Window

open Tree Codec

/-- `tree::Span` -/
inductive Span where
  | ownedSource (source : MemorySource) (range : Range)
  | owned (bytes : Bytes)
  | source (source : MemorySource) (range : Range)
  deriving DecidableEq, Repr

/-- `tree::span_at` below a node. -/
def spanAtNode : Node → Nat → Span
  | .leaf piece, offset => .owned (piece.text.drop offset)
  | .ownedSource source range _ _, offset => .ownedSource source ⟨range.start + offset, range.stop⟩
  | .source source range, offset => .source source ⟨range.start + offset, range.stop⟩
  | .branch left right _ _, offset =>
    if offset < left.summary.bytes then spanAtNode left offset
    else spanAtNode right (offset - left.summary.bytes)

/-- `tree::span_at` -/
def spanAt (root : Root) (offset : Nat) : Option Span := root.map fun node => spanAtNode node offset

/-! ## §2 Requests -/

/-- `PagedSnapshot`, as far as a window reads it. -/
structure PagedSnapshot where
  root : Root
  contentState : Nat
  documentId : Nat
  deriving DecidableEq, Repr

/-- `PagedSnapshot::len` -/
def PagedSnapshot.len (self : PagedSnapshot) : Nat := (summary self.root).bytes

/-- `WindowRequest`; the reservation is the bytes it holds of the budget. -/
structure WindowRequest where
  snapshot : PagedSnapshot
  cursor : Nat
  stop : Nat
  range : Range
  bytes : Option Bytes
  reservation : Option Nat
  alignEdges : Bool
  context : Nat × Nat
  deriving DecidableEq, Repr

namespace PagedSnapshot

/-- `PagedSnapshot::begin_read` -/
def beginRead (self : PagedSnapshot) (range : Range) (maxBytes : Nat) (budget : Heap) :
    Except Error (WindowRequest × Heap) :=
  if range.start > range.stop ∨ range.stop > self.len then .error .outOfBounds
  else
    let length := range.stop - range.start
    if length > maxBytes then .error .budgetExceeded
    else do
      let budget ← budget.reserve length
      .ok (⟨self, range.start, range.stop, range, some [], some length, false, (0, 0)⟩, budget)

/-- Where a display window of `maxBytes` from `start` would end. -/
def windowEnd (self : PagedSnapshot) (start maxBytes : Nat) : Nat :=
  min ((checkedAdd start maxBytes).getD self.len) self.len

/-- `PagedSnapshot::begin_viewport` -/
def beginViewport (self : PagedSnapshot) (start maxBytes : Nat) (budget : Heap) :
    Except Error (WindowRequest × Heap) := do
  let stop := self.windowEnd start maxBytes
  let (request, budget) ← self.beginRead ⟨start, stop⟩ maxBytes budget
  .ok ({ request with alignEdges := true }, budget)

/-- `PagedSnapshot::begin_line_viewport` -/
def beginLineViewport (self : PagedSnapshot) (start maxBytes : Nat) (budget : Heap) :
    Except Error (WindowRequest × Heap) := do
  let stop := self.windowEnd start maxBytes
  let lead := if start > 0 ∧ start ≤ stop then 1 else 0
  let trail := if stop < self.len then 1 else 0
  let (request, budget) ← self.beginRead ⟨start - lead, stop + trail⟩
    (saturatingAdd maxBytes (lead + trail)) budget
  .ok ({ request with alignEdges := true, context := (lead, trail) }, budget)

end PagedSnapshot

/-! ## §3 Edges -/

/-- Bytes and the range they are reported for. -/
structure Edges where
  range : Range
  bytes : Bytes
  deriving DecidableEq, Repr

namespace Edges

/-- Drops the byte behind the window, and a CR it follows as LF. -/
def trimTrail (self : Edges) (lead : Nat) : Edges :=
  let next := self.bytes.getLast?
  let bytes := self.bytes.dropLast
  let stop := self.range.stop - 1
  if next = some LF ∧ bytes.length > lead ∧ bytes.getLast? = some CR then
    ⟨⟨self.range.start, stop - 1⟩, bytes.dropLast⟩
  else ⟨⟨self.range.start, stop⟩, bytes⟩

/-- Drops the byte before the window, and an LF that follows it as CR. -/
def trimLead (self : Edges) : Edges :=
  match self.bytes with
  | [] => self
  | previous :: rest =>
    let skip := if previous = CR ∧ rest.head? = some LF then 2 else 1
    ⟨⟨self.range.start + skip, self.range.stop⟩, self.bytes.drop skip⟩

/-- Drops the end of a scalar that began before the window. -/
def alignFront (self : Edges) : Edges :=
  if self.range.start ≠ 0 then
    let skip := ((self.bytes.take 3).takeWhile isContinuation).length
    ⟨⟨self.range.start + skip, self.range.stop⟩, self.bytes.drop skip⟩
  else self

/-- Drops the start of a scalar that goes on behind the window. -/
def alignBack (self : Edges) (len : Nat) : Edges :=
  if self.range.stop < len then
    match fromUtf8 self.bytes with
    | .error ⟨validUpTo, none⟩ =>
      ⟨⟨self.range.start, self.range.stop - (self.bytes.length - validUpTo)⟩,
        self.bytes.take validUpTo⟩
    | _ => self
  else self

end Edges

/-! ## §4 Polling -/

/-- What one turn of the read loop does. -/
inductive Turn where
  | read (bytes : Bytes) (count : Nat)
  | pending (ticket : PageTicket)
  | unavailable (reason : Unavailable)
  deriving DecidableEq, Repr

/-- One turn over a span with `left` bytes to go; a read stays inside one page. -/
def turn (span : Span) (state : PageState) (left : Nat) : Turn :=
  match span with
  | .owned owned => .read (owned.take (min owned.length left)) (min owned.length left)
  | .source source range | .ownedSource source range =>
    let pageRemaining := source.pageSize - range.start % source.pageSize
    let count := min (min pageRemaining (range.stop - range.start)) left
    match source.read state ⟨range.start, range.start + count⟩ with
    | .ready page => .read page count
    | .pending ticket => .pending ticket
    | .unavailable reason => .unavailable reason

/-- How the read loop of one poll ends. -/
inductive Filled where
  | full (bytes : Bytes)
  | lost (cursor : Nat) (bytes : Bytes)
  | waits (cursor : Nat) (bytes : Bytes) (ticket : PageTicket)
  | fails (cursor : Nat) (reason : Unavailable)
  deriving DecidableEq, Repr

/-- The read loop of `WindowRequest::poll`.  `pages cursor` is what the source under the cursor
has when the loop gets there; `none` is a loop that does not end in that many turns. -/
def fill (root : Root) (stop : Nat) (pages : Nat → PageState) : Nat → Nat → Bytes → Option Filled
  | 0, cursor, bytes => if cursor < stop then none else some (.full bytes)
  | turns + 1, cursor, bytes =>
    if cursor < stop then
      match spanAt root cursor with
      | none => some (.lost cursor bytes)
      | some span =>
        match turn span (pages cursor) (stop - cursor) with
        | .read read count => fill root stop pages turns (cursor + count) (bytes ++ read)
        | .pending ticket => some (.waits cursor bytes ticket)
        | .unavailable reason => some (.fails cursor reason)
    else some (.full bytes)

/-- `TextWindow` -/
structure TextWindow where
  range : Range
  text : Bytes
  contentState : Nat
  documentId : Nat
  reservation : Nat
  deriving DecidableEq, Repr

/-- `WindowPoll` -/
inductive WindowPoll where
  | ready (window : TextWindow)
  | pending (ticket : PageTicket)
  | unavailable (reason : Unavailable)
  | invalidUtf8
  | finished
  deriving DecidableEq, Repr

namespace WindowRequest

/-- The cuts a finished request makes. -/
def settle (self : WindowRequest) (bytes : Bytes) : Edges :=
  let edges : Edges := ⟨self.range, bytes⟩
  let edges := if self.context.2 = 1 then edges.trimTrail self.context.1 else edges
  let edges := if self.context.1 = 1 then edges.trimLead else edges
  if self.alignEdges then edges.alignFront.alignBack self.snapshot.len else edges

/-- `WindowRequest::poll`; `none` is a call that does not return, or panics. -/
def poll (self : WindowRequest) (pages : Nat → PageState) : Option (WindowPoll × WindowRequest) :=
  match self.bytes with
  | none => some (.finished, self)
  | some bytes =>
    match fill self.snapshot.root self.stop pages (self.stop - self.cursor) self.cursor bytes with
    | none => none
    | some (.lost cursor bytes) =>
      some (.finished, { self with cursor := cursor, bytes := some bytes })
    | some (.waits cursor bytes ticket) =>
      some (.pending ticket, { self with cursor := cursor, bytes := some bytes })
    | some (.fails cursor reason) =>
      some (.unavailable reason,
        { self with cursor := cursor, bytes := none, reservation := none })
    | some (.full bytes) =>
      let edges := self.settle bytes
      let request := { self with
        cursor := self.stop, range := edges.range, bytes := none, reservation := none }
      match fromUtf8 edges.bytes, self.reservation with
      | .ok _, none => none
      | .ok text, some reservation =>
        some (.ready ⟨edges.range, text, self.snapshot.contentState, self.snapshot.documentId,
          reservation⟩, request)
      | .error _, _ => some (.invalidUtf8, request)

end WindowRequest

end Window

end BareLine
