import BareLine.Codec.Utf8
import BareLine.Tree.Text

/-!
# Resident documents and their original bytes

A file opened as UTF-8 keeps no copy of its bytes.  What is kept is the decoded text, a flag
for the byte order mark, and for each invalid unit its text range and its bytes; from these
`read_original` gives back any range of the file.

Encodings other than UTF-8 keep the raw bytes and are not modelled; neither are line ending
statistics and the invalid byte counters, which nothing here reads.
-/

namespace BareLine.Codec

open Lib

/-! ## §1 The collector -/

/-- `Encoding::Utf8.bom()` -/
def BOM : Bytes := [0xEF, 0xBB, 0xBF]

/-- `REPLACEMENT_LEN` -/
def REPLACEMENT_LEN : Nat := 3

/-- `size_of::<Mapping>()` -/
def MAPPING_SIZE : Nat := 56

/-- `Mapping` -/
structure Mapping where
  text : Range
  raw : Range
  isOpaque : Bool
  textUnit : Nat
  rawUnit : Nat
  deriving DecidableEq, Repr

/-- `DecodedSpan` -/
structure DecodedSpan where
  text : Bytes
  original : Range
  opaqueBytes : Option Bytes
  deriving DecidableEq, Repr

/-- Why a write failed: a quota or budget refused growth (`exhaust`), or the document did. -/
inductive CodecError where
  | exhausted
  | document (error : Error)
  deriving DecidableEq, Repr

/-- `Collector` under UTF-8 identity provenance; `root` and `revision` are the document of its
builder, `heap` the shared budget. -/
structure Collector where
  text : Bytes
  mapping : List Mapping
  mappingCapacity : Nat
  bom : Bool
  textOffset : Nat
  root : Tree.Root
  revision : Nat
  heap : Heap
  mappingLimit : Nat
  opaqueRaw : Bytes
  opaqueCapacity : Nat
  deriving DecidableEq, Repr

namespace Collector

/-- `self.budget.claim(bytes)`, exhausted when refused. -/
def claim (self : Collector) (bytes : Nat) : Except CodecError Collector :=
  match self.heap.reserve bytes with
  | .ok heap => .ok { self with heap := heap }
  | .error _ => .error .exhausted

/-- Room for one more mapping. -/
def reserveMapping (self : Collector) : Except CodecError Collector :=
  if self.mapping.length ≥ self.mappingLimit then .error .exhausted
  else if self.mapping.length = self.mappingCapacity then
    let additional := min (self.mappingLimit - self.mapping.length) 1024
    (self.claim (additional * MAPPING_SIZE)).map fun self =>
      { self with mappingCapacity := self.mapping.length + additional }
  else .ok self

/-- Room for the bytes of one more invalid unit. -/
def reserveOpaque (self : Collector) (length : Nat) : Except CodecError Collector :=
  if self.opaqueCapacity - self.opaqueRaw.length < length then
    let additional := max length (max 4096 (min self.opaqueRaw.length (2 ^ 20)))
    (self.claim additional).map fun self =>
      { self with opaqueCapacity := self.opaqueRaw.length + additional }
  else .ok self

/-- `Collector::flush` -/
def flush (self : Collector) : Except CodecError Collector :=
  if self.text = [] then .ok self
  else match Tree.fromText self.text self.heap with
    | .error .budgetExceeded => .error .exhausted
    | .error error => .error (.document error)
    | .ok (suffix, heap) =>
      if self.revision = 2 ^ 64 - 1 then .error (.document .revisionOverflow)
      else .ok { self with
        root := Tree.concat self.root suffix
        revision := self.revision + 1
        heap := heap
        textOffset := self.textOffset + self.text.length
        text := [] }

/-- The reservations for the mapping of a span. -/
def reserve (self : Collector) (span : DecodedSpan) : Except CodecError Collector :=
  match span.opaqueBytes with
  | some bytes => do
    let self ← self.reserveMapping
    self.reserveOpaque bytes.length
  | none => .ok self

/-- All a write does before it takes the span. -/
def prepare (self : Collector) (span : DecodedSpan) : Except CodecError Collector := do
  let self ← self.reserve span
  if self.text.length + span.text.length > 65536 then self.flush else .ok self

/-- The text of a span, and its mapping if it is an invalid unit. -/
def record (self : Collector) (span : DecodedSpan) : Collector :=
  let start := self.textOffset + self.text.length
  let self := { self with text := self.text ++ span.text }
  match span.opaqueBytes with
  | none => self
  | some bytes =>
    { self with
      opaqueRaw := self.opaqueRaw ++ bytes
      mapping := self.mapping ++ [{
        text := ⟨start, self.textOffset + self.text.length⟩
        raw := ⟨self.opaqueRaw.length, self.opaqueRaw.length + bytes.length⟩
        isOpaque := true
        textUnit := span.text.length
        rawUnit := span.original.len }] }

/-- `Collector::write` -/
def write (self : Collector) (span : DecodedSpan) : Except CodecError Collector :=
  if span.text = [] then .ok self
  else (self.prepare span).map fun self => self.record span

end Collector

/-! ## §2 The decoder -/

/-- `Decoder`, for UTF-8. -/
structure Decoder where
  pending : Bytes
  offset : Nat
  start : Bool
  deriving DecidableEq, Repr

namespace Decoder

/-- `Decoder::new` -/
def new : Decoder := ⟨[], 0, true⟩

/-- The end of the search for a byte order mark. -/
def settle (self : Decoder) : Decoder :=
  if self.start then
    if self.pending = BOM then ⟨[], self.offset + BOM.length, false⟩
    else { self with start := false }
  else self

/-- Whether the next byte may still belong to a byte order mark. -/
def awaitsBom (self : Decoder) (finalUnit : Bool) : Bool :=
  self.start && self.pending.isPrefixOf BOM && decide (self.pending.length < BOM.length) &&
    !finalUnit

theorem settle_pending_le (self : Decoder) : self.settle.pending.length ≤ self.pending.length := by
  unfold settle
  split_ifs
  · exact Nat.zero_le _
  · exact Nat.le_refl _
  · exact Nat.le_refl _

/-- `bool::then_some` -/
def thenSome (condition : Bool) (bytes : Bytes) : Option Bytes :=
  if condition then some bytes else none

/-- The raw bytes the next bulk span takes; a third of the sink's room, which has no bound, is
the most. -/
def bulkRead (self : Decoder) (raw : Bytes) : Nat :=
  if self.pending = [] then bulkLen (raw.take (usizeMax / 3)) else 0

theorem bulkRead_le (self : Decoder) (raw : Bytes) : self.bulkRead raw ≤ raw.length := by
  unfold bulkRead
  split_ifs
  · refine Nat.le_trans (bulkLen_le _) ?_
    rw [List.length_take]
    exact Nat.min_le_right _ _
  · exact Nat.zero_le _

theorem pending_of_bulkRead {self : Decoder} {raw : Bytes} (h : 0 < self.bulkRead raw) :
    self.pending = [] := by
  unfold bulkRead at h
  split_ifs at h with hpending
  · exact hpending
  · exact absurd h (Nat.lt_irrefl 0)

theorem bulkRead_head {self : Decoder} {raw : Bytes} (h : 0 < self.bulkRead raw) :
    ∀ b ∈ raw.head?, isContinuation b = false := by
  have hlen := h
  unfold bulkRead at hlen
  rw [if_pos (pending_of_bulkRead h)] at hlen
  have hhead := bulkLen_head hlen
  rw [List.head?_take, if_neg (by decide)] at hhead
  exact hhead

/-- The loop of `Decoder::push`, over the raw bytes that are left. -/
def push (self : Decoder) (raw : Bytes) (last : Bool) (out : Collector) :
    Except CodecError (Decoder × Collector) :=
  if self.awaitsBom (last && raw.isEmpty) then
    match raw with
    | [] => .ok (self, out)
    | byte :: rest => push { self with pending := self.pending ++ [byte] } rest last out
  else
    if _hread : 0 < self.settle.bulkRead raw then
      match out.write ⟨raw.take (self.settle.bulkRead raw),
          ⟨self.settle.offset, self.settle.offset + self.settle.bulkRead raw⟩, none⟩ with
      | .error error => .error error
      | .ok out =>
        push { self.settle with offset := self.settle.offset + self.settle.bulkRead raw }
          (raw.drop (self.settle.bulkRead raw)) last out
    else
      match _hunit : unit self.settle.pending (last && raw.isEmpty) with
      | some (n, text, invalid) =>
        match out.write ⟨text, ⟨self.settle.offset, self.settle.offset + n⟩,
            thenSome invalid (self.settle.pending.take n)⟩ with
        | .error error => .error error
        | .ok out =>
          push ⟨self.settle.pending.drop n, self.settle.offset + n, self.settle.start⟩ raw last out
      | none =>
        match raw with
        | [] => .ok (self.settle, out)
        | byte :: rest =>
          push { self.settle with pending := self.settle.pending ++ [byte] } rest last out
termination_by 2 * raw.length + self.pending.length
decreasing_by
  · simp only [List.length_cons, List.length_append, List.length_nil]
    omega
  · have hread := self.settle.bulkRead_le raw
    have hle := settle_pending_le self
    show 2 * (raw.drop (self.settle.bulkRead raw)).length + self.settle.pending.length < _
    rw [List.length_drop]
    omega
  · have hle := settle_pending_le self
    have hbounds := unit_bounds _hunit
    simp only [List.length_drop]
    omega
  · have hle := settle_pending_le self
    simp only [List.length_cons, List.length_append, List.length_nil]
    omega

end Decoder

/-! ## §3 The builder -/

inductive ResidentError where
  | limit
  | document (error : Error)
  | codec (error : CodecError)
  deriving DecidableEq, Repr

/-- `Collector::error`: exhaustion is a size outcome. -/
def residentError : CodecError → ResidentError
  | .exhausted => .limit
  | error => .codec error

/-- `ResidentBuilder` -/
structure ResidentBuilder where
  decoder : Decoder
  collector : Collector
  rawLimit : Nat
  received : Nat
  deriving DecidableEq, Repr

/-- `ResidentEncoding` under UTF-8 identity provenance. -/
structure ResidentEncoding where
  raw : Bytes
  originalBom : Bool
  originalLen : Nat
  baseline : Tree.Root
  mapping : List Mapping
  deriving DecidableEq, Repr

namespace ResidentBuilder

/-- `ResidentBuilder::new` -/
def new (sample : Bytes) (bytes : Heap) (rawLimit maxMappingBytes : Nat) :
    Except ResidentError ResidentBuilder :=
  match bytes.reserve 65536 with
  | .error error => .error (.document error)
  | .ok heap => .ok {
      decoder := .new
      collector := {
        text := []
        mapping := []
        mappingCapacity := 0
        bom := BOM.isPrefixOf sample
        textOffset := 0
        root := none
        revision := 0
        heap := heap
        mappingLimit := maxMappingBytes / MAPPING_SIZE
        opaqueRaw := []
        opaqueCapacity := 0 }
      rawLimit := rawLimit
      received := 0 }

/-- `ResidentBuilder::push`; the loop consumes every byte it accepts. -/
def push (self : ResidentBuilder) (raw : Bytes) : Except ResidentError ResidentBuilder :=
  if raw.length > self.rawLimit - self.received then .error .limit
  else match self.decoder.push raw false self.collector with
    | .error error => .error (residentError error)
    | .ok (decoder, collector) => .ok { self with
        decoder := decoder
        collector := collector
        received := self.received + raw.length }

/-- `ResidentBuilder::prefix`, which hands out the snapshot of what was flushed. -/
def flushed (self : ResidentBuilder) : Except ResidentError ResidentBuilder :=
  match self.collector.flush with
  | .error error => .error (residentError error)
  | .ok collector => .ok { self with collector := collector }

/-- The end of decoding: the last unit and the last text. -/
def drain (self : ResidentBuilder) : Except CodecError Collector :=
  match self.decoder.push [] true self.collector with
  | .error error => .error error
  | .ok (_, collector) => collector.flush

/-- Whether the BOM, the text and the invalid units make up what was received. -/
def rebuilds (collector : Collector) (received : Nat) : Bool :=
  let bom := if collector.bom then BOM.length else 0
  let oneUnit := collector.mapping.all fun m => m.text.len == REPLACEMENT_LEN
  let opaqueText := collector.mapping.length * REPLACEMENT_LEN
  oneUnit && checkedSub (bom + (Tree.summary collector.root).bytes + collector.opaqueRaw.length)
    opaqueText == some received

/-- `ResidentBuilder::finish` -/
def finish (self : ResidentBuilder) : Except ResidentError ResidentEncoding :=
  match self.drain with
  | .error error => .error (residentError error)
  | .ok collector =>
    if rebuilds collector self.received then .ok {
      raw := collector.opaqueRaw
      originalBom := collector.bom
      originalLen := self.received
      baseline := collector.root
      mapping := collector.mapping }
    else .error .limit

/-- What the reader of the file does: more bytes, or a look at the text so far. -/
inductive Feed where
  | push (raw : Bytes)
  | peek

def Feed.bytes : Feed → Bytes
  | .push raw => raw
  | .peek => []

/-- All the calls before `finish`. -/
def feed (self : ResidentBuilder) : List Feed → Except ResidentError ResidentBuilder
  | [] => .ok self
  | .push raw :: rest => do
    let self ← self.push raw
    self.feed rest
  | .peek :: rest => do
    let self ← self.flushed
    self.feed rest

end ResidentBuilder

/-! ## §4 Reading the original -/

/-- `Ord::clamp` -/
def clamp (x low high : Nat) : Nat := max low (min x high)

/-- The part of a segment inside the range, relative to where the segment starts. -/
def clip (range : Range) (position length : Nat) : Range :=
  ⟨clamp range.start position (position + length) - position,
    clamp range.stop position (position + length) - position⟩

/-- What is visited of a segment. -/
def part (range : Range) (position : Nat) (bytes : Bytes) : List Bytes :=
  if (clip range position bytes.length).isEmpty then []
  else [(clip range position bytes.length).of bytes]

/-- The loop over the chunks of the baseline. -/
def slices (range : Range) : Nat → List Bytes → List Bytes
  | _, [] => []
  | position, chunk :: rest =>
    part range position chunk ++ slices range (position + chunk.length) rest

/-- `DocumentSnapshot::is_boundary` -/
def isBoundary (baseline : Tree.Root) (offset : Nat) : Bool :=
  decide (offset ≤ (Tree.summary baseline).bytes) && Tree.boundary baseline offset

/-- `DocumentSnapshot::chunks` -/
def baselineChunks (baseline : Tree.Root) (range : Range) : Except Error (List Bytes) :=
  if range.start > range.stop ∨ range.stop > (Tree.summary baseline).bytes then
    .error .outOfBounds
  else if ¬isBoundary baseline range.start ∨ ¬isBoundary baseline range.stop then
    .error .invalidBoundary
  else if range.isEmpty then .ok []
  else .ok (baseline.elim [] fun node => (Tree.chunksNode node range).1)

/-- `start -= 1` until `start` is a boundary. -/
def boundaryDown (baseline : Tree.Root) : Nat → Option Nat
  | 0 => if isBoundary baseline 0 then some 0 else none
  | start + 1 =>
    if isBoundary baseline (start + 1) then some (start + 1) else boundaryDown baseline start

/-- `end += 1` until `end` is a boundary; none beyond the text, where the loop does not end. -/
def boundaryUp (baseline : Tree.Root) : Nat → Nat → Option Nat
  | 0, _ => none
  | fuel + 1, stop =>
    if isBoundary baseline stop then some stop else boundaryUp baseline fuel (stop + 1)

namespace ResidentEncoding

/-- The valid text `a..b` of the baseline. -/
def visitValid (self : ResidentEncoding) (a b : Nat) :
    Option (Except ResidentError (List Bytes)) := do
  let start ← boundaryDown self.baseline a
  let stop ← boundaryUp self.baseline ((Tree.summary self.baseline).bytes + 1 - b) b
  match baselineChunks self.baseline ⟨start, stop⟩ with
  | .error error => some (.error (.document error))
  | .ok chunks => some (.ok (slices ⟨a, b⟩ start chunks))

def bomBytes (self : ResidentEncoding) : Bytes := if self.originalBom then BOM else []

/-- `unit_start` -/
def unitStart (self : ResidentEncoding) (k : Nat) : Option Nat := do
  let m ← self.mapping[k]?
  checkedSub (self.bomBytes.length + m.raw.start + m.text.start) (k * REPLACEMENT_LEN)

/-- The binary search for the first unit that ends past `start`. -/
def firstUnit (self : ResidentEncoding) (start low high : Nat) : Option Nat :=
  if _h : low < high then do
    let mid := low + (high - low) / 2
    let at_ ← self.unitStart mid
    let m ← self.mapping[mid]?
    if at_ + m.raw.len ≤ start then self.firstUnit start (mid + 1) high
    else self.firstUnit start low mid
  else some low
termination_by high - low

/-- `self.raw[range]` -/
def opaqueBytes (self : ResidentEncoding) (range : Range) : Option Bytes :=
  if range.start ≤ range.stop ∧ range.stop ≤ self.raw.length then some (range.of self.raw)
  else none

/-- The clipped valid text before a unit, read unless it is empty. -/
def visitGap (self : ResidentEncoding) (cursor : Nat) (inside : Range) :
    Option (Except ResidentError (List Bytes)) :=
  if inside.isEmpty then some (.ok [])
  else self.visitValid (cursor + inside.start) (cursor + inside.stop)

/-- Where the walk starts: behind the units before the first one. -/
def resume (self : ResidentEncoding) : Nat → Option (Nat × Nat)
  | 0 => some (self.bomBytes.length, 0)
  | k + 1 => do
    let start ← self.unitStart k
    let m ← self.mapping[k]?
    some (start + m.raw.len, m.text.stop)

/-- The loop over the units from the first one on, and the text behind the last. -/
def walk (self : ResidentEncoding) (range : Range) :
    Nat → Nat → List (Range × Option Range) → Option (Except ResidentError (List Bytes))
  | _, _, [] => some (.ok [])
  | position, cursor, (text, raw) :: rest =>
    if position ≥ range.stop then some (.ok [])
    else do
      let gap ← checkedSub text.start cursor
      match ← self.visitGap cursor (clip range position gap) with
      | .error error => some (.error error)
      | .ok valid =>
        let position := position + gap
        let opaqueBytes ← raw.elim (some []) self.opaqueBytes
        let more ← self.walk range (position + opaqueBytes.length) text.stop rest
        some (more.map fun more => valid ++ part range position opaqueBytes ++ more)

/-- `ResidentEncoding::visit_original`; the outer option is none where an index or a subtraction
is out of range. -/
def visitOriginal (self : ResidentEncoding) (range : Range) :
    Option (Except ResidentError (List Bytes)) :=
  if range.start > range.stop ∨ range.stop > self.originalLen then some (.error .limit)
  else do
    let bom := self.bomBytes
    let first ← self.firstUnit range.start 0 self.mapping.length
    let (position, cursor) ← self.resume first
    let _ ← checkedSub self.mapping.length first
    let length := (Tree.summary self.baseline).bytes
    let spans := (self.mapping.drop first).map (fun m => (m.text, some m.raw)) ++
      [(⟨length, length⟩, none)]
    let visited ← self.walk range position cursor spans
    some (visited.map fun visited => part range 0 bom ++ visited)

/-- `ResidentEncoding::read_original` -/
def readOriginal (self : ResidentEncoding) (range : Range) :
    Option (Except ResidentError Bytes) :=
  if range.start > range.stop ∨ range.stop > self.originalLen then some (.error .limit)
  else (self.visitOriginal range).map fun visited => visited.map List.flatten

end ResidentEncoding

end BareLine.Codec
