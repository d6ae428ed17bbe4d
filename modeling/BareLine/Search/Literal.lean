import BareLine.Search.Engine
import BareLine.Search.Folding
import BareLine.Search.Snapshot
import BareLine.Lib.Kmp

/-!
# The literal scan

`scan` for literal and extended queries: one pass over the bytes to compare of the chunks of
the selection, with the matched symbols of the pattern as the only state that crosses a chunk.
A candidate that cuts a folding or a word falls back to the pattern's overlap; a match starts
over.  Batches go to the consumer as they fill.
-/

namespace BareLine.Search

open Lib
open String (utf8Len)

/-! ## §1 Jobs, matches and results -/

/-- Where the scan looks whether its job was cancelled. -/
inductive Checkpoint where
  | entry
  | unit (seen : Nat)
  | drained
  | finished
  deriving DecidableEq, Repr

/-- `SearchJob`: its number, and what the cancel flag holds at each look. -/
structure SearchJob where
  id : Nat
  cancelled : Checkpoint → Bool

/-- `SearchMatch` -/
structure SearchMatch where
  range : Range
  deriving DecidableEq, Repr

/-- `SearchBatch` -/
structure SearchBatch where
  job : Nat
  revision : Nat
  source : DocumentSnapshot
  found : List SearchMatch
  deriving DecidableEq, Repr

/-- `SearchResults` -/
structure SearchResults where
  job : Nat
  source : DocumentSnapshot
  found : List SearchMatch
  completeness : Completeness
  captures : Option (List Captures)
  captureNames : List (Text × Nat)
  totalCount : Nat
  countComplete : Bool
  deriving DecidableEq, Repr

/-- `BATCH_SIZE` -/
def batchSize : Nat := 128

/-- `MAX_RESULT_BYTES` -/
def MAX_RESULT_BYTES : Nat := 16 * 1024 * 1024

/-- `size_of::<SearchMatch>()`: two words. -/
def sizeOfSearchMatch : Nat := 16

/-- What the crate has from elsewhere: the generated tables and the regex scan. -/
structure Surroundings where
  folding : CaseFolding
  words : List (Nat × Nat)
  regexScan : DocumentSnapshot → SearchQuery → SearchJob → SearchResults × List SearchBatch

/-! ## §2 The pattern and its bytes -/

namespace SearchQuery

/-- The query's pattern, with the escapes of the extended mode replaced. -/
def queryPattern (query : SearchQuery) : Option Text :=
  if query.mode = .extended then decode query.pattern else some query.pattern

end SearchQuery

/-- The loop that folds the pattern; none where it grows beyond `MAX_PATTERN_BYTES`. -/
def foldPattern (folding : CaseFolding) (pattern folded : Text) : Option Text :=
  pattern.foldlM (fun folded c =>
    let mapped := folding.character c
    if MAX_PATTERN_BYTES < utf8Len folded + utf8Len mapped then none else some (folded ++ mapped))
    folded

/-- The bytes to look for; none where the query is refused. -/
def patternBytes (folding : CaseFolding) (query : SearchQuery) : Option (List UInt8) := do
  if query.pattern.isEmpty || decide (MAX_PATTERN_BYTES < utf8Len query.pattern) then none
  else
    let pattern ← query.queryPattern
    if query.case = .folded then (foldPattern folding pattern []).map encode
    else some (encode pattern)

/-! ## §3 One byte -/

/-- What stays the same during a scan. -/
structure ScanContext where
  surroundings : Surroundings
  snapshot : DocumentSnapshot
  query : SearchQuery
  job : SearchJob
  pattern : List UInt8
  table : List Nat
  capacity : Nat

/-- What the scan carries from one byte to the next. -/
structure ScanState where
  completeness : Completeness
  found : List SearchMatch
  totalCount : Nat
  matched : Nat
  emitted : Nat
  seen : Nat
  mapping : List (Nat × Bool)
  batches : List SearchBatch
  deriving DecidableEq, Repr

namespace ScanContext

variable (ctx : ScanContext)

/-- `emit` of the matches that were not emitted. -/
def emit (s : ScanState) : ScanState :=
  { s with
    batches := s.batches ++ [⟨ctx.job.id, ctx.snapshot.revision, ctx.snapshot,
      s.found.drop s.emitted⟩]
    emitted := s.found.length }

/-- A candidate is accepted: it is counted, and kept while there is room. -/
def accept (s : ScanState) (range : Range) : Except ScanState ScanState :=
  if s.found.length = ctx.capacity then
    let s := { s with completeness := .resultLimit }
    if ctx.query.countBeyondLimit then
      .ok { s with totalCount := s.totalCount + 1, matched := 0 }
    else .error s
  else
    let s := { s with
      totalCount := s.totalCount + 1
      found := s.found ++ [⟨range⟩]
      matched := 0 }
    .ok (if s.found.length - s.emitted = batchSize then ctx.emit s else s)

/-- A candidate is refused: the overlap of the pattern with itself is kept. -/
def refuse (s : ScanState) : ScanState :=
  { s with matched := ctx.table.getD (s.matched - 1) 0 }

/-- Where a full match starts, and whether a scalar starts there. -/
def lookup (s : ScanState) (unit : MappedUnit) : Nat × Bool :=
  if s.mapping.isEmpty then (unit.stop - s.matched, true)
  else s.mapping.getD ((s.seen - s.matched) % ctx.pattern.length) (0, false)

/-- The whole pattern matched: its range is looked up, and checked. -/
def candidate (s : ScanState) (unit : MappedUnit) : Except ScanState ScanState :=
  let (start, first) := ctx.lookup s unit
  if !first || !unit.last then .ok (ctx.refuse s)
  else if ctx.query.wholeWord then
    match boundaries ctx.surroundings.words ctx.snapshot start unit.stop with
    | some true => ctx.accept s ⟨start, unit.stop⟩
    | some false => .ok (ctx.refuse s)
    | none => .error { s with completeness := .invalidQuery }
  else ctx.accept s ⟨start, unit.stop⟩

/-- One turn of the loop over the bytes; an error leaves it. -/
def visit (s : ScanState) (unit : MappedUnit) : Except ScanState ScanState :=
  if s.seen % 4096 = 0 ∧ ctx.job.cancelled (.unit s.seen) then
    .error { s with completeness := .cancelled }
  else
    let s := { s with
      mapping := s.mapping.set (s.seen % ctx.pattern.length) (unit.start, unit.first)
      seen := s.seen + 1
      matched := Kmp.advance ctx.pattern ctx.table unit.byte s.matched }
    if s.matched = ctx.pattern.length then ctx.candidate s unit else .ok s

/-- The loop over the chunks from an offset on. -/
def visitChunks (s : ScanState) (offset : Nat) : List Text → Except ScanState ScanState
  | [] => .ok s
  | chunk :: chunks => do
    let units := (MappedBytes.new chunk offset (ctx.query.case == .folded)).all
      ctx.surroundings.folding
    let s ← units.foldlM ctx.visit s
    visitChunks s (offset + utf8Len chunk) chunks

end ScanContext

/-! ## §4 The scan -/

/-- What a scan starts from. -/
def ScanState.initial (query : SearchQuery) (pattern : List UInt8) : ScanState where
  completeness := .complete
  found := []
  totalCount := 0
  matched := 0
  emitted := 0
  seen := 0
  mapping := if query.case = .folded then List.replicate pattern.length (0, false) else []
  batches := []

/-- The end of a scan: the last batch, and what the result says about itself. -/
def ScanContext.finish (ctx : ScanContext) (s : ScanState) : SearchResults × List SearchBatch :=
  let completeness := if ctx.job.cancelled .drained then .cancelled else s.completeness
  let s := if s.emitted < s.found.length then ctx.emit s else s
  let completeness := if ctx.job.cancelled .finished then .cancelled else completeness
  ({ job := ctx.job.id
     source := ctx.snapshot
     found := s.found
     completeness := completeness
     captures := none
     captureNames := []
     totalCount := s.totalCount
     countComplete := completeness = .complete ∨
      (ctx.query.countBeyondLimit ∧ completeness = .resultLimit) }, s.batches)

/-- A result without matches. -/
def emptyResults (snapshot : DocumentSnapshot) (job : SearchJob) (completeness : Completeness) :
    SearchResults where
  job := job.id
  source := snapshot
  found := []
  completeness := completeness
  captures := none
  captureNames := []
  totalCount := 0
  countComplete := false

/-- `scan`: the results, and the batches that went to the consumer. -/
def scan (surroundings : Surroundings) (snapshot : DocumentSnapshot) (query : SearchQuery)
    (job : SearchJob) : SearchResults × List SearchBatch :=
  if job.cancelled .entry then (emptyResults snapshot job .cancelled, [])
  else if !snapshot.complete then (emptyResults snapshot job .unsupported, [])
  else if query.mode = .regex then surroundings.regexScan snapshot query job
  else
    match patternBytes surroundings.folding query with
    | none => (emptyResults snapshot job .invalidQuery, [])
    | some pattern =>
      let range := query.selection.getD ⟨0, snapshot.len⟩
      match snapshot.chunks range with
      | none => (emptyResults snapshot job .invalidQuery, [])
      | some chunks =>
        let ctx : ScanContext :=
          { surroundings, snapshot, query, job, pattern
            table := Kmp.failureTable pattern
            capacity := min query.resultsRamBytes MAX_RESULT_BYTES / sizeOfSearchMatch }
        match ctx.visitChunks (.initial query pattern) range.start chunks with
        | .ok s => ctx.finish s
        | .error s => ctx.finish s

end BareLine.Search
