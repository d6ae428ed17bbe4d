import BareLine.Recovery.Replay
import BareLine.Document.Types

/-!
# The recovery journal

`RecoveryWriter` appends CRC-framed records to `journal.bin`, each next to a segment file
that holds its bytes; `scan` reads the journal back and keeps the records it can validate.
-/

namespace BareLine

open Lib

/-! ## §1 Manifests, hashes and formats -/

/-- `RecoveryMetadata` -/
structure RecoveryMetadata where
  originalPath : Option String
  sourceGeneration : String
  codecCatalogVersion : String
  originalLen : Nat
  deriving DecidableEq, Repr

structure Manifest where
  version : Nat
  metadata : RecoveryMetadata
  baseline : Option Blob
  durable : Option DurableReceipt
  retired : Bool
  deriving DecidableEq, Repr

/-- The functions of the bytes, manifests and records that are not the journal's own. -/
structure Format where
  sha256 : Bytes → Bytes
  crc32c : Bytes → UInt32
  /-- `serde_json::to_vec` of a record -/
  encode : Record → Bytes
  /-- `serde_json::from_slice::<Record>` -/
  decode : Bytes → Option Record
  /-- `serde_json::to_vec` of a manifest -/
  encodeManifest : Manifest → Bytes
  /-- `serde_json::from_slice::<Manifest>` -/
  decodeManifest : Bytes → Option Manifest

/-- JSON encoding and decoding is a round trip, and no record is encoded as nothing. -/
structure Format.RoundTrip (format : Format) : Prop where
  decode_encode : ∀ record, format.decode (format.encode record) = some record
  encode_ne_nil : ∀ record, format.encode record ≠ []
  decode_manifest : ∀ m, format.decodeManifest (format.encodeManifest m) = some m

/-- `VERSION` -/
def VERSION : Nat := 2

/-- `MAX_RECORD` -/
def MAX_RECORD : Nat := 1024 * 1024

/-- `MAX_TRANSACTION` -/
def MAX_TRANSACTION : Nat := 16 * 1024 * 1024

/-- `MAX_RECORDS` -/
def MAX_RECORDS : Nat := 100000

/-- `MAX_JOURNAL` -/
def MAX_JOURNAL : Nat := 64 * 1024 * 1024

/-- `format!("segment-{revision}.bin")` -/
def segmentName (revision : Nat) : String := "segment-" ++ toString revision ++ ".bin"

/-! ## §2 Frames -/

/-- `u32::to_le_bytes` -/
def toLeBytes (n : UInt32) : Bytes :=
  [n.toNat, n.toNat / 256, n.toNat / 65536, n.toNat / 16777216].map UInt8.ofNat

/-- `u32::from_le_bytes` -/
def fromLeBytes : Bytes → UInt32
  | [a, b, c, d] =>
    UInt32.ofNat (a.toNat + 256 * b.toNat + 65536 * c.toNat + 16777216 * d.toNat)
  | _ => 0

/-- A journal frame: length, checksum, bytes. -/
def frame (format : Format) (bytes : Bytes) : Bytes :=
  toLeBytes (UInt32.ofNat bytes.length) ++ toLeBytes (format.crc32c bytes) ++ bytes

/-- The frames of records, one after the other. -/
def frames (format : Format) (records : List Record) : Bytes :=
  records.flatMap fun record => frame format (format.encode record)

/-! ## §3 The writer -/

/-- `RecoveryWriter` and its directory: `files` holds the segments, the baseline and the
tombstone, `journal` the bytes of `journal.bin`, `published` those of `manifest.json` and
`previous` those of `manifest.previous.json`. -/
structure RecoveryWriter where
  files : Files
  journal : Bytes
  published : Option Bytes
  previous : Option Bytes
  manifest : Manifest
  poisoned : Bool
  records : Nat
  currentLen : Nat

/-- `Boundary`, as far as an append reaches. -/
inductive Boundary where
  | segmentsWritten
  | segmentsFlushed
  | journalWritten
  | journalFlushed
  deriving DecidableEq, Repr

/-- The first thing that fails during an append, in the order it is reached: storage calls
may fail anywhere, a write after any number of bytes. -/
inductive Stop where
  | segmentOpen
  | segmentWrite (bytes : Nat)
  | boundary (reached : Boundary)
  | segmentSync
  | sealedRead
  | journalLen
  | journalWrite (bytes : Nat)
  | journalSync
  deriving DecidableEq, Repr

def storageError : IoError := ⟨.other, "storage failure"⟩

/-- `edited_len`, from the cursor behind the edits already counted. -/
def editedLenFrom (sourceLen : Nat) : Nat → Nat → List EditRef → Except IoError Nat
  | _, result, [] => .ok result
  | cursor, result, edit :: rest =>
    match endWithin edit.offset edit.removed sourceLen with
    | none => .error (invalid "recovery edit outside source")
    | some stop =>
      if edit.offset < cursor then .error (invalid "overlapping recovery edits")
      else if result < edit.removed then .error (invalid "recovery length overflow")
      else
        match checkedAdd (result - edit.removed) edit.inserted with
        | none => .error (invalid "recovery length overflow")
        | some result => editedLenFrom sourceLen stop result rest

/-- `edited_len` -/
def editedLen (sourceLen : Nat) (edits : List EditRef) : Except IoError Nat :=
  editedLenFrom sourceLen 0 sourceLen edits

/-- The payload size of edits, `removed` then `inserted`, in checked arithmetic. -/
def payloadLen : Nat → List EditRef → Option Nat
  | total, [] => some total
  | total, edit :: rest => do
    let total ← checkedAdd total edit.removed
    let total ← checkedAdd total edit.inserted
    payloadLen total rest

/-- `DocumentMetadata::new` -/
def DocumentMetadata.new (values : List (String × String)) : Except Error DocumentMetadata :=
  let bytes := (values.map fun (key, value) => key.utf8ByteSize + value.utf8ByteSize).sum
  if bytes > usizeMax ∨ values.length > 64 ∨ bytes > 64 * 1024 ∨
      values.any fun (key, _) => key.isEmpty then .error .budgetExceeded
  else .ok ⟨values⟩

/-- `DocumentMetadata` values outside this module have passed `new`. -/
abbrev BoundedMetadata := { m : DocumentMetadata // DocumentMetadata.new m.values = .ok m }

/-- An append whose arguments passed every check: its record, the bytes of its segment, and
the document length behind it.  `mismatch` is what a payload of another length fails with,
where the payload comes from elsewhere. -/
structure Prepared where
  record : Record
  payload : Bytes
  mismatch : Option String
  nextLen : Nat

def Files.write (files : Files) (name : String) (bytes : Bytes) : Files :=
  fun other => if other = name then some bytes else files other

/-- `read_manifest_file`, of what a file holds. -/
def readManifestFile (format : Format) (file : Option Bytes) : Except IoError Manifest :=
  match file with
  | none => .error ⟨.notFound, "No such file or directory"⟩
  | some bytes =>
    if bytes.length > 32 * 1024 then .error (invalid "recovery manifest limit")
    else
      match format.decodeManifest bytes with
      | none => .error ⟨.other, "malformed JSON"⟩
      | some m =>
        if !(m.version == 1 || m.version == VERSION) ∨
            m.metadata.sourceGeneration.utf8ByteSize > 4096 ∨
            m.metadata.codecCatalogVersion.utf8ByteSize > 4096 then
          .error (invalid "unsupported recovery manifest")
        else if m.baseline.any fun blob =>
            blob.name != "baseline.bin" || blob.len != m.metadata.originalLen then
          .error (invalid "invalid baseline identity")
        else .ok m

namespace RecoveryWriter

variable (format : Format) (w : RecoveryWriter)

/-- The manifest `RecoveryWriter::create` publishes. -/
def firstManifest (metadata : RecoveryMetadata) : Manifest :=
  ⟨VERSION, metadata, none, none, false⟩

/-- `RecoveryWriter::create`, in a directory of its own.  The size of the manifest's text is
not checked here, nor where it is published. -/
def create (metadata : RecoveryMetadata) : Except IoError RecoveryWriter :=
  if metadata.sourceGeneration.utf8ByteSize > 4096 ∨
      metadata.codecCatalogVersion.utf8ByteSize > 4096 then
    .error (invalid "recovery metadata limit")
  else
    let manifest := firstManifest metadata
    .ok ⟨fun _ => none, [], some (format.encodeManifest manifest), none, manifest, false, 0,
      metadata.originalLen⟩

/-- `ensure_writable` -/
def ensureWritable : Except IoError Unit :=
  if w.poisoned ∨ w.manifest.retired ∨ (w.files "retired.json").isSome then
    .error ⟨.other, "recovery unavailable; keep last durable receipt and create a new writer"⟩
  else .ok ()

/-- The last acknowledged revision is not below `revision`. -/
def reaches (revision : Nat) : Bool :=
  match w.manifest.durable with
  | some receipt => decide (revision ≤ receipt.revision)
  | none => false

/-- What the three append paths do once their arguments are checked: write the segment, then
the frame, then acknowledge.  Every failure poisons the writer. -/
def store (p : Prepared) (stop : Option Stop) : Except IoError DurableReceipt × RecoveryWriter :=
  let failed := fun (error : IoError) (w : RecoveryWriter) =>
    ((.error error, { w with poisoned := true }) : Except IoError DurableReceipt × RecoveryWriter)
  let name := p.record.segment.name
  -- `create_new`: an existing segment is never written again.
  if (w.files name).isSome then failed ⟨.alreadyExists, "File exists"⟩ w
  else if stop = some .segmentOpen then failed storageError w
  else
    match stop with
    | some (.segmentWrite bytes) =>
      failed storageError { w with files := w.files.write name (p.payload.take bytes) }
    | _ =>
      let w := { w with files := w.files.write name p.payload }
      if stop = some (.boundary .segmentsWritten) ∨ stop = some .segmentSync ∨
          stop = some (.boundary .segmentsFlushed) ∨ stop = some .sealedRead then
        failed storageError w
      else if p.mismatch.isSome ∧ p.payload.length ≠ p.record.segment.len then
        failed (invalid (p.mismatch.getD "")) w
      else if stop = some .journalLen then failed storageError w
      else
        let bytes := format.encode p.record
        if bytes.length > MAX_RECORD ∨ w.journal.length + bytes.length + 8 > MAX_JOURNAL then
          failed (invalid "recovery journal quota") w
        else
          match stop with
          | some (.journalWrite n) =>
            failed storageError { w with journal := w.journal ++ (frame format bytes).take n }
          | _ =>
            let w := { w with journal := w.journal ++ frame format bytes }
            if stop = some (.boundary .journalWritten) ∨ stop = some .journalSync ∨
                stop = some (.boundary .journalFlushed) then
              failed storageError w
            else
              (.ok p.record.receipt,
                { w with manifest := { w.manifest with durable := some p.record.receipt },
                         records := w.records + 1, currentLen := p.nextLen })

/-- The checks of `append_record`. -/
def prepareRecord (revision : Nat) (edits : List RecoveryEdit)
    (metadata : Option (List (String × String))) (now : Nat) : Except IoError Prepared := do
  w.ensureWritable
  if (edits.isEmpty ∧ metadata.isNone) ∨ edits.length > 4096 ∨ w.records ≥ MAX_RECORDS ∨
      w.reaches revision then
    .error (invalid "invalid recovery transaction")
  else
    let refs := edits.map fun e => (⟨e.offset, e.removed.length, e.inserted.length⟩ : EditRef)
    match (payloadLen 0 refs).filter fun n => decide (n ≤ MAX_TRANSACTION) with
    | none => .error (invalid "recovery transaction limit")
    | some size =>
      let nextLen ← editedLen w.currentLen refs
      let payload := edits.flatMap fun e => e.removed ++ e.inserted
      .ok ⟨⟨VERSION, metadata, ⟨revision, now⟩,
        ⟨segmentName revision, size, format.sha256 payload⟩, refs⟩, payload, none, nextLen⟩

/-- The quota checks the streaming paths make before they open a segment: `admitted` is the
answer of the disk ledger. -/
def admitStream (record : Record) (admitted : Bool) : Except IoError Unit :=
  let bound := (format.encode { record with
    segment := { record.segment with sha256 := List.replicate 32 255 } }).length + 8
  if bound > MAX_RECORD + 8 ∨ w.journal.length + bound > MAX_JOURNAL then
    .error (invalid "recovery journal quota")
  else if !admitted then .error ⟨.other, "recovery quota"⟩
  else .ok ()

/-- A range of an owned source. -/
structure OwnedTextRange where
  source : Bytes
  range : Range
  deriving DecidableEq, Repr

structure SourceEdit where
  range : Range
  inverse : OwnedTextRange
  inserted : OwnedTextRange
  deriving DecidableEq, Repr

/-- The references of source edits, whose inverse must be as long as the range. -/
def sourceRefs : List SourceEdit → Except IoError (List EditRef)
  | [] => .ok []
  | edit :: rest =>
    if edit.inverse.range.stop < edit.inverse.range.start then .error (invalid "inverse range")
    else if edit.inserted.range.stop < edit.inserted.range.start then
      .error (invalid "inserted range")
    else if edit.range.stop < edit.range.start ∨ edit.range.len ≠ edit.inverse.range.len then
      .error (invalid "inverse length mismatch")
    else do
      let refs ← sourceRefs rest
      .ok (⟨edit.range.start, edit.inverse.range.len, edit.inserted.range.len⟩ :: refs)

/-- The checks of `append_source_with_faults`. -/
def prepareSource (revision : Nat) (edits : List SourceEdit) (metadata : BoundedMetadata)
    (admitted : Bool) (now : Nat) : Except IoError Prepared := do
  w.ensureWritable
  if edits.isEmpty ∨ edits.length > 4096 ∨ w.records ≥ MAX_RECORDS ∨ w.reaches revision then
    .error (invalid "invalid streaming recovery transaction")
  else
    let refs ← sourceRefs edits
    match payloadLen 0 refs with
    | none => .error (invalid "stream payload overflow")
    | some size =>
      let nextLen ← editedLen w.currentLen refs
      let payload := edits.flatMap fun e =>
        e.inverse.range.of e.inverse.source ++ e.inserted.range.of e.inserted.source
      let record : Record := ⟨3, some metadata.1.values, ⟨revision, now⟩,
        ⟨segmentName revision, size, format.sha256 payload⟩, refs⟩
      w.admitStream format record admitted
      .ok ⟨record, payload, some "sealed payload length changed", nextLen⟩

/-- The checks of `append_streams`; `payload` is what the caller's closure writes. -/
def prepareStreams (revision : Nat) (ranges : List EditRef) (metadata : BoundedMetadata)
    (payload : Bytes) (admitted : Bool) (now : Nat) : Except IoError Prepared := do
  w.ensureWritable
  if ranges.length > 4096 ∨ w.records ≥ MAX_RECORDS ∨ w.reaches revision then
    .error (invalid "invalid streaming recovery transaction")
  else
    match payloadLen 0 ranges with
    | none => .error (invalid "stream payload overflow")
    | some size =>
      let nextLen ← editedLen w.currentLen ranges
      let record : Record := ⟨3, some metadata.1.values, ⟨revision, now⟩,
        ⟨segmentName revision, size, format.sha256 payload⟩, ranges⟩
      w.admitStream format record admitted
      let mismatch := if payload.length > size then "stream payload exceeds declared length"
        else "stream payload length mismatch"
      .ok ⟨record, payload, some mismatch, nextLen⟩

/-- The arguments of one append. -/
inductive Append where
  /-- `append` -/
  | edits (revision : Nat) (edits : List RecoveryEdit)
  /-- `append_metadata` -/
  | metadata (revision : Nat) (metadata : BoundedMetadata)
  /-- `append_source_transaction` -/
  | source (revision : Nat) (edits : List SourceEdit) (metadata : BoundedMetadata)
      (admitted : Bool)
  /-- `append_streams` -/
  | streams (revision : Nat) (ranges : List EditRef) (metadata : BoundedMetadata)
      (payload : Bytes) (admitted : Bool)

/-- The checks of an append at the time `now`. -/
def prepare (now : Nat) : Append → Except IoError Prepared
  | .edits revision edits => w.prepareRecord format revision edits none now
  | .metadata revision metadata => w.prepareRecord format revision [] (some metadata.1.values) now
  | .source revision edits metadata admitted =>
    w.prepareSource format revision edits metadata admitted now
  | .streams revision ranges metadata payload admitted =>
    w.prepareStreams format revision ranges metadata payload admitted now

/-- One append: the checks, then the writes.  A failed check changes nothing. -/
def append (op : Append) (now : Nat) (stop : Option Stop) :
    Except IoError DurableReceipt × RecoveryWriter :=
  match w.prepare format now op with
  | .error error => (.error error, w)
  | .ok p => w.store format p stop

/-- How the publication of one file ends: it may fail before or after its commit. -/
inductive Publication where
  | done
  | failed
  | committedThenFailed
  deriving DecidableEq, Repr

/-- `publish_file`: what the file holds afterwards, where it held `file`. -/
def publishFile (file : Option Bytes) (m : Manifest) :
    Publication → Except IoError Unit × Option Bytes
  | .done => (.ok (), some (format.encodeManifest m))
  | .failed => (.error storageError, file)
  | .committedThenFailed => (.error storageError, some (format.encodeManifest m))

/-- `publish`: a manifest that can be read back is kept as the previous one, which `kept` says
how it ends, before `next` takes its place. -/
def publish (next : Manifest) (kept publication : Publication) :
    Except IoError Unit × RecoveryWriter :=
  match readManifestFile format w.published with
  | .ok m =>
    match publishFile format w.previous m kept with
    | (.error error, previous) => (.error error, { w with previous })
    | (.ok (), previous) =>
      let (result, published) := publishFile format w.published next publication
      (result, { w with previous, published })
  | .error _ =>
    let (result, published) := publishFile format w.published next publication
    (result, { w with published })

/-- `checkpoint` -/
def checkpoint (kept publication : Publication) : Except IoError Unit × RecoveryWriter :=
  match w.ensureWritable with
  | .error error => (.error error, w)
  | .ok () => w.publish format w.manifest kept publication

/-- `seal_baseline`: copy the source's bytes, which `verified` says did not change, then
publish the manifest that names them. -/
def sealBaseline (source : Bytes) (verified : Bool) (kept publication : Publication) :
    Except IoError Unit × RecoveryWriter :=
  match w.ensureWritable with
  | .error error => (.error error, w)
  | .ok () =>
    if w.manifest.baseline.isSome then (.error (invalid "baseline already sealed"), w)
    else if (w.files "baseline.bin").isSome then (.error ⟨.alreadyExists, "File exists"⟩, w)
    else if source.length > w.manifest.metadata.originalLen then
      (.error (invalid "baseline grew"), w)
    else if source.length ≠ w.manifest.metadata.originalLen ∨ !verified then
      (.error (invalid "source generation changed during baseline seal"), w)
    else
      let next := { w.manifest with
        baseline := some ⟨"baseline.bin", source.length, format.sha256 source⟩ }
      let w := { w with files := w.files.write "baseline.bin" source }
      match w.publish format next kept publication with
      | (.ok (), w) => (.ok (), { w with manifest := next })
      | (.error error, w) => (.error error, { w with poisoned := true })

end RecoveryWriter

/-! ## §4 Scanning -/

structure Scan where
  manifest : Manifest
  records : List Record
  corrupt : Bool
  baselineValid : Bool
  replay : Option Replay

/-- `verify_blob` -/
def verifyBlob (format : Format) (files : Files) (blob : Blob) : Except IoError Unit := do
  let bytes ← files.openFile blob.name
  if bytes.length ≠ blob.len then .error (invalid "recovery segment length mismatch")
  else if format.sha256 bytes ≠ blob.sha256 then .error (invalid "recovery segment hash mismatch")
  else .ok ()

/-- The checks `scan` makes of a decoded record behind the record `last`. -/
def recordRejected (format : Format) (files : Files) (last : Option Record) (record : Record) :
    Bool :=
  !(record.version == 1 || record.version == VERSION || record.version == 3) ||
    (record.version == 1 && record.metadata.isSome) ||
    (record.edits.isEmpty && record.metadata.isNone) ||
    (record.metadata.any fun values => !(DocumentMetadata.new values).toBool) ||
    decide (record.edits.length > 4096) ||
    (record.version != 3 && decide (record.segment.len > MAX_TRANSACTION)) ||
    payloadLen 0 record.edits != some record.segment.len ||
    record.segment.name != segmentName record.receipt.revision ||
    (last.any fun r => decide (r.receipt.revision ≥ record.receipt.revision)) ||
    !(verifyBlob format files record.segment).toBool

/-- The next record of the journal: its frame checked, decoded and validated, the document
length behind it, and the bytes that follow. -/
def nextRecord (format : Format) (files : Files) (records : List Record) (currentLen : Nat)
    (rest : Bytes) : Option (Record × Nat × Bytes) :=
  if records.length ≥ MAX_RECORDS ∨ rest.length < 8 then none
  else
    let len := (fromLeBytes (rest.take 4)).toNat
    if len = 0 ∨ len > MAX_RECORD then none
    else
      let bytes := (rest.drop 8).take len
      if rest.length < 8 + len ∨
          format.crc32c bytes ≠ fromLeBytes ((rest.drop 4).take 4) then none
      else do
        let record ← format.decode bytes
        if recordRejected format files records.getLast? record then none
        else
          match editedLen currentLen record.edits with
          | .error _ => none
          | .ok len' => some (record, len', rest.drop (8 + len))

theorem nextRecord_length {format : Format} {files : Files} {records : List Record}
    {currentLen len : Nat} {rest rest' : Bytes} {record : Record}
    (h : nextRecord format files records currentLen rest = some (record, len, rest')) :
    rest'.length < rest.length := by
  rw [nextRecord] at h
  split at h
  · cases h
  · next hlong =>
    simp only at h
    split at h
    · cases h
    · split at h
      · cases h
      · next hfit =>
        cases hdecode : format.decode
            ((rest.drop 8).take (fromLeBytes (rest.take 4)).toNat) with
        | none =>
          rw [hdecode] at h
          cases h
        | some r =>
          simp only [hdecode, Option.bind_eq_bind, Option.bind_some] at h
          split at h
          · cases h
          · split at h
            · cases h
            · cases h
              rw [List.length_drop]
              omega

/-- The loop of `scan`: the validated records, and whether the rest is corrupt. -/
def scanFrom (format : Format) (files : Files) (records : List Record) (currentLen : Nat)
    (rest : Bytes) : List Record × Bool :=
  if rest = [] then (records, false)
  else
    match _h : nextRecord format files records currentLen rest with
    | none => (records, true)
    | some (record, len, rest') => scanFrom format files (records ++ [record]) len rest'
termination_by rest.length
decreasing_by exact nextRecord_length _h

/-- `read_manifest` -/
def readManifest (format : Format) (w : RecoveryWriter) : Except IoError Manifest :=
  match readManifestFile format w.published with
  | .ok m => .ok m
  | .error primary => (readManifestFile format w.previous).mapError fun _ => primary

/-- The manifest `scan` starts from: where none can be read, the tombstone proves retirement. -/
def scanManifest (format : Format) (w : RecoveryWriter) : Except IoError Manifest :=
  match readManifest format w with
  | .ok m => .ok m
  | .error error =>
    if (w.files "retired.json").isSome then
      (readManifestFile format (w.files "retired.json")).mapError fun _ => error
    else .error error

/-- `scan` of a writer's directory. -/
def scan (format : Format) (w : RecoveryWriter) : Except IoError Scan := do
  let manifest ← scanManifest format w
  let retired := manifest.retired || (w.files "retired.json").isSome
  let manifest := { manifest with retired }
  if retired then .ok ⟨manifest, [], false, false, none⟩
  else
    let baselineValid := match manifest.baseline with
      | some blob => (verifyBlob format w.files blob).toBool
      | none => false
    if w.journal.length > MAX_JOURNAL then .error (invalid "recovery journal limit")
    else
      let (records, corrupt) := scanFrom format w.files [] manifest.metadata.originalLen w.journal
      let missed := manifest.durable.any fun receipt =>
        (records.getLast?.all fun record => decide (record.receipt.revision < receipt.revision))
      let corrupt := corrupt || missed
      if !baselineValid then .ok ⟨manifest, records, corrupt, false, none⟩
      else
        match Replay.build w.files records manifest.metadata.originalLen with
        | .ok (valid, replay) =>
          .ok ⟨manifest, records.take valid, corrupt || decide (valid < records.length), true,
            some replay⟩
        -- A read or resource failure proves nothing about the journal.
        | .error _ => .ok ⟨manifest, records, corrupt, false, none⟩

end BareLine
