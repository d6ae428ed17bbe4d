import BareLine.Recovery.Frames

/-!
# Durability of the journal

Whatever the writer appends, with storage failing at any point of the last append, `scan`
finds every acknowledged record again however much of the rest of the journal is lost.
-/

namespace BareLine

open Lib

namespace RecoveryWriter

variable {format : Format} {w w' : RecoveryWriter} {p : Prepared}

/-! ## §1 The checks of an append -/

/-- The edit of a source transaction, with its bytes read. -/
def SourceEdit.change (e : SourceEdit) : RecoveryEdit :=
  ⟨e.range.start, e.inverse.range.of e.inverse.source, e.inserted.range.of e.inserted.source⟩

/-- The edits an append stands for; those of a stream are cut from its payload. -/
def Append.changes : Append → Option (List RecoveryEdit)
  | .edits _ es => some es
  | .metadata _ _ => some []
  | .source _ es _ _ => some (es.map SourceEdit.change)
  | .streams _ ranges _ payload _ => cutSegment ranges payload

/-- The arguments are valid for a document with this text: the edits are sorted and
disjoint, and remove what the text has there. -/
def Append.Valid (op : Append) (text : Bytes) : Prop :=
  ∀ edits ∈ op.changes, Matches edits text

/-- What every append path has checked before it writes. -/
structure Checked (format : Format) (w : RecoveryWriter) (op : Append) (p : Prepared) : Prop where
  writable : w.ensureWritable = .ok ()
  version : p.record.version = VERSION ∨ p.record.version = 3
  nonempty : p.record.edits ≠ [] ∨ p.record.metadata.isSome
  metadata : ∀ values ∈ p.record.metadata, ∃ m, DocumentMetadata.new values = .ok m
  count : p.record.edits.length ≤ 4096
  limit : p.record.version ≠ 3 → p.record.segment.len ≤ MAX_TRANSACTION
  size : payloadLen 0 p.record.edits = some p.record.segment.len
  name : p.record.segment.name = segmentName p.record.receipt.revision
  hash : p.record.segment.sha256 = format.sha256 p.payload
  newer : w.reaches p.record.receipt.revision = false
  room : w.records < MAX_RECORDS
  edited : editedLen w.currentLen p.record.edits = .ok p.nextLen
  /-- Without a later length check the payload has the length the record says. -/
  exact : p.mismatch = none → p.payload.length = p.record.segment.len
  cut : p.payload.length = p.record.segment.len →
    ∃ edits ∈ op.changes, cutSegment p.record.edits p.payload = some edits

/-- The bytes of the edits behind references. -/
def refsLen (refs : List EditRef) : Nat := (refs.map fun e => e.removed + e.inserted).sum

theorem payloadLen_eq_some {refs : List EditRef} {total n : Nat}
    (h : payloadLen total refs = some n) : n = total + refsLen refs := by
  induction refs generalizing total with
  | nil => exact (Option.some.inj h).symm
  | cons e rest ih =>
    simp only [payloadLen, Option.bind_eq_bind, Option.bind_eq_some_iff] at h
    obtain ⟨a, ha, b, hb, h⟩ := h
    rw [checkedAdd_eq_some] at ha hb
    have hrest := ih h
    simp only [refsLen, List.map_cons, List.sum_cons] at hrest ⊢
    omega

/-- The reference of an edit that owns its bytes. -/
def refOf (e : RecoveryEdit) : EditRef := ⟨e.offset, e.removed.length, e.inserted.length⟩

/-- A segment written edit by edit is cut back into the edits. -/
theorem cutSegment_refs (edits : List RecoveryEdit) :
    cutSegment (edits.map refOf) (edits.flatMap fun e => e.removed ++ e.inserted) =
      some edits := by
  induction edits with
  | nil => rfl
  | cons e rest ih =>
    rw [List.map_cons, List.flatMap_cons, cutSegment]
    have hlen : (refOf e).removed + (refOf e).inserted = (e.removed ++ e.inserted).length :=
      (List.length_append).symm
    have hfits : (e.removed ++ e.inserted).length ≤
        (e.removed ++ e.inserted ++ rest.flatMap fun e => e.removed ++ e.inserted).length :=
      (List.prefix_append _ _).length_le
    rw [hlen, if_pos hfits, List.drop_left, ih, List.append_assoc]
    simp [refOf]

theorem payload_length (edits : List RecoveryEdit) :
    (edits.flatMap fun e => e.removed ++ e.inserted).length = refsLen (edits.map refOf) := by
  rw [List.length_flatMap, refsLen, List.map_map]
  congr 2
  funext e
  exact List.length_append

/-- A segment of the right length can be cut. -/
theorem cutSegment_of_length {refs : List EditRef} {segment : Bytes}
    (h : segment.length = refsLen refs) : ∃ edits, cutSegment refs segment = some edits := by
  induction refs generalizing segment with
  | nil =>
    rw [List.length_eq_zero_iff.mp h]
    exact ⟨[], rfl⟩
  | cons e rest ih =>
    simp only [refsLen, List.map_cons, List.sum_cons] at h
    obtain ⟨edits, hcut⟩ := ih
      (show (segment.drop (e.removed + e.inserted)).length = refsLen rest by
        rw [List.length_drop, refsLen]; omega)
    rw [cutSegment, if_pos (by omega), hcut]
    exact ⟨_, rfl⟩

theorem prepareRecord_checked {revision now : Nat} {edits : List RecoveryEdit}
    {metadata : Option (List (String × String))} {op : Append}
    (hop : op.changes = some edits)
    (hmetadata : ∀ values ∈ metadata, ∃ m, DocumentMetadata.new values = .ok m)
    (h : w.prepareRecord format revision edits metadata now = .ok p) : Checked format w op p := by
  rw [prepareRecord] at h
  obtain ⟨_, hwritable, h⟩ := bind_ok.mp h
  split at h
  · cases h
  · next hargs =>
    simp only [not_or, not_and, Bool.not_eq_true] at hargs
    obtain ⟨hnonempty, hcount, hroom, hnewer⟩ := hargs
    simp only at h
    split at h
    · cases h
    · next size hsize =>
      rw [Option.filter_eq_some_iff, decide_eq_true_eq] at hsize
      obtain ⟨nextLen, hedited, h⟩ := bind_ok.mp h
      cases h
      refine ⟨hwritable, Or.inl rfl, ?_, hmetadata, ?_, fun _ => hsize.2, hsize.1, rfl, rfl,
        hnewer, Nat.lt_of_not_le hroom, hedited, fun _ => ?_, fun _ => ⟨edits, hop, ?_⟩⟩
      · by_cases hnil : edits = []
        · refine Or.inr ?_
          have := hnonempty (by rw [hnil]; rfl)
          cases metadata with
          | none => cases this
          | some values => rfl
        · exact Or.inl (by simpa using hnil)
      · rw [List.length_map]
        exact Nat.le_of_not_lt hcount
      · have hlen := payloadLen_eq_some hsize.1
        rw [Nat.zero_add] at hlen
        exact (payload_length edits).trans hlen.symm
      · exact cutSegment_refs edits

/-- The quota checks of the streaming paths promise nothing the frame check does not. -/
theorem sourceRefs_ok {edits : List SourceEdit} {refs : List EditRef}
    (h : sourceRefs edits = .ok refs) :
    refs.length = edits.length ∧
      ((edits.map SourceEdit.change).flatMap fun e => e.removed ++ e.inserted).length ≤
        refsLen refs ∧
      (((edits.map SourceEdit.change).flatMap fun e => e.removed ++ e.inserted).length =
        refsLen refs → refs = (edits.map SourceEdit.change).map refOf) := by
  induction edits generalizing refs with
  | nil =>
    cases h
    exact ⟨rfl, Nat.le_refl _, fun _ => rfl⟩
  | cons e rest ih =>
    rw [sourceRefs] at h
    split at h
    · cases h
    split at h
    · cases h
    split at h
    · cases h
    obtain ⟨tail, htail, h⟩ := bind_ok.mp h
    cases h
    obtain ⟨hcount, hle, hrefs⟩ := ih htail
    -- Reading a range yields no more than its length, so the sum is met piece by piece.
    have hremoved : (SourceEdit.change e).removed.length ≤ e.inverse.range.len := by
      simp only [SourceEdit.change, Range.of_length, Range.len]
      omega
    have hinserted : (SourceEdit.change e).inserted.length ≤ e.inserted.range.len := by
      simp only [SourceEdit.change, Range.of_length, Range.len]
      omega
    simp only [List.map_cons, List.flatMap_cons, List.length_append, List.length_cons, refsLen,
      List.sum_cons] at hle hrefs hcount ⊢
    refine ⟨by rw [hcount], by omega, ?_⟩
    intro hsum
    rw [hrefs (by omega), refOf]
    have h1 : (SourceEdit.change e).removed.length = e.inverse.range.len := by omega
    have h2 : (SourceEdit.change e).inserted.length = e.inserted.range.len := by omega
    rw [h1, h2]
    rfl

theorem prepareSource_checked {revision now : Nat} {edits : List SourceEdit}
    {metadata : BoundedMetadata} {granted : Bool}
    (h : w.prepareSource format revision edits metadata granted now = .ok p) :
    Checked format w (.source revision edits metadata granted) p := by
  rw [prepareSource] at h
  obtain ⟨_, hwritable, h⟩ := bind_ok.mp h
  split at h
  · cases h
  · next hargs =>
    simp only [not_or, Bool.not_eq_true] at hargs
    obtain ⟨hnonempty, hcount, hroom, hnewer⟩ := hargs
    obtain ⟨refs, hrefs, h⟩ := bind_ok.mp h
    obtain ⟨hlen, -, hexact⟩ := sourceRefs_ok hrefs
    split at h
    · cases h
    · next size hsize =>
      obtain ⟨nextLen, hedited, h⟩ := bind_ok.mp h
      obtain ⟨-, -, h⟩ := bind_ok.mp h
      cases h
      refine ⟨hwritable, Or.inr rfl, Or.inr rfl, ?_, by rw [hlen]; exact Nat.le_of_not_lt hcount,
        fun hne => absurd rfl hne, hsize, rfl, rfl, hnewer, Nat.lt_of_not_le hroom, hedited,
        (fun hnone => by cases hnone), fun hpayload => ⟨edits.map SourceEdit.change, rfl, ?_⟩⟩
      · rintro values ⟨⟩
        exact ⟨_, metadata.2⟩
      · have hpay := hpayload
        rw [show (edits.flatMap fun e => e.inverse.range.of e.inverse.source ++
            e.inserted.range.of e.inserted.source) = (edits.map SourceEdit.change).flatMap
            fun e => e.removed ++ e.inserted from by rw [List.flatMap_map]; rfl] at hpay ⊢
        rw [hexact (hpay.trans ((payloadLen_eq_some hsize).trans (Nat.zero_add _)))]
        exact cutSegment_refs _

theorem prepareStreams_checked {revision now : Nat} {ranges : List EditRef}
    {metadata : BoundedMetadata} {payload : Bytes} {granted : Bool}
    (h : w.prepareStreams format revision ranges metadata payload granted now = .ok p) :
    Checked format w (.streams revision ranges metadata payload granted) p := by
  rw [prepareStreams] at h
  obtain ⟨_, hwritable, h⟩ := bind_ok.mp h
  split at h
  · cases h
  · next hargs =>
    simp only [not_or, Bool.not_eq_true] at hargs
    obtain ⟨hcount, hroom, hnewer⟩ := hargs
    split at h
    · cases h
    · next size hsize =>
      obtain ⟨nextLen, hedited, h⟩ := bind_ok.mp h
      obtain ⟨-, -, h⟩ := bind_ok.mp h
      cases h
      refine ⟨hwritable, Or.inr rfl, Or.inr rfl, ?_, Nat.le_of_not_lt hcount,
        fun hne => absurd rfl hne, hsize, rfl, rfl, hnewer, Nat.lt_of_not_le hroom, hedited,
        (fun hnone => by cases hnone), ?_⟩
      · rintro values ⟨⟩
        exact ⟨_, metadata.2⟩
      · intro hpayload
        obtain ⟨edits, hcut⟩ := cutSegment_of_length
          (hpayload.trans ((payloadLen_eq_some hsize).trans (Nat.zero_add _)))
        exact ⟨edits, hcut, hcut⟩

/-- Every append path checks the same things. -/
theorem prepare_checked {now : Nat} {op : Append} (h : w.prepare format now op = .ok p) :
    Checked format w op p := by
  cases op with
  | edits revision edits =>
    refine prepareRecord_checked rfl ?_ h
    rintro values ⟨⟩
  | metadata revision metadata =>
    refine prepareRecord_checked rfl ?_ h
    rintro values ⟨⟩
    exact ⟨_, metadata.2⟩
  | source revision edits metadata granted => exact prepareSource_checked h
  | streams revision ranges metadata payload granted => exact prepareStreams_checked h

/-! ## §2 One append -/

/-- A prepared append has come as far as its frame: its segment is new and whole, and the
frame fits. -/
structure Framed (format : Format) (w : RecoveryWriter) (p : Prepared) : Prop where
  fresh : w.files p.record.segment.name = none
  len : p.payload.length = p.record.segment.len
  size : (format.encode p.record).length ≤ MAX_RECORD
  room : w.journal.length + (frame format (format.encode p.record)).length ≤ MAX_JOURNAL

/-- The writer behind an acknowledged append. -/
def acknowledge (format : Format) (w : RecoveryWriter) (p : Prepared) : RecoveryWriter :=
  { w with
    files := w.files.write p.record.segment.name p.payload
    journal := w.journal ++ frame format (format.encode p.record)
    manifest := { w.manifest with durable := some p.record.receipt }
    records := w.records + 1
    currentLen := p.nextLen }

/-- An append that fails has poisoned the writer, added at most its own segment to the files
and at most a part of its own frame to the journal. -/
structure Failed (format : Format) (w : RecoveryWriter) (p : Prepared) (w' : RecoveryWriter) :
    Prop where
  kept : ∃ files tail, w' = { w with files, journal := w.journal ++ tail, poisoned := true } ∧
    (files = w.files ∨ ∃ bytes, w.files p.record.segment.name = none ∧
      files = w.files.write p.record.segment.name bytes) ∧
    tail <+: frame format (format.encode p.record) ∧
    (tail ≠ [] → Framed format w p ∧ files = w.files.write p.record.segment.name p.payload)

/-- A failure before the segment is opened. -/
theorem Failed.untouched : Failed format w p { w with poisoned := true } := by
  refine ⟨⟨w.files, [], ?_, Or.inl rfl, List.nil_prefix, fun hne => absurd rfl hne⟩⟩
  rw [List.append_nil]

/-- A failure before the frame is written. -/
theorem Failed.segment (hfresh : w.files p.record.segment.name = none) (bytes : Bytes) :
    Failed format w p
      { w with files := w.files.write p.record.segment.name bytes, poisoned := true } := by
  refine ⟨⟨_, [], ?_, Or.inr ⟨bytes, hfresh, rfl⟩, List.nil_prefix, fun hne => absurd rfl hne⟩⟩
  rw [List.append_nil]

/-- A failure while the frame is written or made durable. -/
theorem Failed.frame (h : Framed format w p) {tail : Bytes}
    (htail : tail <+: BareLine.frame format (format.encode p.record)) :
    Failed format w p
      { w with
        files := w.files.write p.record.segment.name p.payload
        journal := w.journal ++ tail, poisoned := true } :=
  ⟨⟨_, tail, rfl, Or.inr ⟨p.payload, h.fresh, rfl⟩, htail, fun _ => ⟨h, rfl⟩⟩⟩

theorem store_cases (format : Format) (w : RecoveryWriter)
    (hexact : p.mismatch = none → p.payload.length = p.record.segment.len)
    (stop : Option Stop) :
    Framed format w p ∧ w.store format p stop = (.ok p.record.receipt, w.acknowledge format p) ∨
      ∃ error w', w.store format p stop = (.error error, w') ∧ Failed format w p w' := by
  unfold store
  simp only
  -- One split for each point the append can fail at, in the order it reaches them.
  split
  · exact Or.inr ⟨_, _, rfl, .untouched⟩
  next hfresh =>
  have hfresh : w.files p.record.segment.name = none := by simpa using hfresh
  split
  · exact Or.inr ⟨_, _, rfl, .untouched⟩
  split
  · exact Or.inr ⟨_, _, rfl, .segment hfresh _⟩
  split
  · exact Or.inr ⟨_, _, rfl, .segment hfresh _⟩
  split
  · exact Or.inr ⟨_, _, rfl, .segment hfresh _⟩
  next hlen =>
  split
  · exact Or.inr ⟨_, _, rfl, .segment hfresh _⟩
  split
  · exact Or.inr ⟨_, _, rfl, .segment hfresh _⟩
  next hquota =>
  -- The segment is whole and the frame fits: only the journal is left.
  have hframed : Framed format w p := by
    refine ⟨hfresh, ?_, by omega, by rw [frame_length]; omega⟩
    cases hmismatch : p.mismatch with
    | none => exact hexact hmismatch
    | some message => exact not_not.mp fun hne => hlen ⟨by rw [hmismatch]; rfl, hne⟩
  split
  · exact Or.inr ⟨_, _, rfl, .frame hframed (List.take_prefix _ _)⟩
  split
  · exact Or.inr ⟨_, _, rfl, .frame hframed (List.prefix_refl _)⟩
  · exact Or.inl ⟨hframed, rfl⟩

/-! ## §3 Runs -/

/-- The record an append writes if its checks pass. -/
def attempted (format : Format) (w : RecoveryWriter) (op : Append) (now : Nat) : List Record :=
  match w.prepare format now op with
  | .ok p => [p.record]
  | .error _ => []

/-- The record an append acknowledges, if it does. -/
def acknowledged (format : Format) (w : RecoveryWriter) (op : Append) (now : Nat)
    (stop : Option Stop) : List Record :=
  if (w.append format op now stop).1.toBool then attempted format w op now else []

/-- The record an append has written any journal bytes of. -/
def begun (format : Format) (w : RecoveryWriter) (op : Append) (now : Nat)
    (stop : Option Stop) : List Record :=
  if (w.append format op now stop).2.journal = w.journal then [] else attempted format w op now

/-- The text behind the edits of an append. -/
def Append.result (op : Append) (text : Bytes) : Bytes :=
  match op.changes with
  | some es => applyEdits es text
  | none => text

/-- A run of a writer over the document `original`: the records acknowledged so far, those
with bytes in the journal, and the text behind the acknowledged ones.  Any append may fail
anywhere; manifests are published at any time. -/
inductive Reached (format : Format) (metadata : RecoveryMetadata) (original : Bytes) :
    RecoveryWriter → List Record → List Record → Bytes → Prop where
  | create {w : RecoveryWriter} : create format metadata = .ok w →
      Reached format metadata original w [] [] original
  | append {w : RecoveryWriter} {acked written : List Record} {text : Bytes} (op : Append)
      (now : Nat) (stop : Option Stop) :
      Reached format metadata original w acked written text → op.Valid text →
      Reached format metadata original (w.append format op now stop).2
        (acked ++ acknowledged format w op now stop) (written ++ begun format w op now stop)
        (if (w.append format op now stop).1.toBool then op.result text else text)
  | checkpoint {w : RecoveryWriter} {acked written : List Record} {text : Bytes}
      (kept publication : Publication) : Reached format metadata original w acked written text →
      Reached format metadata original (w.checkpoint format kept publication).2 acked written text
  | sealBaseline {w : RecoveryWriter} {acked written : List Record} {text : Bytes}
      (source : Bytes) (verified : Bool) (kept publication : Publication) :
      Reached format metadata original w acked written text →
      (verified = true → source = original) →
      Reached format metadata original (w.sealBaseline format source verified kept publication).2
        acked written text

/-- What a manifest of the writer says is so. -/
structure Truthful (format : Format) (original : Bytes) (files : Files) (acked : List Record)
    (m : Manifest) : Prop where
  version : m.version = VERSION
  generation : m.metadata.sourceGeneration.utf8ByteSize ≤ 4096
  catalog : m.metadata.codecCatalogVersion.utf8ByteSize ≤ 4096
  originalLen : m.metadata.originalLen = original.length
  retired : m.retired = false
  baseline : ∀ blob ∈ m.baseline,
    blob = ⟨"baseline.bin", original.length, format.sha256 original⟩ ∧
      files "baseline.bin" = some original
  durable : ∀ receipt ∈ m.durable, ∃ record ∈ acked, record.receipt = receipt

/-- `read_manifest_file` takes the text of the manifest. -/
def Fits (format : Format) (m : Manifest) : Prop :=
  (format.encodeManifest m).length ≤ 32 * 1024

/-- The manifests in a writer's directory are true, and one of them can be read back. -/
def Published (format : Format) (original : Bytes) (w : RecoveryWriter) (acked : List Record) :
    Prop :=
  ∃ m, w.published = some (format.encodeManifest m) ∧ Truthful format original w.files acked m ∧
    (Fits format m ∨ ∃ p, w.previous = some (format.encodeManifest p) ∧
      Truthful format original w.files acked p ∧ Fits format p)

/-- The state of a writer: its journal holds the frames of the acknowledged records and
perhaps, once it is poisoned, the front of one more that `scan` would accept too. -/
structure Journaled (format : Format) (original : Bytes) (w : RecoveryWriter)
    (acked written : List Record) (text : Bytes) : Prop where
  manifest : Truthful format original w.files acked w.manifest
  published : Published format original w acked
  tombstone : w.files "retired.json" = none
  last : w.manifest.durable = acked.getLast?.map Record.receipt
  records : w.records = acked.length
  accepted : Accepted format w.files [] original.length acked w.currentLen
  applied : acked.foldlM (replayRecord w.files) original = some text
  pending : written = acked ∨ ∃ record len text', written = acked ++ [record] ∧
    Accepts format w.files acked w.currentLen record len ∧
    replayRecord w.files text record = some text'
  lower : frames format acked <+: w.journal
  upper : w.journal <+: frames format written
  live : w.poisoned = false → written = acked ∧ w.journal = frames format acked
  room : w.journal.length ≤ MAX_JOURNAL

/-! What the directory gains, and the records acknowledged later, leave all of this true. -/

theorem Truthful.mono {original : Bytes} {files files' : Files} {acked acked' : List Record}
    {m : Manifest} (hfiles : files.Extends files') (hacked : acked <+: acked')
    (h : Truthful format original files acked m) : Truthful format original files' acked' m := by
  refine { h with baseline := ?_, durable := ?_ }
  · intro blob hblob
    exact ⟨(h.baseline blob hblob).1, hfiles _ _ (h.baseline blob hblob).2⟩
  · intro receipt hreceipt
    obtain ⟨record, hrecord, heq⟩ := h.durable receipt hreceipt
    exact ⟨record, hacked.subset hrecord, heq⟩

theorem Published.mono {original : Bytes} {w w' : RecoveryWriter} {acked acked' : List Record}
    (hfiles : w.files.Extends w'.files) (hacked : acked <+: acked')
    (hsame : w'.published = w.published ∧ w'.previous = w.previous)
    (h : Published format original w acked) : Published format original w' acked' := by
  obtain ⟨m, hm, htrue, hread⟩ := h
  refine ⟨m, hsame.1.trans hm, htrue.mono hfiles hacked, hread.imp_right ?_⟩
  rintro ⟨p, hp, hprevious, hfits⟩
  exact ⟨p, hsame.2.trans hp, hprevious.mono hfiles hacked, hfits⟩

theorem replayRecord_mono {files files' : Files} {text text' : Bytes} {record : Record}
    (hfiles : files.Extends files') (h : replayRecord files text record = some text') :
    replayRecord files' text record = some text' := by
  simp only [replayRecord, Option.bind_eq_bind, Option.bind_eq_some_iff] at h ⊢
  obtain ⟨segment, hsegment, h⟩ := h
  exact ⟨segment, hfiles _ _ hsegment, h⟩

theorem applied_mono {files files' : Files} {text text' : Bytes} {records : List Record}
    (hfiles : files.Extends files')
    (h : records.foldlM (replayRecord files) text = some text') :
    records.foldlM (replayRecord files') text = some text' := by
  induction records generalizing text with
  | nil => exact h
  | cons record rest ih =>
    rw [List.foldlM_cons, Option.bind_eq_bind, Option.bind_eq_some_iff] at h ⊢
    obtain ⟨mid, hmid, h⟩ := h
    exact ⟨mid, replayRecord_mono hfiles hmid, ih h⟩

/-- Records that apply one after the other are all counted. -/
theorem replayPrefix_of_applied {files : Files} {text text' : Bytes} {records : List Record}
    (h : records.foldlM (replayRecord files) text = some text') :
    replayPrefix files text records = (records.length, text') := by
  induction records generalizing text with
  | nil =>
    rw [Option.some.inj h]
    rfl
  | cons record rest ih =>
    rw [List.foldlM_cons, Option.bind_eq_bind, Option.bind_eq_some_iff] at h
    obtain ⟨mid, hmid, h⟩ := h
    rw [replayPrefix]
    simp only [hmid, ih h, List.length_cons]

/-- The name of a segment is not that of another file of the directory. -/
theorem segmentName_ne (revision : Nat) :
    segmentName revision ≠ "retired.json" ∧ segmentName revision ≠ "baseline.bin" := by
  constructor <;> intro h <;> simpa [segmentName] using congrArg String.toList h

section Steps

variable {original text : Bytes} {acked written : List Record}

/-- A manifest that does not fit is not read back. -/
theorem readManifestFile_large {m : Manifest} (h : ¬Fits format m) :
    readManifestFile format (some (format.encodeManifest m)) =
      .error (invalid "recovery manifest limit") :=
  if_pos (Nat.lt_of_not_le h)

/-- A true manifest that fits is. -/
theorem Truthful.read (hformat : format.RoundTrip) {files : Files} {m : Manifest}
    (h : Truthful format original files acked m) (hfits : Fits format m) :
    readManifestFile format (some (format.encodeManifest m)) = .ok m := by
  simp only [readManifestFile]
  rw [if_neg (Nat.not_lt.mpr hfits), hformat.decode_manifest]
  dsimp only
  rw [if_neg, if_neg]
  · cases hb : m.baseline with
    | none => exact Bool.false_ne_true
    | some blob =>
      obtain ⟨hblob, -⟩ := h.baseline blob hb
      rw [Option.any_some, hblob, h.originalLen]
      simp
  · rw [h.version]
    have := h.generation
    have := h.catalog
    simp only [show (VERSION == 1 || VERSION == VERSION) = true from rfl, Bool.not_true,
      Bool.false_eq_true, false_or, not_or, Nat.not_lt]
    omega

/-- One of the manifests of a writer's directory is read. -/
theorem Published.read (hformat : format.RoundTrip) (h : Published format original w acked) :
    ∃ m, readManifest format w = .ok m ∧ Truthful format original w.files acked m := by
  obtain ⟨m, hm, htrue, hread⟩ := h
  rw [readManifest, hm]
  by_cases hfits : Fits format m
  · rw [htrue.read hformat hfits]
    exact ⟨m, rfl, htrue⟩
  · obtain ⟨p, hp, hprevious, hfits'⟩ := hread.resolve_left hfits
    rw [readManifestFile_large hfits, hp, hprevious.read hformat hfits']
    exact ⟨p, rfl, hprevious⟩

theorem create_journaled {metadata : RecoveryMetadata}
    (hlen : metadata.originalLen = original.length) (hfits : Fits format (firstManifest metadata))
    (h : create format metadata = .ok w) :
    Journaled format original w [] [] original := by
  rw [create] at h
  split at h
  · cases h
  · next hlimits =>
    cases h
    have htruthful : Truthful format original (fun _ => none) []
        ⟨VERSION, metadata, none, none, false⟩ :=
      ⟨rfl, Nat.le_of_not_lt fun hlt => hlimits (Or.inl hlt),
        Nat.le_of_not_lt fun hlt => hlimits (Or.inr hlt), hlen, rfl, fun _ h => (by cases h),
        fun _ h => (by cases h)⟩
    have hpublished : Published format original
        ⟨fun _ => none, [], some (format.encodeManifest (firstManifest metadata)), none,
          firstManifest metadata, false, 0, metadata.originalLen⟩ [] :=
      ⟨_, rfl, htruthful, Or.inl hfits⟩
    exact ⟨htruthful, hpublished, rfl, rfl, rfl, hlen ▸ .nil, rfl, Or.inl rfl, List.prefix_refl _,
      List.prefix_refl _, fun _ => ⟨rfl, rfl⟩, Nat.zero_le _⟩

/-- A checked record in a directory with its segment passes the checks of `scan`. -/
theorem Checked.accepts {op : Append} (h : Checked format w op p) (hframed : Framed format w p)
    (hlast : w.manifest.durable = acked.getLast?.map Record.receipt)
    (hrecords : w.records = acked.length) :
    Accepts format (w.files.write p.record.segment.name p.payload) acked w.currentLen p.record
      p.nextLen := by
  refine ⟨hrecords ▸ h.room, hframed.size, ?_, h.edited⟩
  have hblob : (verifyBlob format (w.files.write p.record.segment.name p.payload)
      p.record.segment).toBool = true :=
    verifyBlob_ok.mpr ⟨p.payload, Files.write_self _ _, hframed.len, h.hash.symm⟩
  have hversion : (p.record.version == 1 || p.record.version == VERSION ||
      p.record.version == 3) = true := by
    rcases h.version with hv | hv <;> rw [hv] <;> rfl
  have hone : (p.record.version == 1) = false := by
    rcases h.version with hv | hv <;> rw [hv] <;> rfl
  have hempty : (p.record.edits.isEmpty && p.record.metadata.isNone) = false := by
    rw [Bool.and_eq_false_iff]
    rcases h.nonempty with hedits | hsome
    · exact Or.inl (by simpa using hedits)
    · exact Or.inr (by simpa using hsome)
  have hmetadata : (p.record.metadata.any fun values =>
      !(DocumentMetadata.new values).toBool) = false := by
    cases hm : p.record.metadata with
    | none => rfl
    | some values =>
      obtain ⟨m, hnew⟩ := h.metadata values hm
      rw [Option.any_some, hnew]
      rfl
  have hlimit : (p.record.version != 3 && decide (p.record.segment.len > MAX_TRANSACTION)) =
      false := by
    rw [Bool.and_eq_false_iff]
    by_cases hv : p.record.version = 3
    · exact Or.inl (by rw [hv]; rfl)
    · exact Or.inr (decide_eq_false (Nat.not_lt.mpr (h.limit hv)))
  have hrevision : (acked.getLast?.any fun r =>
      decide (r.receipt.revision ≥ p.record.receipt.revision)) = false := by
    have hnewer := h.newer
    rw [reaches, hlast] at hnewer
    cases hl : acked.getLast? with
    | none => rfl
    | some r =>
      rw [hl] at hnewer
      exact hnewer
  rw [recordRejected, hversion, hone, hempty, hmetadata, hlimit, hrevision, hblob, h.size, h.name,
    decide_eq_false (Nat.not_lt.mpr h.count)]
  simp

/-- A valid record applies to the text it was made for. -/
theorem Checked.replays {op : Append} (h : Checked format w op p) (hframed : Framed format w p)
    (hvalid : op.Valid text) :
    replayRecord (w.files.write p.record.segment.name p.payload) text p.record =
      some (op.result text) := by
  obtain ⟨edits, hchanges, hcut⟩ := h.cut hframed.len
  have hchanges : op.changes = some edits := hchanges
  simp only [replayRecord, Files.write_self, hcut, Option.bind_eq_bind, Option.bind_some,
    if_pos (hvalid edits hchanges), Append.result, hchanges]

theorem ensureWritable_ok (h : w.ensureWritable = .ok ()) : w.poisoned = false := by
  rw [ensureWritable] at h
  split at h
  · cases h
  · next hno => simpa using fun hp => hno (Or.inl hp)

/-- An acknowledged append. -/
theorem Journaled.acknowledge {op : Append} (h : Journaled format original w acked acked text)
    (hjournal : w.journal = frames format acked) (hchecked : Checked format w op p)
    (hframed : Framed format w p) (hvalid : op.Valid text) :
    Journaled format original (w.acknowledge format p) (acked ++ [p.record]) (acked ++ [p.record])
      (op.result text) := by
  have hfiles : w.files.Extends (w.files.write p.record.segment.name p.payload) :=
    Files.extends_write _ hframed.fresh
  have hname := segmentName_ne p.record.receipt.revision
  rw [← hchecked.name] at hname
  have hsame : w.journal ++ frame format (format.encode p.record) =
      frames format (acked ++ [p.record]) := by
    rw [hjournal, frames_append, frames_cons, frames_nil, List.append_nil]
  have hmanifest := h.manifest.mono hfiles (List.prefix_append acked [p.record])
  refine ⟨{ hmanifest with durable := ?_ },
    h.published.mono hfiles (List.prefix_append _ _) ⟨rfl, rfl⟩, ?_,
    ?_, ?_, ?_, ?_, Or.inl rfl, ?_, ?_, fun _ => ⟨rfl, hsame⟩, ?_⟩
  · rintro receipt ⟨⟩
    exact ⟨p.record, List.mem_append_right _ (List.mem_singleton_self _), rfl⟩
  · exact (Files.write_ne _ hname.1.symm).trans h.tombstone
  · show some p.record.receipt = _
    rw [List.getLast?_concat]
    rfl
  · show w.records + 1 = _
    rw [List.length_append, List.length_singleton, h.records]
  · exact (h.accepted.mono hfiles).snoc (hchecked.accepts hframed h.last h.records)
  · show (acked ++ [p.record]).foldlM (replayRecord (w.files.write _ _)) original = _
    rw [List.foldlM_append, applied_mono hfiles h.applied]
    show (replayRecord _ text p.record >>= pure) = _
    rw [hchecked.replays hframed hvalid]
    rfl
  · exact hsame ▸ List.prefix_refl _
  · exact hsame ▸ List.prefix_refl _
  · show (w.journal ++ _).length ≤ _
    rw [List.length_append]
    exact hframed.room

/-- A failed append. -/
theorem Journaled.failed {op : Append} (h : Journaled format original w acked acked text)
    (hjournal : w.journal = frames format acked) (hchecked : Checked format w op p)
    (hfailed : Failed format w p w') (hvalid : op.Valid text) :
    Journaled format original w' acked
      (acked ++ if w'.journal = w.journal then [] else [p.record]) text := by
  obtain ⟨files, tail, rfl, hcases, htail, hwhole⟩ := hfailed.kept
  have hname := segmentName_ne p.record.receipt.revision
  rw [← hchecked.name] at hname
  have hfiles : w.files.Extends files ∧ files "retired.json" = none := by
    rcases hcases with rfl | ⟨bytes, hfresh, rfl⟩
    · exact ⟨.refl _, h.tombstone⟩
    · exact ⟨Files.extends_write _ hfresh, (Files.write_ne _ hname.1.symm).trans h.tombstone⟩
  obtain ⟨hext, htombstone⟩ := hfiles
  have hmanifest := h.manifest.mono hext (List.prefix_refl acked)
  have hpublished : Published format original
      { w with files, journal := w.journal ++ tail, poisoned := true } acked :=
    h.published.mono hext (List.prefix_refl acked) ⟨rfl, rfl⟩
  have haccepted := h.accepted.mono hext
  have happlied := applied_mono hext h.applied
  by_cases hnil : tail = []
  · subst hnil
    simp only [List.append_nil, if_true] at hpublished ⊢
    exact ⟨hmanifest, hpublished, htombstone, h.last, h.records, haccepted, happlied, Or.inl rfl,
      h.lower, h.upper, (fun hlive => by cases hlive), h.room⟩
  · obtain ⟨hframed, rfl⟩ := hwhole hnil
    have hne : ¬ w.journal ++ tail = w.journal := by
      intro heq
      exact hnil (List.append_right_eq_self.mp heq)
    simp only [if_neg hne]
    refine ⟨hmanifest, hpublished, htombstone, h.last, h.records, haccepted, happlied,
      Or.inr ⟨p.record, p.nextLen, op.result text, rfl,
        hchecked.accepts hframed h.last h.records, hchecked.replays hframed hvalid⟩,
      ?_, ?_, (fun hlive => by cases hlive), ?_⟩
    · show _ <+: w.journal ++ tail
      rw [hjournal]
      exact List.prefix_append _ _
    · show w.journal ++ tail <+: _
      rw [hjournal, frames_append, frames_cons, frames_nil, List.append_nil]
      exact (List.prefix_append_right_inj _).mpr htail
    · show (w.journal ++ tail).length ≤ _
      have hle := htail.length_le
      have hroom := hframed.room
      rw [List.length_append]
      omega

theorem Journaled.append (op : Append) (now : Nat) (stop : Option Stop)
    (h : Journaled format original w acked written text) (hvalid : op.Valid text) :
    Journaled format original (w.append format op now stop).2
      (acked ++ acknowledged format w op now stop) (written ++ begun format w op now stop)
      (if (w.append format op now stop).1.toBool then op.result text else text) := by
  cases hprepare : w.prepare format now op with
  | error e =>
    have happend : w.append format op now stop = (.error e, w) := by
      rw [RecoveryWriter.append, hprepare]
    simpa [acknowledged, begun, happend, Except.toBool] using h
  | ok p =>
    have hattempted : attempted format w op now = [p.record] := by rw [attempted, hprepare]
    have hchecked := prepare_checked hprepare
    obtain ⟨hwritten, hjournal⟩ := h.live (ensureWritable_ok hchecked.writable)
    subst hwritten
    rcases store_cases format w hchecked.exact stop with
      ⟨hframed, hstore⟩ | ⟨error, w', hstore, hfailed⟩
    · have happend : w.append format op now stop =
          (.ok p.record.receipt, w.acknowledge format p) := by
        rw [RecoveryWriter.append, hprepare]
        exact hstore
      have hgrown : (w.acknowledge format p).journal ≠ w.journal := by
        intro heq
        have hlen := congrArg List.length heq
        simp only [RecoveryWriter.acknowledge, List.length_append, frame_length] at hlen
        omega
      simp only [acknowledged, begun, happend, hattempted, if_neg hgrown]
      exact h.acknowledge hjournal hchecked hframed hvalid
    · have happend : w.append format op now stop = (.error error, w') := by
        rw [RecoveryWriter.append, hprepare]
        exact hstore
      simp only [acknowledged, begun, happend, hattempted]
      rw [show (Except.error error : Except IoError DurableReceipt).toBool = false from rfl]
      simp only [Bool.false_eq_true, if_false, List.append_nil]
      exact h.failed hjournal hchecked hfailed hvalid

/-- Publishing a true manifest changes the manifest files only, and one can still be read: the
old one is kept as the previous one first, unless it could not be read itself. -/
theorem Published.publish (hformat : format.RoundTrip) {next : Manifest}
    (kept publication : Publication) (hnext : Truthful format original w.files acked next)
    (h : Published format original w acked) :
    ∃ published previous, (w.publish format next kept publication).2 =
        { w with published, previous } ∧
      Published format original { w with published, previous } acked := by
  obtain ⟨m, hm, htrue, hread⟩ := h
  rw [RecoveryWriter.publish, hm]
  by_cases hfits : Fits format m
  · have hsame (previous : Option Bytes) : Published format original
        { w with published := some (format.encodeManifest m), previous } acked :=
      ⟨m, rfl, htrue, Or.inl hfits⟩
    have hreplaced : Published format original { w with
        published := some (format.encodeManifest next)
        previous := some (format.encodeManifest m) } acked :=
      ⟨next, rfl, hnext, Or.inr ⟨m, rfl, htrue, hfits⟩⟩
    rw [htrue.read hformat hfits]
    cases kept with
    | done =>
      cases publication with
      | done => exact ⟨_, _, rfl, hreplaced⟩
      | failed => exact ⟨_, _, rfl, hsame _⟩
      | committedThenFailed => exact ⟨_, _, rfl, hreplaced⟩
    | failed => exact ⟨_, _, by rw [← hm]; rfl, hsame _⟩
    | committedThenFailed => exact ⟨_, _, by rw [← hm]; rfl, hsame _⟩
  · have hprevious := hread.resolve_left hfits
    have hreplaced : Published format original
        { w with published := some (format.encodeManifest next) } acked :=
      ⟨next, rfl, hnext, Or.inr hprevious⟩
    rw [readManifestFile_large hfits]
    cases publication with
    | done => exact ⟨_, _, rfl, hreplaced⟩
    | failed => exact ⟨_, _, rfl, ⟨m, rfl, htrue, Or.inr hprevious⟩⟩
    | committedThenFailed => exact ⟨_, _, rfl, hreplaced⟩

theorem Journaled.checkpoint (hformat : format.RoundTrip) (kept publication : Publication)
    (h : Journaled format original w acked written text) :
    Journaled format original (w.checkpoint format kept publication).2 acked written text := by
  rw [RecoveryWriter.checkpoint]
  split
  · exact h
  · obtain ⟨published, previous, heq, hpublished⟩ :=
      h.published.publish hformat kept publication h.manifest
    rw [heq]
    exact { h with published := hpublished }

theorem Journaled.sealBaseline (hformat : format.RoundTrip) {source : Bytes} {verified : Bool}
    (kept publication : Publication)
    (h : Journaled format original w acked written text)
    (hsource : verified = true → source = original) :
    Journaled format original (w.sealBaseline format source verified kept publication).2 acked
      written text := by
  rw [RecoveryWriter.sealBaseline]
  split
  · exact h
  split
  · exact h
  split
  · exact h
  next hfresh =>
  split
  · exact h
  split
  · exact h
  next hverified =>
  have hsame : source = original := by
    apply hsource
    simpa using fun hno => hverified (Or.inr hno)
  subst hsame
  have hext : w.files.Extends (w.files.write "baseline.bin" source) :=
    Files.extends_write _ (by simpa using hfresh)
  have hmanifest := h.manifest.mono hext (List.prefix_refl acked)
  have hpublished : Published format source
      { w with files := w.files.write "baseline.bin" source } acked :=
    h.published.mono hext (List.prefix_refl acked) ⟨rfl, rfl⟩
  have hnext : Truthful format source (w.files.write "baseline.bin" source) acked
      { w.manifest with
        baseline := some ⟨"baseline.bin", source.length, format.sha256 source⟩ } := by
    refine { hmanifest with baseline := ?_ }
    rintro blob ⟨⟩
    exact ⟨rfl, Files.write_self _ _⟩
  have hw : Journaled format source { w with files := w.files.write "baseline.bin" source } acked
      written text := by
    refine { h with
      manifest := hmanifest, published := hpublished, accepted := h.accepted.mono hext
      applied := applied_mono hext h.applied, tombstone := ?_, pending := ?_ }
    · exact (Files.write_ne source
        (show "retired.json" ≠ "baseline.bin" by decide)).trans h.tombstone
    · rcases h.pending with heq | ⟨record, len, text', heq, haccepts, hreplay⟩
      · exact Or.inl heq
      · exact Or.inr ⟨record, len, text', heq, haccepts.mono hext,
          replayRecord_mono hext hreplay⟩
  obtain ⟨published, previous, heq, hpublished'⟩ :=
    hpublished.publish hformat kept publication hnext
  dsimp only
  cases hpublish : RecoveryWriter.publish format
      { w with files := w.files.write "baseline.bin" source }
      { w.manifest with
        baseline := some ⟨"baseline.bin", source.length, format.sha256 source⟩ }
      kept publication with
  | mk result w₁ =>
    rw [hpublish] at heq
    dsimp only at heq
    subst heq
    cases result with
    | ok => exact { hw with manifest := hnext, published := hpublished' }
    | error => exact { hw with published := hpublished', live := fun hlive => by cases hlive }

end Steps

/-- Every run keeps the journal so. -/
theorem Reached.journaled (hformat : format.RoundTrip) {metadata : RecoveryMetadata}
    {original text : Bytes} {acked written : List Record}
    (hlen : metadata.originalLen = original.length) (hfits : Fits format (firstManifest metadata))
    (h : Reached format metadata original w acked written text) :
    Journaled format original w acked written text := by
  induction h with
  | create hcreate => exact create_journaled hlen hfits hcreate
  | append op now stop _ hvalid ih => exact ih.append op now stop hvalid
  | checkpoint kept publication _ ih => exact ih.checkpoint hformat kept publication
  | sealBaseline source verified kept publication _ hsource ih =>
    exact ih.sealBaseline hformat kept publication hsource

/-! ## §4 Scanning after a run -/

section Scanning

variable {original text : Bytes} {acked written : List Record}

/-- What is in the journal is accepted and applies, acknowledged or not. -/
theorem Journaled.whole (h : Journaled format original w acked written text) :
    (∃ last, Accepted format w.files [] original.length written last) ∧
      ∃ final, written.foldlM (replayRecord w.files) original = some final := by
  rcases h.pending with rfl | ⟨record, len, text', rfl, haccepts, hreplay⟩
  · exact ⟨⟨_, h.accepted⟩, ⟨_, h.applied⟩⟩
  · refine ⟨⟨_, h.accepted.snoc haccepts⟩, text', ?_⟩
    rw [List.foldlM_append, h.applied]
    show (replayRecord _ text record >>= pure) = _
    rw [hreplay]
    rfl

/-- The durable receipt of a manifest lies behind all of the records. -/
def missed (m : Manifest) (records : List Record) : Bool :=
  m.durable.any fun receipt =>
    records.getLast?.all fun record => decide (record.receipt.revision < receipt.revision)

/-- `scan` on a journal of accepted, applicable frames and a torn tail. -/
theorem scan_frames {final tail : Bytes} {whole : List Record} {last : Nat} {w : RecoveryWriter}
    {m : Manifest} (hformat : format.RoundTrip) (hread : readManifest format w = .ok m)
    (hpublished : Truthful format original w.files acked m)
    (htombstone : w.files "retired.json" = none) (hroom : w.journal.length ≤ MAX_JOURNAL)
    (haccepted : Accepted format w.files [] original.length whole last)
    (happlied : whole.foldlM (replayRecord w.files) original = some final)
    (hsize : original.length + Replay.segmentLen whole ≤ u64Max)
    (hjournal : w.journal = frames format whole ++ tail) (htorn : Torn format tail) :
    ∃ result, scan format w = .ok result ∧ result.manifest = m ∧ result.records = whole ∧
      result.corrupt = (decide (tail ≠ []) || missed m whole) := by
  have hmanifest : scanManifest format w = .ok m := by rw [scanManifest, hread]
  have hlive : { m with retired := false } = m := by rw [← hpublished.retired]
  have hscan : scanFrom format w.files [] m.metadata.originalLen w.journal =
      (whole, decide (tail ≠ [])) := by
    rw [hpublished.originalLen, hjournal]
    exact scanFrom_frames hformat haccepted htorn
  rw [scan, hmanifest]
  simp only [bind, Except.bind, hpublished.retired, htombstone, Option.isSome_none, Bool.or_self,
    Bool.false_eq_true, if_false, if_neg (Nat.not_lt.mpr hroom), hscan, hlive]
  cases hbaseline : m.baseline with
  | none =>
    simp only [Bool.not_false, if_true]
    exact ⟨_, rfl, rfl, rfl, rfl⟩
  | some blob =>
    obtain ⟨rfl, hfile⟩ := hpublished.baseline blob hbaseline
    have hvalid : (verifyBlob format w.files
        ⟨"baseline.bin", original.length, format.sha256 original⟩).toBool = true :=
      verifyBlob_ok.mpr ⟨original, hfile, rfl, rfl⟩
    have hreadable : Replay.Readable w.files whole := by
      intro record hrecord
      obtain ⟨_, _, _, haccepts⟩ := haccepted.accepts hrecord
      exact haccepts.segment
    simp only [hvalid, hpublished.originalLen, Bool.not_true, Bool.false_eq_true, if_false]
    -- Every record applies, so the map counts them all or runs out of spans.
    rcases (Replay.build_spec hfile hreadable hsize).1 with ⟨replay, hbuild, -, -⟩ | ⟨hbuild, -⟩
    · rw [replayPrefix_of_applied happlied] at hbuild
      simp only [hbuild, List.take_length, Nat.lt_irrefl, decide_false, Bool.or_false]
      exact ⟨_, rfl, rfl, rfl, rfl⟩
    · simp only [hbuild]
      exact ⟨_, rfl, rfl, rfl, rfl⟩

theorem missed_iff {files : Files} {m : Manifest} {whole : List Record} {len last : Nat}
    (haccepted : Accepted format files [] len whole last) :
    missed m whole = true ↔ ∃ receipt ∈ m.durable, ∀ record ∈ whole,
      record.receipt.revision < receipt.revision := by
  have hlast := haccepted.revision_le_last (fun r hr => by cases hr)
  rw [List.nil_append] at hlast
  rw [missed, Option.any_eq_true]
  refine exists_congr fun receipt => and_congr_right fun _ => ?_
  cases hl : whole.getLast? with
  | none =>
    rw [List.getLast?_eq_none_iff.mp hl]
    simp
  | some l =>
    rw [Option.all_some, decide_eq_true_eq]
    constructor
    · intro hlt record hrecord
      exact Nat.lt_of_le_of_lt (hlast record hrecord l hl) hlt
    · intro hall
      exact hall l (List.mem_of_getLast? hl)

/-- Where the only manifest is too long to be read, nothing is. -/
theorem scan_large {m : Manifest} {w : RecoveryWriter} (hlarge : ¬Fits format m)
    (hpublished : w.published = some (format.encodeManifest m)) (hprevious : w.previous = none)
    (htombstone : w.files "retired.json" = none) :
    scan format w = .error (invalid "recovery manifest limit") := by
  have hread : readManifest format w = .error (invalid "recovery manifest limit") := by
    rw [readManifest, hpublished, readManifestFile_large hlarge, hprevious]
    rfl
  rw [scan, scanManifest, hread, htombstone]
  rfl

end Scanning

end RecoveryWriter

/-- However its journal is cut, `scan` reads a writer's directory: records and a tail that no
whole frame starts.  The records are the first ones written, and all acknowledged ones if the cut
is not in front of them; the journal counts as corrupt exactly if the tail is not empty or the
durable receipt is not reached, and the latter takes a cut in front of an acknowledged record. -/
def ReadsBack (format : Format) (w : RecoveryWriter) (acked written : List Record) : Prop :=
  ∀ cut, ∃ result tail, scan format { w with journal := w.journal.take cut } = .ok result ∧
    w.journal.take cut = frames format result.records ++ tail ∧
    (∀ bytes rest, bytes.length ≤ MAX_RECORD → tail ≠ frame format bytes ++ rest) ∧
    result.records <+: written ∧
    (result.corrupt = true ↔ tail ≠ [] ∨ ∃ receipt ∈ result.manifest.durable,
      ∀ record ∈ result.records, record.receipt.revision < receipt.revision) ∧
    ((frames format acked).length ≤ cut → acked <+: result.records ∧
      (result.corrupt = true ↔ tail ≠ []))

theorem RecoveryWriter.Journaled.readsBack {format : Format} (hformat : format.RoundTrip)
    {original text : Bytes} {w : RecoveryWriter} {acked written : List Record}
    (hj : RecoveryWriter.Journaled format original w acked written text)
    (hsize : original.length + Replay.segmentLen written ≤ u64Max) :
    ReadsBack format w acked written := by
  intro cut
  obtain ⟨⟨last, haccepted⟩, final, happlied⟩ := hj.whole
  have hle : ∀ record ∈ written, (format.encode record).length ≤ MAX_RECORD := by
    intro record hrecord
    obtain ⟨_, _, _, haccepts⟩ := haccepted.accepts hrecord
    exact haccepts.size
  -- A cut journal is a front part of the frames written.
  have hcut : w.journal.take cut = (frames format written).take (min cut w.journal.length) := by
    rw [← List.take_take, ← List.prefix_iff_eq_take.mp hj.upper]
  obtain ⟨whole, tail, hwhole, htake, htorn, hmost⟩ :=
    frames_take hle (min cut w.journal.length)
  obtain ⟨last', haccepted'⟩ := haccepted.of_prefix hwhole
  obtain ⟨rest, hrest⟩ := hwhole
  have happlied' : ∃ t, whole.foldlM (replayRecord w.files) original = some t := by
    rw [← hrest, List.foldlM_append, Option.bind_eq_bind, Option.bind_eq_some_iff] at happlied
    obtain ⟨t, ht, -⟩ := happlied
    exact ⟨t, ht⟩
  obtain ⟨t, happlied'⟩ := happlied'
  have hsize' : original.length + Replay.segmentLen whole ≤ u64Max := by
    rw [← hrest, Replay.segmentLen, List.map_append, List.sum_append] at hsize
    rw [Replay.segmentLen]
    omega
  have hroom : (w.journal.take cut).length ≤ MAX_JOURNAL :=
    Nat.le_trans (List.length_take_le' _ _) hj.room
  -- The manifest files are not cut.
  obtain ⟨m, hread, htrue⟩ := hj.published.read hformat
  obtain ⟨result, hscan, rfl, hrecords, hcorrupt⟩ := RecoveryWriter.scan_frames
    (w := { w with journal := w.journal.take cut }) hformat hread htrue hj.tombstone hroom
    haccepted' happlied' hsize' (hcut.trans htake) htorn
  subst hrecords
  have hflag : result.corrupt = true ↔ tail ≠ [] ∨ ∃ receipt ∈ result.manifest.durable,
      ∀ record ∈ result.records, record.receipt.revision < receipt.revision := by
    rw [hcorrupt, Bool.or_eq_true, decide_eq_true_eq, RecoveryWriter.missed_iff haccepted']
  refine ⟨result, tail, hscan, hcut.trans htake, fun bytes rest hbytes => htorn.not_frame hbytes,
    ⟨rest, hrest⟩, hflag, fun hacked => ?_⟩
  have hfront : acked <+: result.records := by
    apply hmost
    · rcases hj.pending with rfl | ⟨record, _, _, rfl, -⟩
      · exact List.prefix_refl _
      · exact List.prefix_append _ _
    · exact Nat.le_min.mpr ⟨hacked, hj.lower.length_le⟩
  refine ⟨hfront, hflag.trans (or_iff_left ?_)⟩
  rintro ⟨receipt, hreceipt, hbehind⟩
  obtain ⟨record, hrecord, rfl⟩ := htrue.durable receipt hreceipt
  exact Nat.lt_irrefl _ (hbehind record (hfront.subset hrecord))

/-- Journal durability: every run of a writer leaves a directory that `scan` reads back exactly if
the manifest the writer starts with is not longer than `read_manifest_file` takes. -/
theorem journal_durable {format : Format} (hformat : format.RoundTrip)
    {metadata : RecoveryMetadata} {original : Bytes}
    (hlen : metadata.originalLen = original.length) (hmax : original.length ≤ u64Max)
    {fresh : RecoveryWriter} (hcreate : RecoveryWriter.create format metadata = .ok fresh) :
    (∀ w acked written text, RecoveryWriter.Reached format metadata original w acked written text →
      original.length + Replay.segmentLen written ≤ u64Max → ReadsBack format w acked written) ↔
    (format.encodeManifest (RecoveryWriter.firstManifest metadata)).length ≤ 32 * 1024 := by
  constructor
  · intro hall
    by_contra hlarge
    obtain ⟨result, _, hscan, -⟩ := hall fresh [] [] original (.create hcreate) hmax 0
    rw [RecoveryWriter.create] at hcreate
    split at hcreate
    · cases hcreate
    · cases hcreate
      rw [RecoveryWriter.scan_large hlarge rfl rfl rfl] at hscan
      cases hscan
  · intro hfits w acked written text hreached hsize
    exact (hreached.journaled hformat hlen hfits).readsBack hformat hsize

/-! ## §5 A format -/

instance countable_char : Countable Char :=
  Function.Injective.countable (f := Char.toNat) fun _ _ h => Char.toNat_inj.mp h

instance countable_string : Countable String :=
  Function.Injective.countable (f := String.toList) fun _ _ h => String.toList_inj.mp h

instance countable_uint8 : Countable UInt8 :=
  Function.Injective.countable (f := UInt8.toNat) fun _ _ h => UInt8.toNat_inj.mp h

instance countable_bytes : Countable Bytes := inferInstanceAs (Countable (List UInt8))

deriving instance Countable for Blob, DurableReceipt, EditRef, RecoveryMetadata, Manifest, Record

/-- There is an encoding that gives one value any text one likes. -/
theorem exists_encoding {α : Type} [Countable α] (a : α) (text : Bytes) (htext : text ≠ []) :
    ∃ (encode : α → Bytes) (decode : Bytes → Option α), (∀ x, decode (encode x) = some x) ∧
      (∀ x, encode x ≠ []) ∧ encode a = text := by
  classical
  obtain ⟨number, hnumber⟩ := exists_injective_nat α
  let encode : α → Bytes := fun x =>
    if x = a then text else List.replicate (text.length + 1 + number x) 0
  have hinj : ∀ x y, encode x = encode y → x = y := by
    intro x y h
    have hlen := congrArg List.length h
    simp only [encode] at hlen
    split_ifs at hlen with h1 h2 h2
    · rw [h1, h2]
    · rw [List.length_replicate] at hlen
      omega
    · rw [List.length_replicate] at hlen
      omega
    · rw [List.length_replicate, List.length_replicate] at hlen
      exact hnumber (by omega)
  refine ⟨encode, fun bytes => if h : ∃ x, encode x = bytes then some h.choose else none,
    fun x => ?_, fun x => ?_, if_pos rfl⟩
  · have h : ∃ y, encode y = encode x := ⟨x, rfl⟩
    show (if h : ∃ y, encode y = encode x then some h.choose else none) = some x
    rw [dif_pos h, hinj _ _ h.choose_spec]
  · show encode x ≠ []
    simp only [encode]
    split_ifs
    · exact htext
    · simp

/-- There is a format that gives one record and one manifest any texts one likes. -/
theorem exists_format (sha256 : Bytes → Bytes) (crc32c : Bytes → UInt32) (record : Record)
    (m : Manifest) {text manifestText : Bytes} (htext : text ≠ [])
    (hmanifestText : manifestText ≠ []) :
    ∃ encode decode encodeManifest decodeManifest,
      (Format.mk sha256 crc32c encode decode encodeManifest decodeManifest).RoundTrip ∧
        encode record = text ∧ encodeManifest m = manifestText := by
  obtain ⟨encode, decode, hround, hne, hrecord⟩ := exists_encoding record text htext
  obtain ⟨encodeManifest, decodeManifest, hround', -, hm⟩ :=
    exists_encoding m manifestText hmanifestText
  exact ⟨encode, decode, encodeManifest, decodeManifest, ⟨hround, hne, hround'⟩, hrecord, hm⟩

theorem utf8Len_replicate (c : Char) (n : Nat) :
    String.utf8Len (List.replicate n c) = n * c.utf8Size := by
  induction n with
  | zero =>
    rw [Nat.zero_mul]
    rfl
  | succ n ih => rw [List.replicate_succ, String.utf8Len_cons, ih, Nat.succ_mul]

/-- ASCII text as bytes. -/
def asciiBytes (text : List Char) : Bytes := text.map fun c => UInt8.ofNat c.toNat

/-- The hash of "a". -/
def letterHash : Bytes :=
  [202, 151, 129, 18, 202, 27, 189, 202, 250, 194, 49, 179, 154, 35, 220, 77, 167, 134, 239, 248,
    20, 124, 78, 114, 185, 128, 119, 133, 175, 238, 72, 187]

/-- The record of an insertion of "a" into an empty document. -/
def letterRecord : Record :=
  ⟨2, none, ⟨1, 0⟩, ⟨"segment-1.bin", 1, letterHash⟩, [⟨0, 0, 1⟩]⟩

/-- What serde writes for `letterRecord`. -/
def letterJson : String :=
  "\x7b\"version\":2,\"receipt\":\x7b\"revision\":1,\"protected_unix_ms\":0\x7d," ++
    "\"segment\":\x7b\"name\":\"segment-1.bin\",\"len\":1,\"sha256\":" ++
    "[202,151,129,18,202,27,189,202,250,194,49,179,154,35,220,77,167,134,239,248," ++
    "20,124,78,114,185,128,119,133,175,238,72,187]\x7d," ++
    "\"edits\":[\x7b\"offset\":0,\"removed\":0,\"inserted\":1\x7d]\x7d"

theorem length_toList_append (a b c d e : List Char) :
    (String.ofList a ++ String.ofList b ++ String.ofList c ++ String.ofList d ++
        String.ofList e).toList.length =
      a.length + b.length + c.length + d.length + e.length := by
  simp only [String.toList_append, String.toList_ofList, List.length_append]

theorem letterJson_length : letterJson.toList.length = 282 := length_toList_append _ _ _ _ _

/-! What serde writes for the first manifest of an empty document, around the JSON form `name` of
its source generation and of its catalog version. -/

def manifestHead : List Char :=
  "\x7b\"version\":2,\"metadata\":\x7b\"original_path\":null,\"source_generation\":\"".toList

def manifestBetween : List Char := "\",\"codec_catalog_version\":\"".toList

def manifestTail : List Char :=
  "\",\"original_len\":0\x7d,\"baseline\":null,\"durable\":null,\"retired\":false\x7d".toList

def manifestJson (name : List Char) : List Char :=
  manifestHead ++ name ++ manifestBetween ++ name ++ manifestTail

theorem manifestJson_length (name : List Char) :
    (manifestJson name).length = 161 + 2 * name.length := by
  have hhead : manifestHead.length = 67 := congrArg List.length String.toList_ofList
  have hbetween : manifestBetween.length = 27 := congrArg List.length String.toList_ofList
  have htail : manifestTail.length = 67 := congrArg List.length String.toList_ofList
  simp only [manifestJson, List.length_append, hhead, hbetween, htail]
  omega

/-- Texts that serde writes are not empty. -/
theorem asciiBytes_ne_nil {text : List Char} (h : 0 < text.length) : asciiBytes text ≠ [] := by
  intro hnil
  have hlen := congrArg List.length hnil
  rw [asciiBytes, List.length_map, List.length_nil] at hlen
  omega

namespace RecoveryWriter

/-- The writer `create` returns. -/
def freshWriter (format : Format) (metadata : RecoveryMetadata) : RecoveryWriter :=
  ⟨fun _ => none, [], some (format.encodeManifest (firstManifest metadata)), none,
    firstManifest metadata, false, 0, metadata.originalLen⟩

/-- A new writer for an empty document acknowledges the insertion of "a". -/
theorem letter_acknowledged {format : Format} (hhash : format.sha256 [97] = letterHash)
    (hencode : format.encode letterRecord = asciiBytes letterJson.toList)
    {metadata : RecoveryMetadata} (hlen : metadata.originalLen = 0)
    (hcreate : create format metadata = .ok (freshWriter format metadata)) :
    (freshWriter format metadata).append format (.edits 1 [⟨0, [], [97]⟩]) 0 none =
        (.ok ⟨1, 0⟩, (freshWriter format metadata).acknowledge format
          ⟨letterRecord, [97], none, 1⟩) ∧
      ∃ text, Reached format metadata []
        ((freshWriter format metadata).acknowledge format ⟨letterRecord, [97], none, 1⟩)
        [letterRecord] [letterRecord] text := by
  have hprepare : (freshWriter format metadata).prepare format 0 (.edits 1 [⟨0, [], [97]⟩]) =
      .ok ⟨letterRecord, [97], none, 1⟩ := by
    rw [letterRecord, ← hhash]
    simp only [prepare, prepareRecord, freshWriter, hlen]
    rfl
  have hstore : (freshWriter format metadata).store format ⟨letterRecord, [97], none, 1⟩ none =
      (.ok ⟨1, 0⟩, (freshWriter format metadata).acknowledge format
        ⟨letterRecord, [97], none, 1⟩) := by
    have hsize : (format.encode letterRecord).length ≤ MAX_RECORD ∧
        (format.encode letterRecord).length + 8 ≤ MAX_JOURNAL := by
      rw [hencode, asciiBytes, List.length_map, letterJson_length]
      decide
    simpa [store, freshWriter, acknowledge, letterRecord] using hsize
  have happend : (freshWriter format metadata).append format (.edits 1 [⟨0, [], [97]⟩]) 0 none =
      (.ok ⟨1, 0⟩, (freshWriter format metadata).acknowledge format
        ⟨letterRecord, [97], none, 1⟩) := by
    rw [append, hprepare]
    exact hstore
  have hvalid : (Append.edits 1 [⟨0, [], [97]⟩]).Valid [] := by
    rintro edits ⟨⟩
    decide
  have hstart : Reached format metadata [] (freshWriter format metadata) [] [] [] := .create hcreate
  have hreached := hstart.append (.edits 1 [⟨0, [], [97]⟩]) 0 none hvalid
  have hattempted : attempted format (freshWriter format metadata) (.edits 1 [⟨0, [], [97]⟩]) 0 =
      [letterRecord] := by
    rw [attempted, hprepare]
  have hgrown : ¬((freshWriter format metadata).acknowledge format
      ⟨letterRecord, [97], none, 1⟩).journal = (freshWriter format metadata).journal := by
    intro h
    have := congrArg List.length h
    simp [acknowledge, freshWriter] at this
  simp only [acknowledged, begun, happend, hattempted, if_neg hgrown] at hreached
  exact ⟨happend, _, hreached⟩

end RecoveryWriter

/-- One acknowledged insertion of "a" into an empty document, with the hash of "a", the checksum
and the texts it really has: all of the journal is read back. -/
theorem journal_durable_acknowledged :
    ∃ (format : Format) (fresh w : RecoveryWriter) (result : Scan),
      format.encode letterRecord = asciiBytes letterJson.toList ∧
      format.encodeManifest (RecoveryWriter.firstManifest ⟨none, "", "", 0⟩) =
        asciiBytes (manifestJson []) ∧
      RecoveryWriter.create format ⟨none, "", "", 0⟩ = .ok fresh ∧
      fresh.append format (.edits 1 [⟨0, [], [97]⟩]) 0 none = (.ok ⟨1, 0⟩, w) ∧
      scan format w = .ok result ∧ result.records = [letterRecord] ∧ result.corrupt = false := by
  obtain ⟨encode, decode, encodeManifest, decodeManifest, hformat, hencode, hmanifest⟩ :=
    exists_format (fun _ => letterHash) (fun _ => 379929035) letterRecord
      (RecoveryWriter.firstManifest ⟨none, "", "", 0⟩)
      (asciiBytes_ne_nil (by rw [letterJson_length]; decide))
      (asciiBytes_ne_nil (by rw [manifestJson_length []]; decide))
  let format : Format :=
    ⟨fun _ => letterHash, fun _ => 379929035, encode, decode, encodeManifest, decodeManifest⟩
  have hcreate : RecoveryWriter.create format ⟨none, "", "", 0⟩ =
      .ok (RecoveryWriter.freshWriter format ⟨none, "", "", 0⟩) := rfl
  obtain ⟨happend, text, hreached⟩ :=
    @RecoveryWriter.letter_acknowledged format rfl hencode _ rfl hcreate
  have hfits : (encodeManifest (RecoveryWriter.firstManifest ⟨none, "", "", 0⟩)).length ≤
      32 * 1024 := by
    rw [hmanifest, asciiBytes, List.length_map, manifestJson_length]
    decide
  obtain ⟨result, tail, hscan, hcut, -, ⟨rest, hfront⟩, -, hall⟩ :=
    (@journal_durable format hformat _ [] rfl (Nat.zero_le _) _ hcreate).mpr hfits _ _ _ _
      hreached (by decide) (frames format [letterRecord]).length
  have hjournal : ((RecoveryWriter.freshWriter format ⟨none, "", "", 0⟩).acknowledge format
      ⟨letterRecord, [97], none, 1⟩).journal = frames format [letterRecord] :=
    (List.append_nil _).symm
  rw [← hjournal, List.take_length] at hscan hcut
  obtain ⟨hacked, hcorrupt⟩ := hall (Nat.le_refl _)
  have hwritten : result.records <+: [letterRecord] := ⟨rest, hfront⟩
  have hrecords : result.records = [letterRecord] :=
    hwritten.eq_of_length (Nat.le_antisymm hwritten.length_le hacked.length_le)
  rw [hrecords, hjournal] at hcut
  refine ⟨format, _, _, result, hencode, hmanifest, hcreate, happend, hscan, hrecords, ?_⟩
  have htail : tail = [] := List.self_eq_append_right.mp hcut
  rw [← Bool.not_eq_true, hcorrupt]
  exact not_not.mpr htail

/-- A source generation and a catalog version of 4096 control characters each pass the limit of
`create`, but take six bytes of JSON for every character: the insertion of "a" is acknowledged,
and `scan` reads nothing. -/
theorem long_manifest_loses_record :
    let control : String := String.ofList (List.replicate 4096 (Char.ofNat 1))
    let metadata : RecoveryMetadata := ⟨none, control, control, 0⟩
    ∃ (format : Format) (fresh w : RecoveryWriter), format.RoundTrip ∧
      format.encode letterRecord = asciiBytes letterJson.toList ∧
      format.encodeManifest (RecoveryWriter.firstManifest metadata) =
        asciiBytes (manifestJson (List.replicate 4096 "\\u0001".toList).flatten) ∧
      RecoveryWriter.create format metadata = .ok fresh ∧
      fresh.append format (.edits 1 [⟨0, [], [97]⟩]) 0 none = (.ok ⟨1, 0⟩, w) ∧
      scan format w = .error (invalid "recovery manifest limit") := by
  intro control metadata
  have hname : (List.replicate 4096 "\\u0001".toList).flatten.length = 24576 := by
    rw [List.length_flatten, List.map_replicate, List.sum_replicate]
    rfl
  have hlong : 0 < (manifestJson (List.replicate 4096 "\\u0001".toList).flatten).length := by
    rw [manifestJson_length]
    omega
  have hcontrol : control.utf8ByteSize = 4096 := by
    rw [String.utf8ByteSize_ofList]
    exact utf8Len_replicate (Char.ofNat 1) 4096
  obtain ⟨encode, decode, encodeManifest, decodeManifest, hformat, hencode, hmanifest⟩ :=
    exists_format (fun _ => letterHash) (fun _ => 379929035) letterRecord
      (RecoveryWriter.firstManifest metadata)
      (asciiBytes_ne_nil (by rw [letterJson_length]; decide))
      (asciiBytes_ne_nil hlong)
  let format : Format :=
    ⟨fun _ => letterHash, fun _ => 379929035, encode, decode, encodeManifest, decodeManifest⟩
  have hcreate : RecoveryWriter.create format metadata =
      .ok (RecoveryWriter.freshWriter format metadata) := by
    rw [RecoveryWriter.create, if_neg]
    · rfl
    · rw [hcontrol]
      decide
  have hlarge : ¬RecoveryWriter.Fits format (RecoveryWriter.firstManifest metadata) := by
    rw [RecoveryWriter.Fits, show format.encodeManifest _ = _ from hmanifest, asciiBytes,
      List.length_map, manifestJson_length, hname]
    decide
  obtain ⟨happend, -⟩ :=
    @RecoveryWriter.letter_acknowledged format rfl hencode _ rfl hcreate
  exact ⟨format, _, _, hformat, hencode, hmanifest, hcreate, happend,
    RecoveryWriter.scan_large hlarge rfl rfl rfl⟩

end BareLine
