import BareLine.Extensions.Broker
import BareLine.Lib.Wire
import BareLine.Recovery.Frames

/-!
# Frames of the extension protocol

An envelope travels as its length in four bytes and its serialization.  The reader of a list of
edits bounds it while it reads; nothing bounds it for the writer.
-/

namespace BareLine.Extensions

open Lib

/-! ## §1 Serialization -/

/-- `postcard`, on the types whose serialization is derived; `sizeHint` is what it says about a
sequence of some length in front of some bytes. -/
structure Postcard where
  u16 : Codec Nat
  u64 : Codec Nat
  string : Codec Bytes
  bytes : Codec Bytes
  variant : Codec Nat
  length : Codec Nat
  range : Codec Range
  context : Codec CapabilityContext
  sizeHint : Nat → Bytes → Option Nat

/-- What is promised of `postcard`. -/
structure Postcard.Lawful (p : Postcard) : Prop where
  u16 : p.u16.Lawful
  u64 : p.u64.Lawful
  string : p.string.Lawful
  bytes : p.bytes.Lawful
  variant : p.variant.Lawful
  length : p.length.Lawful
  range : p.range.Lawful
  context : p.context.Lawful
  u16_ne_nil : ∀ n, p.u16.encode n ≠ []
  string_length : ∀ s, s.length ≤ (p.string.encode s).length
  variant_holds : ∀ {n}, n < 2 ^ 32 → p.variant.holds n
  length_holds : ∀ {n}, n < 2 ^ 64 → p.length.holds n
  sizeHint_eq : ∀ {n k bytes}, p.sizeHint n bytes = some k → k = n

namespace Postcard

variable (p : Postcard)

/-- `TextEdit` -/
def edit : Codec TextEdit :=
  (p.range.seq p.string).map (fun v => ⟨v.1, v.2⟩) fun e => (e.range, e.replacement)

/-- The elements of a sequence of some length, up to one that cannot be read. -/
def elements : Nat → Bytes → List (Option TextEdit) × Bytes
  | 0, bytes => ([], bytes)
  | n + 1, bytes =>
    match p.edit.take bytes with
    | none => ([none], bytes)
    | some (edit, bytes) =>
      let (elements, bytes) := elements n bytes
      (some edit :: elements, bytes)

/-- The replacements of edits, in bytes. -/
def replacementBytes (edits : List TextEdit) : Nat := (edits.map (·.replacement.length)).sum

/-- `Vec<TextEdit>`, read by `deserialize_edits` -/
def edits : Codec (List TextEdit) where
  holds edits := (∀ e ∈ edits, p.edit.holds e) ∧ edits.length ≤ 4096 ∧
    replacementBytes edits ≤ MEMORY_LIMIT / 2
  encode edits := p.length.encode edits.length ++ edits.flatMap p.edit.encode
  take bytes := do
    let (length, bytes) ← p.length.take bytes
    let (elements, rest) := p.elements length bytes
    let edits ← visitSeq ⟨p.sizeHint length bytes, elements⟩
    some (edits, rest)

/-- The fields of a request, by its variant. -/
def takeFields (variant : Nat) (bytes : Bytes) : Option (Request × Bytes) :=
  match variant with
  | 0 => ((p.u64.seq (p.u64.seq p.range)).take bytes).map
      (Prod.map (fun v => .readTextRange v.1 v.2.1 v.2.2) id)
  | 1 => ((p.u64.seq (p.u64.seq p.range)).take bytes).map
      (Prod.map (fun v => .readOriginalBytes v.1 v.2.1 v.2.2) id)
  | 2 => ((p.u64.seq (p.u64.seq p.edits)).take bytes).map
      (Prod.map (fun v => .applyEdits v.1 v.2.1 v.2.2) id)
  | 3 => ((p.u64.seq p.u64).take bytes).map (Prod.map (fun v => .beginEdits v.1 v.2) id)
  | 4 => ((p.u64.seq p.bytes).take bytes).map (Prod.map (fun v => .appendChunk v.1 v.2) id)
  | 5 => ((p.u64.seq p.u64).take bytes).map (Prod.map (fun v => .commitEdits v.1 v.2) id)
  | 6 => (p.u64.take bytes).map (Prod.map .cancel id)
  | 7 => (p.string.take bytes).map (Prod.map .invokeCommand id)
  | 8 => ((p.string.seq p.string).take bytes).map (Prod.map (fun v => .panel v.1 v.2) id)
  | _ => none

/-- `Request`, its variants in the order of the source. -/
def request : Codec Request where
  holds
    | .readTextRange document revision range => (p.u64.seq (p.u64.seq p.range)).holds
        (document, revision, range)
    | .readOriginalBytes document generation range => (p.u64.seq (p.u64.seq p.range)).holds
        (document, generation, range)
    | .applyEdits document revision edits => (p.u64.seq (p.u64.seq p.edits)).holds
        (document, revision, edits)
    | .beginEdits document revision => (p.u64.seq p.u64).holds (document, revision)
    | .appendChunk transaction chunk => (p.u64.seq p.bytes).holds (transaction, chunk)
    | .commitEdits transaction revision => (p.u64.seq p.u64).holds (transaction, revision)
    | .cancel request => p.u64.holds request
    | .invokeCommand command => p.string.holds command
    | .panel panel text => (p.string.seq p.string).holds (panel, text)
  encode
    | .readTextRange document revision range => p.variant.encode 0 ++
        (p.u64.seq (p.u64.seq p.range)).encode (document, revision, range)
    | .readOriginalBytes document generation range => p.variant.encode 1 ++
        (p.u64.seq (p.u64.seq p.range)).encode (document, generation, range)
    | .applyEdits document revision edits => p.variant.encode 2 ++
        (p.u64.seq (p.u64.seq p.edits)).encode (document, revision, edits)
    | .beginEdits document revision => p.variant.encode 3 ++
        (p.u64.seq p.u64).encode (document, revision)
    | .appendChunk transaction chunk => p.variant.encode 4 ++
        (p.u64.seq p.bytes).encode (transaction, chunk)
    | .commitEdits transaction revision => p.variant.encode 5 ++
        (p.u64.seq p.u64).encode (transaction, revision)
    | .cancel request => p.variant.encode 6 ++ p.u64.encode request
    | .invokeCommand command => p.variant.encode 7 ++ p.string.encode command
    | .panel panel text => p.variant.encode 8 ++ (p.string.seq p.string).encode (panel, text)
  take bytes := do
    let (variant, bytes) ← p.variant.take bytes
    p.takeFields variant bytes

/-- `Envelope` -/
def envelope : Codec Envelope :=
  (p.u16.seq (p.u64.seq (p.string.seq (p.context.seq p.request)))).map
    (fun v => ⟨v.1, v.2.1, v.2.2.1, v.2.2.2.1, v.2.2.2.2⟩)
    fun m => (m.protocol, m.requestId, m.extensionId, m.context, m.request)

end Postcard

/-! ## §2 Frames -/

def MAX_FRAME_BYTES : Nat := 8 * 1024 * 1024

inductive ProtocolError where
  | io
  | oversized
  | malformed
  | version
  | invalidIdentity
  | chunkLimit
  deriving DecidableEq, Repr

/-- The bytes of the chunk a request appends. -/
def Request.chunkLength : Request → Nat
  | .appendChunk _ chunk => chunk.length
  | _ => 0

/-- `validate` -/
def validate (message : Envelope) : Except ProtocolError Unit :=
  if message.protocol ≠ PROTOCOL_VERSION then .error .version
  else if ¬validId message.extensionId then .error .invalidIdentity
  else if message.request.chunkLength > MAX_CHUNK_BYTES then .error .chunkLimit
  else .ok ()

section Streams

variable (p : Postcard)

/-- `write_frame`, behind what the stream holds; the stream takes all it is given. -/
def writeFrame (out : Bytes) (message : Envelope) : Except ProtocolError Bytes := do
  validate message
  let bytes := p.envelope.encode message
  if bytes.length > MAX_FRAME_BYTES then .error .oversized
  else .ok (out ++ (toLeBytes (UInt32.ofNat bytes.length) ++ bytes))

/-- The end of `read_frame`: a payload without the stream. -/
def readPayload (bytes : Bytes) : Except ProtocolError Envelope :=
  match p.envelope.take bytes with
  | none => .error .malformed
  | some (message, rest) =>
    if rest ≠ [] then .error .malformed
    else do
      validate message
      .ok message

/-- `read_frame`, with what the stream still holds. -/
def readFrame (input : List Bytes) : Except ProtocolError (Envelope × List Bytes) :=
  match readExactly 4 input with
  | none => .error .io
  | some (head, input) =>
    let len := (fromLeBytes head).toNat
    if len = 0 ∨ len > MAX_FRAME_BYTES then .error .oversized
    else
      match readExactly len input with
      | none => .error .io
      | some (bytes, input) => (readPayload p bytes).map fun message => (message, input)

/-- Envelopes written one after another on one stream. -/
def writeFrames : List Envelope → Bytes → Except ProtocolError Bytes
  | [], out => .ok out
  | message :: messages, out => do
    let out ← writeFrame p out message
    writeFrames messages out

/-- What some reads of a frame answer, up to the first error. -/
def readFrames : Nat → List Bytes → List (Except ProtocolError Envelope)
  | 0, _ => []
  | n + 1, input =>
    match readFrame p input with
    | .error error => [.error error]
    | .ok (message, input) => .ok message :: readFrames n input

end Streams

/-! ## §3 Bounded edits -/

theorem saturatingAdd_gt {a b : Nat} : saturatingAdd a b > MEMORY_LIMIT / 2 ↔
    a + b > MEMORY_LIMIT / 2 := by
  rw [saturatingAdd, gt_iff_lt, gt_iff_lt, Nat.lt_min]
  exact and_iff_left (by decide)

/-- The loop takes edits that fit behind those it has. -/
theorem visitElements_some {elements : List (Option TextEdit)} {edits result : List TextEdit}
    {bytes : Nat} (hlength : edits.length ≤ 4096) (hbytes : bytes ≤ MEMORY_LIMIT / 2) :
    visitElements elements edits bytes = some result ↔
      ∃ more : List TextEdit, elements = more.map some ∧ result = edits ++ more ∧
        edits.length + more.length ≤ 4096 ∧
        bytes + Postcard.replacementBytes more ≤ MEMORY_LIMIT / 2 := by
  fun_induction visitElements elements edits bytes with
  | case1 edits bytes =>
    constructor
    · rintro h
      exact ⟨[], rfl, by simpa using (Option.some.inj h).symm, hlength, hbytes⟩
    · rintro ⟨more, hmore, rfl, -⟩
      rw [List.map_eq_nil_iff.mp hmore.symm, List.append_nil]
  | case2 rest edits bytes =>
    refine ⟨fun h => (nomatch h), ?_⟩
    rintro ⟨_ | _, hmore, -⟩ <;> exact nomatch hmore
  | case3 edit rest edits bytes hmany =>
    refine ⟨fun h => (nomatch h), ?_⟩
    rintro ⟨_ | ⟨e, more⟩, hmore, -, hfit, -⟩
    · exact nomatch hmore
    · rw [List.length_cons] at hfit
      omega
  | case4 edit rest edits bytes hmany total hlarge =>
    refine ⟨fun h => (nomatch h), ?_⟩
    rintro ⟨_ | ⟨e, more⟩, hmore, -, -, hfit⟩
    · exact nomatch hmore
    · obtain ⟨he, -⟩ := List.cons.inj hmore
      obtain rfl := Option.some.inj he
      rw [Postcard.replacementBytes, List.map_cons, List.sum_cons] at hfit
      have := saturatingAdd_gt.mp hlarge
      omega
  | case5 edit rest edits bytes hmany total hfits ih =>
    have htotal : total = bytes + edit.replacement.length :=
      Nat.min_eq_left (Nat.le_of_lt (Nat.lt_of_le_of_lt
        (Nat.le_of_not_lt fun hgt => hfits (saturatingAdd_gt.mpr hgt)) (by decide)))
    rw [ih (by rw [List.length_append, List.length_singleton]; omega) (Nat.le_of_not_lt hfits)]
    constructor
    · rintro ⟨more, rfl, rfl, hcount, hsum⟩
      refine ⟨edit :: more, rfl, List.append_cons .. |>.symm, ?_, ?_⟩
      · rw [List.length_append, List.length_singleton] at hcount
        rw [List.length_cons]
        omega
      · rw [Postcard.replacementBytes, List.map_cons, List.sum_cons, ← Postcard.replacementBytes]
        omega
    · rintro ⟨_ | ⟨e, more⟩, hmore, rfl, hcount, hsum⟩
      · exact nomatch hmore
      · obtain ⟨he, rfl⟩ := List.cons.inj hmore
        obtain rfl := Option.some.inj he
        rw [Postcard.replacementBytes, List.map_cons, List.sum_cons,
          ← Postcard.replacementBytes] at hsum
        rw [List.length_cons] at hcount
        refine ⟨more, rfl, List.append_cons .., ?_, ?_⟩
        · rw [List.length_append, List.length_singleton]
          omega
        · omega

namespace Postcard

variable {p : Postcard} (hp : p.Lawful)
include hp

theorem edit_lawful : p.edit.Lawful := (hp.range.seq hp.string).map (fun _ => rfl) fun _ => rfl

theorem elements_append {edits : List TextEdit} (h : ∀ e ∈ edits, p.edit.holds e) (rest : Bytes) :
    p.elements edits.length (edits.flatMap p.edit.encode ++ rest) = (edits.map some, rest) := by
  induction edits with
  | nil => rfl
  | cons e edits ih =>
    obtain ⟨he, hedits⟩ := List.forall_mem_cons.mp h
    rw [List.length_cons, List.flatMap_cons, List.append_assoc, elements,
      (edit_lawful hp).take_encode he]
    dsimp only
    rw [ih hedits]
    rfl

theorem elements_some {n : Nat} {bytes rest : Bytes} {edits : List TextEdit}
    (h : p.elements n bytes = (edits.map some, rest)) :
    (∀ e ∈ edits, p.edit.holds e) ∧ edits.length = n ∧
      (edits.flatMap p.edit.encode).length + rest.length ≤ bytes.length := by
  induction n generalizing bytes edits with
  | zero =>
    obtain ⟨hnil, rfl⟩ := Prod.mk.inj h
    obtain rfl := List.map_eq_nil_iff.mp hnil.symm
    exact ⟨fun e he => (nomatch he), rfl, (Nat.zero_add _).le⟩
  | succ n ih =>
    rw [elements] at h
    cases htake : p.edit.take bytes with
    | none =>
      rw [htake] at h
      obtain ⟨hnone, -⟩ := Prod.mk.inj h
      cases edits <;> exact nomatch hnone
    | some taken =>
      obtain ⟨e, mid⟩ := taken
      rw [htake] at h
      obtain ⟨hcons, hrest⟩ := Prod.mk.inj h
      cases edits with
      | nil => exact nomatch hcons
      | cons e' edits =>
        obtain ⟨he, hedits⟩ := List.cons.inj hcons
        obtain rfl := Option.some.inj he
        obtain ⟨hholds, hlength, hle⟩ := ih (Prod.ext hedits hrest)
        have hfirst := (edit_lawful hp).length_le htake
        refine ⟨List.forall_mem_cons.mpr ⟨(edit_lawful hp).holds_of_take htake, hholds⟩,
          by rw [List.length_cons, hlength], ?_⟩
        rw [List.flatMap_cons, List.length_append]
        omega

/-- Replacements are part of what is written. -/
theorem replacementBytes_le (edits : List TextEdit) :
    replacementBytes edits ≤ (edits.flatMap p.edit.encode).length := by
  induction edits with
  | nil => exact Nat.le_refl 0
  | cons e edits ih =>
    have hstring := hp.string_length e.replacement
    have hedit : p.edit.encode e = p.range.encode e.range ++ p.string.encode e.replacement := rfl
    rw [replacementBytes, List.map_cons, List.sum_cons, ← replacementBytes, List.flatMap_cons,
      List.length_append, hedit, List.length_append]
    omega

theorem edits_take {bytes rest : Bytes} {edits : List TextEdit}
    (h : p.edits.take bytes = some (edits, rest)) :
    p.edits.holds edits ∧ (p.edits.encode edits).length + rest.length ≤ bytes.length := by
  obtain ⟨⟨length, mid⟩, hlength, h⟩ := Option.bind_eq_some_iff.mp h
  obtain ⟨edits', hvisit, hpair⟩ := Option.bind_eq_some_iff.mp h
  obtain ⟨rfl, hrest⟩ := Prod.mk.inj (Option.some.inj hpair)
  rw [visitSeq] at hvisit
  split_ifs at hvisit
  obtain ⟨more, helements, hedits, hcount, hsum⟩ :=
    (visitElements_some (Nat.zero_le _) (Nat.zero_le _)).mp hvisit
  obtain rfl : edits' = more := hedits
  obtain ⟨hholds, hmore, hle⟩ := elements_some hp (Prod.ext helements hrest)
  have hhead := hp.length.length_le hlength
  rw [List.length_nil, Nat.zero_add] at hcount
  rw [Nat.zero_add] at hsum
  refine ⟨⟨hholds, hcount, hsum⟩, ?_⟩
  show (p.length.encode edits'.length ++ edits'.flatMap p.edit.encode).length + _ ≤ _
  rw [List.length_append, hmore]
  omega

/-- More edits than the reader allows are refused. -/
theorem edits_take_many {edits : List TextEdit} (hedits : ∀ e ∈ edits, p.edit.holds e)
    (hmany : 4096 < edits.length) (hlength : edits.length < 2 ^ 64) (rest : Bytes) :
    p.edits.take (p.edits.encode edits ++ rest) = none := by
  show (p.length.take ((p.length.encode edits.length ++ edits.flatMap p.edit.encode) ++ rest)).bind
    _ = _
  rw [List.append_assoc, hp.length.take_encode (hp.length_holds hlength), Option.bind_some]
  dsimp only
  rw [elements_append hp hedits, Option.bind_eq_bind, Option.bind_eq_none_iff]
  intro edits' hvisit
  rw [visitSeq] at hvisit
  split_ifs at hvisit
  obtain ⟨more, hmore, -, hcount, -⟩ :=
    (visitElements_some (Nat.zero_le _) (Nat.zero_le _)).mp hvisit
  have hsame := congrArg List.length hmore
  rw [List.length_map, List.length_map] at hsame
  rw [List.length_nil] at hcount
  omega

theorem edits_lawful : p.edits.Lawful where
  take_encode := by
    rintro edits ⟨hedits, hcount, hsum⟩ rest
    have hvisit : visitSeq ⟨p.sizeHint edits.length (edits.flatMap p.edit.encode ++ rest),
        edits.map some⟩ = some edits := by
      rw [visitSeq, if_neg]
      · exact (visitElements_some (Nat.zero_le _) (Nat.zero_le _)).mpr
          ⟨edits, rfl, rfl, by simpa using hcount, by simpa using hsum⟩
      · rw [Option.any_eq_true]
        rintro ⟨k, hk, hlarge⟩
        rw [hp.sizeHint_eq hk] at hlarge
        exact absurd (of_decide_eq_true hlarge) (by omega)
    show (p.length.take ((p.length.encode edits.length ++ edits.flatMap p.edit.encode) ++ rest)).bind
      _ = _
    rw [List.append_assoc, hp.length.take_encode (hp.length_holds (by omega)), Option.bind_some]
    dsimp only
    rw [elements_append hp hedits, hvisit]
    rfl
  holds_of_take h := (edits_take hp h).1
  length_le h := (edits_take hp h).2

/-! ## §4 Envelopes -/

omit hp in
/-- The fields of one variant come back. -/
theorem fields_encode {α : Type} {c : Codec α} (hc : c.Lawful) {f : α → Request} {v : α}
    (hv : c.holds v) (rest : Bytes) :
    (c.take (c.encode v ++ rest)).map (Prod.map f id) = some (f v, rest) := by
  rw [hc.take_encode hv]
  rfl

/-- A variant in front of its fields. -/
theorem variant_encode (variant : Nat) (hvariant : variant < 2 ^ 32) {fields rest : Bytes}
    {r : Request} (h : p.takeFields variant (fields ++ rest) = some (r, rest)) :
    p.request.take ((p.variant.encode variant ++ fields) ++ rest) = some (r, rest) := by
  show (p.variant.take _).bind _ = _
  rw [List.append_assoc, hp.variant.take_encode (hp.variant_holds hvariant), Option.bind_some]
  exact h

omit hp in
/-- A request whose fields were read. -/
theorem fields_some {α : Type} {c : Codec α} {variant : Nat} {f : α → Request}
    {bytes rest : Bytes} {r : Request} (h : (c.take bytes).map (Prod.map f id) = some (r, rest))
    (hc : c.Lawful) (hholds : ∀ v, c.holds v → p.request.holds (f v))
    (hencode : ∀ v, p.request.encode (f v) = p.variant.encode variant ++ c.encode v) :
    p.request.holds r ∧ ∃ fields, p.request.encode r = p.variant.encode variant ++ fields ∧
      fields.length + rest.length ≤ bytes.length := by
  obtain ⟨⟨v, rest'⟩, hv, hpair⟩ := Option.map_eq_some_iff.mp h
  obtain ⟨rfl, rfl⟩ := Prod.mk.inj hpair
  exact ⟨hholds v (hc.holds_of_take hv), c.encode v, hencode v, hc.length_le hv⟩

theorem takeFields_some {variant : Nat} {bytes rest : Bytes} {r : Request}
    (h : p.takeFields variant bytes = some (r, rest)) :
    p.request.holds r ∧ ∃ fields, p.request.encode r = p.variant.encode variant ++ fields ∧
      fields.length + rest.length ≤ bytes.length := by
  have hdocument := hp.u64.seq (hp.u64.seq hp.range)
  unfold takeFields at h
  split at h
  · exact fields_some h hdocument (fun _ hv => hv) fun _ => rfl
  · exact fields_some h hdocument (fun _ hv => hv) fun _ => rfl
  · exact fields_some h (hp.u64.seq (hp.u64.seq (edits_lawful hp))) (fun _ hv => hv)
      fun _ => rfl
  · exact fields_some h (hp.u64.seq hp.u64) (fun _ hv => hv) fun _ => rfl
  · exact fields_some h (hp.u64.seq hp.bytes) (fun _ hv => hv) fun _ => rfl
  · exact fields_some h (hp.u64.seq hp.u64) (fun _ hv => hv) fun _ => rfl
  · exact fields_some h hp.u64 (fun _ hv => hv) fun _ => rfl
  · exact fields_some h hp.string (fun _ hv => hv) fun _ => rfl
  · exact fields_some h (hp.string.seq hp.string) (fun _ hv => hv) fun _ => rfl
  · exact nomatch h

theorem request_take {bytes rest : Bytes} {r : Request}
    (h : p.request.take bytes = some (r, rest)) :
    p.request.holds r ∧ (p.request.encode r).length + rest.length ≤ bytes.length := by
  obtain ⟨⟨variant, mid⟩, hvariant, hfields⟩ := Option.bind_eq_some_iff.mp h
  obtain ⟨hholds, fields, hencode, hle⟩ := takeFields_some hp hfields
  have hhead := hp.variant.length_le hvariant
  refine ⟨hholds, ?_⟩
  rw [hencode, List.length_append]
  omega

theorem request_lawful : p.request.Lawful where
  take_encode := by
    have hdocument := hp.u64.seq (hp.u64.seq hp.range)
    intro r hr rest
    cases r with
    | readTextRange document revision range =>
      exact variant_encode hp 0 (by decide) (fields_encode hdocument hr rest)
    | readOriginalBytes document generation range =>
      exact variant_encode hp 1 (by decide) (fields_encode hdocument hr rest)
    | applyEdits document revision edits =>
      exact variant_encode hp 2 (by decide)
        (fields_encode (hp.u64.seq (hp.u64.seq (edits_lawful hp))) hr rest)
    | beginEdits document revision =>
      exact variant_encode hp 3 (by decide) (fields_encode (hp.u64.seq hp.u64) hr rest)
    | appendChunk transaction chunk =>
      exact variant_encode hp 4 (by decide) (fields_encode (hp.u64.seq hp.bytes) hr rest)
    | commitEdits transaction revision =>
      exact variant_encode hp 5 (by decide) (fields_encode (hp.u64.seq hp.u64) hr rest)
    | cancel request => exact variant_encode hp 6 (by decide) (fields_encode hp.u64 hr rest)
    | invokeCommand command =>
      exact variant_encode hp 7 (by decide) (fields_encode hp.string hr rest)
    | panel panel text =>
      exact variant_encode hp 8 (by decide) (fields_encode (hp.string.seq hp.string) hr rest)
  holds_of_take h := (request_take hp h).1
  length_le h := (request_take hp h).2

theorem envelope_lawful : p.envelope.Lawful :=
  (hp.u16.seq (hp.u64.seq (hp.string.seq (hp.context.seq (request_lawful hp))))).map
    (fun _ => rfl) fun _ => rfl

end Postcard

/-! ## §5 Streams -/

/-- The edits a request carries. -/
def Request.edits : Request → List TextEdit
  | .applyEdits _ _ edits => edits
  | _ => []

/-- Every field of a request has its type; a list of edits may have any length. -/
def Postcard.RequestTyped (p : Postcard) : Request → Prop
  | .applyEdits document revision edits => p.u64.holds document ∧ p.u64.holds revision ∧
      edits.length < 2 ^ 64 ∧ ∀ e ∈ edits, p.edit.holds e
  | request => p.request.holds request

/-- Every field of an envelope has its type. -/
structure Postcard.Typed (p : Postcard) (m : Envelope) : Prop where
  protocol : p.u16.holds m.protocol
  requestId : p.u64.holds m.requestId
  extensionId : p.string.holds m.extensionId
  context : p.context.holds m.context
  request : p.RequestTyped m.request

variable {p : Postcard}

/-- Few edits are all that a reader asks beyond the types. -/
theorem Postcard.Typed.holds {m : Envelope} (h : p.Typed m)
    (hcount : m.request.edits.length ≤ 4096)
    (hbytes : Postcard.replacementBytes m.request.edits ≤ MEMORY_LIMIT / 2) :
    p.envelope.holds m := by
  obtain ⟨protocol, requestId, extensionId, context, request⟩ := m
  refine ⟨h.protocol, h.requestId, h.extensionId, h.context, ?_⟩
  cases request with
  | applyEdits document revision edits =>
    obtain ⟨hdocument, hrevision, -, hedits⟩ := h.request
    exact ⟨hdocument, hrevision, hedits, hcount, hbytes⟩
  | _ => exact h.request

/-- What a reader takes has few edits. -/
theorem Postcard.edits_length_of_holds {m : Envelope} (h : p.envelope.holds m) :
    m.request.edits.length ≤ 4096 := by
  obtain ⟨protocol, requestId, extensionId, context, request⟩ := m
  cases request with
  | applyEdits document revision edits => exact h.2.2.2.2.2.2.2.1
  | _ => exact Nat.zero_le _

/-- Replacements fit a frame. -/
theorem Postcard.Lawful.replacementBytes_le (hp : p.Lawful) (m : Envelope) :
    Postcard.replacementBytes m.request.edits ≤ (p.envelope.encode m).length := by
  obtain ⟨protocol, requestId, extensionId, context, request⟩ := m
  cases request with
  | applyEdits document revision edits =>
    have hedits := Postcard.replacementBytes_le hp edits
    show _ ≤ (p.u16.encode protocol ++ (p.u64.encode requestId ++ (p.string.encode extensionId ++
      (p.context.encode context ++ (p.variant.encode 2 ++ (p.u64.encode document ++
        (p.u64.encode revision ++ (p.length.encode edits.length ++
          edits.flatMap p.edit.encode)))))))).length
    simp only [List.length_append]
    exact hedits.trans (by omega)
  | _ => exact Nat.zero_le _

theorem Postcard.Lawful.envelope_ne_nil (hp : p.Lawful) (m : Envelope) :
    0 < (p.envelope.encode m).length := by
  have hhead := List.length_pos_iff.mpr (hp.u16_ne_nil m.protocol)
  show 0 < (p.u16.encode m.protocol ++ _).length
  rw [List.length_append]
  omega

/-- The frame of an envelope. -/
def Postcard.frame (p : Postcard) (m : Envelope) : Bytes :=
  toLeBytes (UInt32.ofNat (p.envelope.encode m).length) ++ p.envelope.encode m

theorem writeFrame_ok {out out' : Bytes} {m : Envelope} : writeFrame p out m = .ok out' ↔
    validate m = .ok () ∧ (p.envelope.encode m).length ≤ MAX_FRAME_BYTES ∧
      out' = out ++ p.frame m := by
  rw [writeFrame, bind_ok]
  constructor
  · rintro ⟨⟨⟩, hvalid, h⟩
    dsimp only at h
    split_ifs at h with hlarge
    exact ⟨hvalid, Nat.le_of_not_lt hlarge, (Except.ok.inj h).symm⟩
  · rintro ⟨hvalid, hle, rfl⟩
    exact ⟨(), hvalid, if_neg (Nat.not_lt.mpr hle)⟩

/-- A frame is read as it was written, however it comes in. -/
theorem readFrame_frame (hp : p.Lawful) {m : Envelope}
    (hle : (p.envelope.encode m).length ≤ MAX_FRAME_BYTES) {input : List Bytes} {stream : Bytes}
    (h : Pieces input (p.frame m ++ stream)) : ∃ rest, Pieces rest stream ∧
      readFrame p input = (readPayload p (p.envelope.encode m)).map fun m => (m, rest) := by
  have hpos := hp.envelope_ne_nil m
  have hlen : (fromLeBytes (toLeBytes (UInt32.ofNat (p.envelope.encode m).length))).toNat =
      (p.envelope.encode m).length := by
    rw [fromLeBytes_toLeBytes]
    exact UInt32.toNat_ofNat_of_lt' (Nat.lt_of_le_of_lt hle (by decide))
  rw [Postcard.frame, List.append_assoc] at h
  obtain ⟨input', hhead, hinput'⟩ := readExactly_append h
  obtain ⟨rest, hbody, hrest⟩ := readExactly_append hinput'
  rw [toLeBytes_length] at hhead
  refine ⟨rest, hrest, ?_⟩
  rw [readFrame, hhead]
  dsimp only
  rw [hlen, if_neg (by omega), hbody]

/-- An envelope that was read may be written. -/
theorem readPayload_ok (hp : p.Lawful) {bytes : Bytes} {m : Envelope}
    (h : readPayload p bytes = .ok m) :
    validate m = .ok () ∧ p.envelope.holds m ∧ (p.envelope.encode m).length ≤ bytes.length := by
  rw [readPayload] at h
  cases htake : p.envelope.take bytes with
  | none => rw [htake] at h; exact nomatch h
  | some taken =>
    obtain ⟨m', tail⟩ := taken
    rw [htake] at h
    dsimp only at h
    split_ifs at h
    obtain ⟨⟨⟩, hvalid, hok⟩ := bind_ok.mp h
    obtain rfl := Except.ok.inj hok
    have hle := (Postcard.envelope_lawful hp).length_le htake
    exact ⟨hvalid, (Postcard.envelope_lawful hp).holds_of_take htake, by omega⟩

/-- A payload with more edits than the reader allows is malformed. -/
theorem readPayload_many (hp : p.Lawful) {m : Envelope} (htyped : p.Typed m)
    (hmany : 4096 < m.request.edits.length) :
    readPayload p (p.envelope.encode m) = .error .malformed := by
  have htake : p.envelope.take (p.envelope.encode m) = none := by
    obtain ⟨protocol, requestId, extensionId, context, request⟩ := m
    cases request with
    | applyEdits document revision edits =>
      obtain ⟨hdocument, hrevision, hlength, hedits⟩ := htyped.request
      have hnone := Postcard.edits_take_many hp hedits hmany hlength []
      have hrequest : p.request.take (p.request.encode (.applyEdits document revision edits)) =
          none := by
        show (p.variant.take (p.variant.encode 2 ++ (p.u64.encode document ++
          (p.u64.encode revision ++ p.edits.encode edits)))).bind _ = none
        rw [hp.variant.take_encode (hp.variant_holds (by decide)), Option.bind_some]
        show ((p.u64.seq (p.u64.seq p.edits)).take _).map _ = none
        rw [hp.u64.seq_take_encode hdocument, hp.u64.seq_take_encode hrevision,
          ← List.append_nil (p.edits.encode edits), hnone]
        rfl
      show ((p.u16.seq (p.u64.seq (p.string.seq (p.context.seq p.request)))).take
        (p.u16.encode protocol ++ (p.u64.encode requestId ++ (p.string.encode extensionId ++
          (p.context.encode context ++ p.request.encode _))))).map _ = none
      rw [hp.u16.seq_take_encode htyped.protocol, hp.u64.seq_take_encode htyped.requestId,
        hp.string.seq_take_encode htyped.extensionId, hp.context.seq_take_encode htyped.context,
        hrequest]
      rfl
    | _ => exact absurd hmany (Nat.not_lt_zero _)
  rw [readPayload, htake]

/-- An envelope of its types is read back exactly when it has few edits. -/
theorem readPayload_encode (hp : p.Lawful) {m : Envelope} (htyped : p.Typed m)
    (hvalid : validate m = .ok ()) (hle : (p.envelope.encode m).length ≤ MAX_FRAME_BYTES) :
    readPayload p (p.envelope.encode m) = .ok m ↔ m.request.edits.length ≤ 4096 := by
  constructor
  · exact fun h => Postcard.edits_length_of_holds (readPayload_ok hp h).2.1
  · intro hcount
    have hbytes := (hp.replacementBytes_le m).trans
      (hle.trans (show MAX_FRAME_BYTES ≤ MEMORY_LIMIT / 2 by decide))
    have htake := (Postcard.envelope_lawful hp).take_encode (htyped.holds hcount hbytes) []
    rw [List.append_nil] at htake
    rw [readPayload, htake]
    dsimp only
    rw [if_neg (fun hne => hne rfl), hvalid]
    rfl

theorem readFrame_ok {input rest : List Bytes} {m : Envelope}
    (h : readFrame p input = .ok (m, rest)) :
    ∃ bytes, bytes.length ≤ MAX_FRAME_BYTES ∧ readPayload p bytes = .ok m := by
  rw [readFrame] at h
  cases hhead : readExactly 4 input with
  | none => rw [hhead] at h; exact nomatch h
  | some got =>
    rw [hhead] at h
    dsimp only at h
    split_ifs at h with hlen
    cases hbody : readExactly (fromLeBytes got.1).toNat got.2 with
    | none => rw [hbody] at h; exact nomatch h
    | some payload =>
      rw [hbody] at h
      dsimp only at h
      have hlength : payload.1.length = (fromLeBytes got.1).toNat := readExactly_length hbody
      refine ⟨payload.1, by omega, ?_⟩
      cases hread : readPayload p payload.1 with
      | error e => rw [hread] at h; exact nomatch h
      | ok m' =>
        rw [hread] at h
        exact congrArg Except.ok (Prod.mk.inj (Except.ok.inj h)).1

/-- The frames of one stream, read back. -/
theorem readFrames_iff (hp : p.Lawful) {ms : List Envelope} (htyped : ∀ m ∈ ms, p.Typed m)
    (hvalid : ∀ m ∈ ms, validate m = .ok ())
    (hle : ∀ m ∈ ms, (p.envelope.encode m).length ≤ MAX_FRAME_BYTES) {input : List Bytes}
    (h : Pieces input (ms.flatMap p.frame)) :
    readFrames p (ms.length + 1) input = ms.map .ok ++ [.error .io] ↔
      ∀ m ∈ ms, m.request.edits.length ≤ 4096 := by
  induction ms generalizing input with
  | nil =>
    have hend : readFrame p input = .error .io := by
      rw [readFrame, readExactly_short h (Nat.zero_lt_succ 3)]
    rw [List.length_nil, readFrames, hend]
    exact iff_of_true rfl fun _ hm => nomatch hm
  | cons m ms ih =>
    obtain ⟨htyped, htypeds⟩ := List.forall_mem_cons.mp htyped
    obtain ⟨hvalid, hvalids⟩ := List.forall_mem_cons.mp hvalid
    obtain ⟨hle, hles⟩ := List.forall_mem_cons.mp hle
    rw [List.flatMap_cons] at h
    obtain ⟨rest, hrest, hread⟩ := readFrame_frame hp hle h
    have hpayload := readPayload_encode hp htyped hvalid hle
    rw [List.length_cons, readFrames, hread, List.forall_mem_cons, ← hpayload,
      ← ih htypeds hvalids hles hrest]
    cases readPayload p (p.envelope.encode m) with
    | error e =>
      refine iff_of_false (fun heq => ?_) fun ⟨heq, _⟩ => nomatch heq
      exact nomatch (List.cons.inj heq).1
    | ok m' =>
      show Except.ok m' :: readFrames p (ms.length + 1) rest = _ ↔ _
      rw [List.map_cons, List.cons_append, List.cons.injEq]

theorem writeFrames_ok {ms : List Envelope} {out stream : Bytes}
    (h : writeFrames p ms out = .ok stream) :
    (∀ m ∈ ms, validate m = .ok ()) ∧
      (∀ m ∈ ms, (p.envelope.encode m).length ≤ MAX_FRAME_BYTES) ∧
      stream = out ++ ms.flatMap p.frame := by
  induction ms generalizing out with
  | nil =>
    obtain rfl := Except.ok.inj h
    exact ⟨fun _ hm => (nomatch hm), fun _ hm => (nomatch hm), (List.append_nil _).symm⟩
  | cons m ms ih =>
    rw [writeFrames, bind_ok] at h
    obtain ⟨mid, hm, hms⟩ := h
    obtain ⟨hvalid, hle, rfl⟩ := writeFrame_ok.mp hm
    obtain ⟨hvalids, hles, rfl⟩ := ih hms
    exact ⟨List.forall_mem_cons.mpr ⟨hvalid, hvalids⟩, List.forall_mem_cons.mpr ⟨hle, hles⟩,
      by rw [List.flatMap_cons, List.append_assoc]⟩

/-- Envelopes that are read may be written, and written envelopes are read back, the end of the
input behind them, exactly when none of them carries more than 4096 edits. -/
theorem written_frames_are_read (hp : p.Lawful) :
    (∀ input m rest out, readFrame p input = .ok (m, rest) →
      ∃ out', writeFrame p out m = .ok out') ∧
    ∀ ms stream, (∀ m ∈ ms, p.Typed m) → writeFrames p ms [] = .ok stream →
      ∀ input, Pieces input stream →
        (readFrames p (ms.length + 1) input = ms.map .ok ++ [.error .io] ↔
          ∀ m ∈ ms, m.request.edits.length ≤ 4096) := by
  constructor
  · intro input m rest out h
    obtain ⟨bytes, hle, hread⟩ := readFrame_ok h
    obtain ⟨hvalid, -, hlength⟩ := readPayload_ok hp hread
    exact ⟨_, writeFrame_ok.mpr ⟨hvalid, hlength.trans hle, rfl⟩⟩
  · intro ms stream htyped hwrite input hinput
    obtain ⟨hvalid, hle, rfl⟩ := writeFrames_ok hwrite
    exact readFrames_iff hp htyped hvalid hle hinput

/-! ## §6 A wire -/

/-- Contexts that edit a document; the wire carries no others. -/
def documentEdits : Codec CapabilityContext where
  holds c := c.capability = .documentEdit ∧ ∃ document, c.scope = .document document ∧
    document < 2 ^ 64 ∧ c.grantGeneration < 2 ^ 64
  encode
    | ⟨_, .document document, generation⟩ =>
      1 :: 0 :: ((Codec.varint (2 ^ 64)).seq (.varint (2 ^ 64))).encode (document, generation)
    | _ => []
  take
    | 1 :: 0 :: bytes => (((Codec.varint (2 ^ 64)).seq (.varint (2 ^ 64))).take bytes).map
        (Prod.map (fun v => ⟨.documentEdit, .document v.1, v.2⟩) id)
    | _ => none

theorem documentEdits_lawful : documentEdits.Lawful := by
  have hpair := (Codec.varint_lawful (2 ^ 64)).seq (Codec.varint_lawful (2 ^ 64))
  have htake : ∀ {bytes rest : Bytes} {c : CapabilityContext},
      documentEdits.take bytes = some (c, rest) → documentEdits.holds c ∧
        (documentEdits.encode c).length + rest.length ≤ bytes.length := by
    intro bytes rest c h
    unfold documentEdits at h
    dsimp only at h
    split at h
    · obtain ⟨⟨v, rest'⟩, hv, heq⟩ := Option.map_eq_some_iff.mp h
      obtain ⟨rfl, rfl⟩ := Prod.mk.inj heq
      obtain ⟨hdocument, hgeneration⟩ := hpair.holds_of_take hv
      have hle := hpair.length_le hv
      refine ⟨⟨rfl, v.1, rfl, hdocument, hgeneration⟩, ?_⟩
      show (_ :: _ :: ((Codec.varint (2 ^ 64)).seq (.varint (2 ^ 64))).encode v).length +
        rest'.length ≤ _
      rw [List.length_cons, List.length_cons, List.length_cons, List.length_cons]
      omega
    · exact nomatch h
  refine ⟨?_, fun h => (htake h).1, fun h => (htake h).2⟩
  rintro ⟨capability, scope, generation⟩ ⟨rfl, document, rfl, hholds⟩ rest
  show (((Codec.varint (2 ^ 64)).seq (.varint (2 ^ 64))).take
    (((Codec.varint (2 ^ 64)).seq (.varint (2 ^ 64))).encode (document, generation) ++ rest)).map
      _ = _
  rw [hpair.take_encode (a := (document, generation)) hholds]
  rfl

/-- `postcard` with its numbers in groups of seven bits, for texts in ASCII. -/
def wire : Postcard where
  u16 := .varint (2 ^ 16)
  u64 := .varint (2 ^ 64)
  string := .counted (.varint (2 ^ 64)) fun s => s.all (· < 128)
  bytes := .counted (.varint (2 ^ 64)) fun _ => true
  variant := .varint (2 ^ 32)
  length := .varint (2 ^ 64)
  range := ((Codec.varint (2 ^ 64)).seq (.varint (2 ^ 64))).map (fun v => ⟨v.1, v.2⟩)
    fun r => (r.start, r.stop)
  context := documentEdits
  sizeHint n bytes := if bytes.length < n then none else some n

theorem wire_lawful : wire.Lawful where
  u16 := Codec.varint_lawful _
  u64 := Codec.varint_lawful _
  string := Codec.counted_lawful (Codec.varint_lawful _) _
  bytes := Codec.counted_lawful (Codec.varint_lawful _) _
  variant := Codec.varint_lawful _
  length := Codec.varint_lawful _
  range := ((Codec.varint_lawful (2 ^ 64)).seq (Codec.varint_lawful (2 ^ 64))).map
    (f := fun v => Range.mk v.1 v.2) (g := fun r : Range => (r.start, r.stop)) (fun _ => rfl)
      fun _ => rfl
  context := documentEdits_lawful
  u16_ne_nil n := by
    show Codec.encodeVarint n ≠ []
    rw [Codec.encodeVarint]
    split_ifs <;> exact List.cons_ne_nil _ _
  string_length s := by
    show s.length ≤ (Codec.encodeVarint s.length ++ s).length
    rw [List.length_append]
    exact Nat.le_add_left ..
  variant_holds h := h
  length_holds h := h
  sizeHint_eq := by
    intro n k bytes h
    obtain ⟨-, hsome⟩ := Option.ite_none_left_eq_some.mp h
    exact (Option.some.inj hsome).symm

/-- A request of empty insertions at the start of a document. -/
def emptyEdits (n : Nat) : Envelope :=
  ⟨1, 7, [102], ⟨.documentEdit, .document 3, 1⟩, .applyEdits 3 4 (List.replicate n ⟨⟨0, 0⟩, []⟩)⟩

theorem emptyEdits_typed {n : Nat} (hn : n ≤ 4097) : wire.Typed (emptyEdits n) := by
  have hshort : (List.replicate n (⟨⟨0, 0⟩, []⟩ : TextEdit)).length < 2 ^ 64 := by
    rw [List.length_replicate]
    omega
  refine ⟨show 1 < 2 ^ 16 by decide, show 7 < 2 ^ 64 by decide,
    ⟨show 1 < 2 ^ 64 by decide, rfl⟩, ⟨rfl, 3, rfl, by decide, show 1 < 2 ^ 64 by decide⟩,
    show 3 < 2 ^ 64 by decide, show 4 < 2 ^ 64 by decide, hshort, ?_⟩
  intro e he
  obtain rfl := List.eq_of_mem_replicate he
  exact ⟨⟨show 0 < 2 ^ 64 by decide, show 0 < 2 ^ 64 by decide⟩, show 0 < 2 ^ 64 by decide, rfl⟩

theorem emptyEdits_written {n : Nat} (hn : n ≤ 4097) (ms : List Envelope) (out : Bytes) :
    writeFrames wire (emptyEdits n :: ms) out =
      writeFrames wire ms (out ++ wire.frame (emptyEdits n)) := by
  have hedits : ((List.replicate n (⟨⟨0, 0⟩, []⟩ : TextEdit)).flatMap wire.edit.encode).length =
      n * 3 := by
    have hedit : wire.edit.encode ⟨⟨0, 0⟩, []⟩ = [0, 0, 0] := by
      show (Codec.encodeVarint 0 ++ Codec.encodeVarint 0) ++ (Codec.encodeVarint 0 ++ []) = _
      rw [Codec.encodeVarint, if_pos (by decide)]
      rfl
    rw [List.length_flatMap, List.map_replicate, List.sum_replicate_nat, hedit]
    rfl
  have hlength : (wire.envelope.encode (emptyEdits n)).length ≤ MAX_FRAME_BYTES := by
    have hvarint := Codec.encodeVarint_length_le
    have h0 := hvarint 1
    have h1 := hvarint 7
    have h2 := hvarint 3
    have h3 := hvarint 4
    have h4 := hvarint 2
    have hn' := hvarint (List.replicate n (⟨⟨0, 0⟩, []⟩ : TextEdit)).length
    show (Codec.encodeVarint 1 ++ (Codec.encodeVarint 7 ++ ((Codec.encodeVarint 1 ++ [102]) ++
      ((1 :: 0 :: (Codec.encodeVarint 3 ++ Codec.encodeVarint 1)) ++ (Codec.encodeVarint 2 ++
        (Codec.encodeVarint 3 ++ (Codec.encodeVarint 4 ++ (Codec.encodeVarint _ ++ _)))))))).length ≤ _
    simp only [List.length_append, List.length_cons, List.length_nil, hedits]
    rw [List.length_replicate] at hn' ⊢
    rw [MAX_FRAME_BYTES]
    omega
  have hframe : writeFrame wire out (emptyEdits n) = .ok (out ++ wire.frame (emptyEdits n)) :=
    writeFrame_ok.mpr ⟨rfl, hlength, rfl⟩
  rw [writeFrames, hframe]
  rfl

/-- A frame is no piece without bytes. -/
theorem frame_pieces (m : Envelope) : Pieces [p.frame m] (p.frame m) := by
  refine ⟨List.append_nil _, List.forall_mem_singleton.mpr fun hnil => ?_⟩
  exact absurd (List.append_eq_nil_iff.mp hnil).1 (List.cons_ne_nil _ _)

/-- Two requests are read back, the length of the first cut in two. -/
theorem split_frames_read :
    readFrames wire 3 [(wire.frame (emptyEdits 1)).take 3,
      (wire.frame (emptyEdits 1)).drop 3 ++ wire.frame (emptyEdits 4096)] =
        [.ok (emptyEdits 1), .ok (emptyEdits 4096), .error .io] := by
  have htyped : ∀ m ∈ [emptyEdits 1, emptyEdits 4096], wire.Typed m :=
    List.forall_mem_cons.mpr ⟨emptyEdits_typed (by decide),
      List.forall_mem_singleton.mpr (emptyEdits_typed (by decide))⟩
  have hwritten : writeFrames wire [emptyEdits 1, emptyEdits 4096] [] =
      .ok (wire.frame (emptyEdits 1) ++ wire.frame (emptyEdits 4096)) := by
    rw [emptyEdits_written (by decide), emptyEdits_written (by decide), writeFrames,
      List.nil_append]
  refine ((written_frames_are_read wire_lawful).2 _ _ htyped hwritten _ ⟨?_, ?_⟩).mpr ?_
  · rw [List.flatten_cons, List.flatten_singleton, ← List.append_assoc, List.take_append_drop]
  · exact List.forall_mem_cons.mpr ⟨List.cons_ne_nil _ _,
      List.forall_mem_singleton.mpr (List.cons_ne_nil _ _)⟩
  · refine List.forall_mem_cons.mpr ⟨show 1 ≤ 4096 by decide, List.forall_mem_singleton.mpr ?_⟩
    exact List.length_replicate.le

/-- A request of 4097 edits is written, and what was written is refused. -/
theorem many_edits_refused : wire.Lawful ∧ wire.Typed (emptyEdits 4097) ∧
    writeFrames wire [emptyEdits 4097] [] = .ok (wire.frame (emptyEdits 4097)) ∧
    readFrames wire 2 [wire.frame (emptyEdits 4097)] = [.error .malformed] := by
  have htyped := emptyEdits_typed (Nat.le_refl 4097)
  have hwritten : writeFrames wire [emptyEdits 4097] [] = .ok (wire.frame (emptyEdits 4097)) := by
    rw [emptyEdits_written (Nat.le_refl 4097), writeFrames, List.nil_append]
  obtain ⟨-, hle, -⟩ := writeFrames_ok hwritten
  have hpieces : Pieces [wire.frame (emptyEdits 4097)] (wire.frame (emptyEdits 4097) ++ []) :=
    (List.append_nil (wire.frame _)).symm ▸ frame_pieces _
  obtain ⟨rest, -, hread⟩ := readFrame_frame wire_lawful (hle _ (List.mem_singleton_self _)) hpieces
  have hmany : 4096 < (emptyEdits 4097).request.edits.length := by
    show 4096 < (List.replicate 4097 _).length
    rw [List.length_replicate]
    decide
  rw [readPayload_many wire_lawful htyped hmany] at hread
  refine ⟨wire_lawful, htyped, hwritten, ?_⟩
  rw [readFrames, hread]
  rfl

end BareLine.Extensions
