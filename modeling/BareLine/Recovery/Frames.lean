import BareLine.Recovery.Journal

/-!
# Reading frames back

What the scanning loop makes of journal bytes: records that pass its checks one behind the
other are read back from their frames, and a frame cut short is read as nothing at all.
-/

namespace BareLine

open Lib

/-! ## §1 Frames -/

/-- `u32` bytes read back what was written. -/
theorem fromLeBytes_toLeBytes (n : UInt32) : fromLeBytes (toLeBytes n) = n := by
  have hn : n.toNat < 4294967296 := n.toNat_lt
  apply UInt32.toNat_inj.mp
  simp only [toLeBytes, List.map_cons, List.map_nil, fromLeBytes, UInt8.toNat_ofNat',
    UInt32.toNat_ofNat']
  omega

@[simp] theorem toLeBytes_length (n : UInt32) : (toLeBytes n).length = 4 := rfl

@[simp] theorem frame_length (format : Format) (bytes : Bytes) :
    (frame format bytes).length = 8 + bytes.length := by
  rw [frame, List.append_assoc, List.length_append, List.length_append, toLeBytes_length,
    toLeBytes_length, ← Nat.add_assoc]

@[simp] theorem frames_nil (format : Format) : frames format [] = [] := rfl

@[simp] theorem frames_cons (format : Format) (record : Record) (rest : List Record) :
    frames format (record :: rest) = frame format (format.encode record) ++ frames format rest :=
  rfl

theorem frames_append (format : Format) (front back : List Record) :
    frames format (front ++ back) = frames format front ++ frames format back :=
  List.flatMap_append

/-- The length field of a frame, wherever enough of the frame is left to read it. -/
theorem frame_len {format : Format} {bytes tail rest : Bytes}
    (hle : bytes.length ≤ MAX_RECORD) (hfour : 4 ≤ tail.length)
    (htail : tail <+: frame format bytes ++ rest) :
    (fromLeBytes (tail.take 4)).toNat = bytes.length := by
  obtain ⟨more, hmore⟩ := htail
  have htake : tail.take 4 = toLeBytes (UInt32.ofNat bytes.length) := by
    have h := congrArg (List.take 4) hmore
    rw [List.take_append_of_le_length hfour, frame, List.append_assoc, List.append_assoc,
      List.take_append_of_le_length (Nat.le_refl 4)] at h
    rw [h]
    rfl
  have hsmall : bytes.length < 2 ^ 32 := Nat.lt_of_le_of_lt hle (by decide)
  rw [htake, fromLeBytes_toLeBytes, UInt32.toNat_ofNat', Nat.mod_eq_of_lt hsmall]

/-- Journal bytes behind the last whole frame: nothing, or the front of one more frame. -/
def Torn (format : Format) (tail : Bytes) : Prop :=
  ∃ bytes, bytes.length ≤ MAX_RECORD ∧ tail <+: frame format bytes ∧
    tail.length < 8 + bytes.length

theorem Torn.nil (format : Format) : Torn format [] :=
  ⟨[], Nat.zero_le _, List.nil_prefix, Nat.succ_pos _⟩

/-- No whole frame starts a torn tail. -/
theorem Torn.not_frame {format : Format} {tail bytes rest : Bytes} (h : Torn format tail)
    (hle : bytes.length ≤ MAX_RECORD) : tail ≠ frame format bytes ++ rest := by
  intro htail
  obtain ⟨own, hown, hpre, hlt⟩ := h
  have hlong : 8 + bytes.length ≤ tail.length := by
    rw [htail, List.length_append, frame_length]
    exact Nat.le_add_right _ _
  -- Both frames would announce their length in the same four bytes.
  have hfour : 4 ≤ tail.length := by omega
  have hfirst := frame_len hown hfour (hpre.trans (List.prefix_append _ []))
  have hsecond := frame_len hle hfour
    (show tail <+: frame format bytes ++ rest from htail ▸ List.prefix_refl _)
  omega

/-- Any front part of a sequence of frames is the frames of the first records and a torn
tail, and keeps every run of frames it is long enough for. -/
theorem frames_take {format : Format} {records : List Record}
    (hle : ∀ record ∈ records, (format.encode record).length ≤ MAX_RECORD) (n : Nat) :
    ∃ whole tail, whole <+: records ∧
      (frames format records).take n = frames format whole ++ tail ∧ Torn format tail ∧
      ∀ front, front <+: records → (frames format front).length ≤ n → front <+: whole := by
  induction records generalizing n with
  | nil =>
    refine ⟨[], [], List.nil_prefix, by simp, Torn.nil format, ?_⟩
    intro front hfront _
    exact hfront
  | cons record rest ih =>
    rcases Nat.lt_or_ge n (8 + (format.encode record).length) with hcut | hfit
    · refine ⟨[], (frame format (format.encode record)).take n, List.nil_prefix, ?_, ?_, ?_⟩
      · rw [frames_cons, List.take_append_of_le_length (by rw [frame_length]; omega)]
        rfl
      · refine ⟨format.encode record, hle record List.mem_cons_self, List.take_prefix _ _, ?_⟩
        rw [List.length_take, frame_length]
        omega
      · intro front hfront hlen
        cases front with
        | nil => exact List.nil_prefix
        | cons r front =>
          obtain ⟨rfl, -⟩ := List.cons_prefix_cons.mp hfront
          rw [frames_cons, List.length_append, frame_length] at hlen
          omega
    · obtain ⟨whole, tail, hwhole, htake, htorn, hmost⟩ :=
        ih (fun r hr => hle r (List.mem_cons_of_mem _ hr))
          (n - (8 + (format.encode record).length))
      refine ⟨record :: whole, tail, List.cons_prefix_cons.mpr ⟨rfl, hwhole⟩, ?_, htorn, ?_⟩
      · rw [frames_cons, List.take_append, List.take_of_length_le (by rw [frame_length]; exact hfit),
          frame_length, htake, frames_cons, List.append_assoc]
      · intro front hfront hlen
        cases front with
        | nil => exact List.nil_prefix
        | cons r front =>
          obtain ⟨rfl, hfront'⟩ := List.cons_prefix_cons.mp hfront
          rw [frames_cons, List.length_append, frame_length] at hlen
          exact List.cons_prefix_cons.mpr ⟨rfl, hmost front hfront' (by omega)⟩

/-! ## §2 Accepted records -/

/-- The checks of the scanning loop for one record behind `before`, which leaves a document
of length `len`; the record leaves one of length `len'`. -/
structure Accepts (format : Format) (files : Files) (before : List Record) (len : Nat)
    (record : Record) (len' : Nat) : Prop where
  room : before.length < MAX_RECORDS
  size : (format.encode record).length ≤ MAX_RECORD
  checks : recordRejected format files before.getLast? record = false
  edited : editedLen len record.edits = .ok len'

/-- Records that the scanning loop takes one after the other behind `before`. -/
inductive Accepted (format : Format) (files : Files) :
    List Record → Nat → List Record → Nat → Prop where
  | nil {before : List Record} {len : Nat} : Accepted format files before len [] len
  | cons {before rest : List Record} {record : Record} {len mid last : Nat} :
      Accepts format files before len record mid →
      Accepted format files (before ++ [record]) mid rest last →
      Accepted format files before len (record :: rest) last

variable {format : Format} {files files' : Files} {before rest records : List Record}
  {record : Record} {len mid last : Nat}

theorem Accepted.snoc (h : Accepted format files before len rest mid)
    (hrecord : Accepts format files (before ++ rest) mid record last) :
    Accepted format files before len (rest ++ [record]) last := by
  induction h with
  | nil =>
    rw [List.append_nil] at hrecord
    exact .cons hrecord .nil
  | cons hfirst _ ih =>
    rw [List.append_cons] at hrecord
    exact .cons hfirst (ih hrecord)

/-- The first records of an accepted journal are accepted. -/
theorem Accepted.of_prefix (h : Accepted format files before len rest last)
    (hfront : records <+: rest) : ∃ last', Accepted format files before len records last' := by
  induction h generalizing records with
  | nil =>
    rw [List.prefix_nil.mp hfront]
    exact ⟨_, .nil⟩
  | cons hfirst _ ih =>
    cases records with
    | nil => exact ⟨_, .nil⟩
    | cons r records =>
      obtain ⟨rfl, hfront'⟩ := List.cons_prefix_cons.mp hfront
      obtain ⟨last', h'⟩ := ih hfront'
      exact ⟨last', .cons hfirst h'⟩

theorem Accepted.accepts (h : Accepted format files before len rest last)
    (hmem : record ∈ rest) :
    ∃ before len len', Accepts format files before len record len' := by
  induction h with
  | nil => cases hmem
  | cons hfirst _ ih =>
    rcases List.mem_cons.mp hmem with rfl | hmem
    · exact ⟨_, _, _, hfirst⟩
    · exact ih hmem

/-! What a directory only gains cannot turn a record away. -/

/-- Every file of one directory is in the other, unchanged. -/
def Files.Extends (files files' : Files) : Prop :=
  ∀ name bytes, files name = some bytes → files' name = some bytes

theorem Files.Extends.refl (files : Files) : files.Extends files := fun _ _ h => h

@[simp] theorem Files.write_self (name : String) (bytes : Bytes) :
    files.write name bytes name = some bytes := if_pos rfl

theorem Files.write_ne {name other : String} (bytes : Bytes) (h : other ≠ name) :
    files.write name bytes other = files other := if_neg h

/-- A file with a new name. -/
theorem Files.extends_write {name : String} (bytes : Bytes) (hnew : files name = none) :
    files.Extends (files.write name bytes) := by
  intro other content hother
  rw [Files.write_ne]
  · exact hother
  · rintro rfl
    rw [hnew] at hother
    cases hother

theorem verifyBlob_ok {blob : Blob} :
    (verifyBlob format files blob).toBool = true ↔
      ∃ bytes, files blob.name = some bytes ∧ bytes.length = blob.len ∧
        format.sha256 bytes = blob.sha256 := by
  rw [verifyBlob, Files.openFile]
  cases hfile : files blob.name with
  | none => simp [Except.toBool, bind, Except.bind]
  | some bytes =>
    simp only [Option.some.injEq, exists_eq_left', bind, Except.bind]
    by_cases hlen : bytes.length = blob.len
    · by_cases hhash : format.sha256 bytes = blob.sha256
      · simp [hlen, hhash, Except.toBool]
      · simp [hlen, hhash, Except.toBool]
    · simp [hlen, Except.toBool]

theorem recordRejected_mono {last : Option Record} (h : files.Extends files')
    (hok : recordRejected format files last record = false) :
    recordRejected format files' last record = false := by
  rw [recordRejected, Bool.or_eq_false_iff] at hok ⊢
  refine ⟨hok.1, ?_⟩
  rw [Bool.not_eq_false', verifyBlob_ok] at hok ⊢
  obtain ⟨bytes, hfile, hlen, hhash⟩ := hok.2
  exact ⟨bytes, h _ _ hfile, hlen, hhash⟩

theorem Accepts.mono (hfiles : files.Extends files')
    (h : Accepts format files before len record mid) :
    Accepts format files' before len record mid :=
  { h with checks := recordRejected_mono hfiles h.checks }

theorem Accepted.mono (hfiles : files.Extends files')
    (h : Accepted format files before len rest last) :
    Accepted format files' before len rest last := by
  induction h with
  | nil => exact .nil
  | cons hfirst _ ih => exact .cons (hfirst.mono hfiles) ih

/-- The segment of an accepted record is there, with the length the record says. -/
theorem Accepts.segment (h : Accepts format files before len record mid) :
    ∃ bytes, files record.segment.name = some bytes ∧ bytes.length = record.segment.len := by
  have hchecks := h.checks
  rw [recordRejected, Bool.or_eq_false_iff, Bool.not_eq_false', verifyBlob_ok] at hchecks
  obtain ⟨bytes, hfile, hlen, -⟩ := hchecks.2
  exact ⟨bytes, hfile, hlen⟩

/-- Revisions grow along the journal. -/
theorem Accepts.revision (h : Accepts format files before len record mid) {r : Record}
    (hr : before.getLast? = some r) : r.receipt.revision < record.receipt.revision := by
  have hchecks := h.checks
  rw [recordRejected, Bool.or_eq_false_iff, Bool.or_eq_false_iff, hr] at hchecks
  have hlast := hchecks.1.2
  rw [Option.any_some, decide_eq_false_iff_not] at hlast
  omega

/-- The last record has the highest revision. -/
theorem Accepted.revision_le_last (h : Accepted format files before len rest last)
    (hbefore : ∀ r ∈ before, ∀ l ∈ before.getLast?, r.receipt.revision ≤ l.receipt.revision) :
    ∀ r ∈ before ++ rest, ∀ l ∈ (before ++ rest).getLast?,
      r.receipt.revision ≤ l.receipt.revision := by
  induction h with
  | nil =>
    rw [List.append_nil]
    exact hbefore
  | @cons before rest record len mid last hfirst _ ih =>
    rw [List.append_cons]
    apply ih
    intro r hr l hl
    rw [List.getLast?_concat, Option.mem_some_iff] at hl
    subst hl
    rcases List.mem_append.mp hr with hr | hr
    · -- An earlier record: below the old last one, which is below the new one.
      cases hlast : before.getLast? with
      | none =>
        rw [List.getLast?_eq_none_iff] at hlast
        rw [hlast] at hr
        cases hr
      | some l =>
        have hold := hbefore r hr l hlast
        have hnew := hfirst.revision hlast
        omega
    · exact Nat.le_of_eq (congrArg (·.receipt.revision) (List.mem_singleton.mp hr))

/-! ## §3 The scanning loop -/

/-- A record's own frame is read back. -/
theorem nextRecord_frame (hformat : format.RoundTrip)
    (h : Accepts format files before len record mid) (tail : Bytes) :
    nextRecord format files before len (frame format (format.encode record) ++ tail) =
      some (record, mid, tail) := by
  generalize hbytes : format.encode record = bytes
  have hsize : bytes.length ≤ MAX_RECORD := hbytes ▸ h.size
  have hpos : 0 < bytes.length :=
    List.length_pos_iff.mpr (hbytes ▸ hformat.encode_ne_nil record)
  have hlen := frame_len hsize (by rw [List.length_append, frame_length]; omega)
    (List.prefix_refl (frame format bytes ++ tail))
  have hcrc : ((frame format bytes ++ tail).drop 4).take 4 = toLeBytes (format.crc32c bytes) := by
    rw [frame, List.append_assoc, List.append_assoc, List.drop_left' (toLeBytes_length _),
      List.take_left' (toLeBytes_length _)]
  have hbody : ((frame format bytes ++ tail).drop 8).take bytes.length = bytes := by
    rw [frame, List.append_assoc, List.drop_left' (by simp), List.take_left' rfl]
  have hrest : (frame format bytes ++ tail).drop (8 + bytes.length) = tail :=
    List.drop_left' (frame_length format bytes)
  have hroom := h.room
  rw [nextRecord, if_neg (by rw [List.length_append, frame_length]; omega)]
  simp only [hlen]
  rw [if_neg (by omega), hbody, hcrc, fromLeBytes_toLeBytes,
    if_neg (by rw [List.length_append, frame_length]; simp)]
  rw [← hbytes, hformat.decode_encode]
  simp only [Option.bind_eq_bind, Option.bind_some, h.checks, h.edited, Bool.false_eq_true,
    if_false]
  rw [hbytes, hrest]

theorem nextRecord_torn {tail : Bytes} (h : Torn format tail) :
    nextRecord format files before len tail = none := by
  obtain ⟨bytes, hsize, hpre, hlt⟩ := h
  rw [nextRecord]
  split
  · rfl
  · next hlong =>
    have hlen := frame_len hsize (by omega) (hpre.trans (List.prefix_append _ []))
    simp only [hlen]
    split
    · rfl
    · rw [if_pos (Or.inl (by omega))]

/-- The loop reads the frames of accepted records, and calls what follows them corrupt if
there is anything. -/
theorem scanFrom_frames (hformat : format.RoundTrip)
    (h : Accepted format files before len rest last) {tail : Bytes} (htail : Torn format tail) :
    scanFrom format files before len (frames format rest ++ tail) =
      (before ++ rest, decide (tail ≠ [])) := by
  induction h with
  | nil =>
    rw [scanFrom, frames_nil, List.nil_append, List.append_nil]
    split
    · next hnil => simp [hnil]
    · next hne =>
      split
      · simp [hne]
      · next hsome =>
        rw [nextRecord_torn htail] at hsome
        cases hsome
  | @cons before rest record len mid last hfirst _ ih =>
    have hnext := nextRecord_frame hformat hfirst (frames format rest ++ tail)
    rw [scanFrom, frames_cons, List.append_assoc, if_neg (by
      intro hnil
      have := congrArg List.length hnil
      simp only [List.length_append, frame_length, List.length_nil] at this
      omega)]
    split
    · next hnone =>
      rw [hnext] at hnone
      cases hnone
    · next hsome =>
      rw [hnext] at hsome
      cases hsome
      rw [ih, List.append_assoc]
      rfl

end BareLine
