import BareLine.Recovery.IntervalSplice

/-!
# Replaying a journal over its baseline

`Replay::build` checks each record's inverse bytes against the interval map, then splices
the map; `write_to` streams the document the map spells.
-/

namespace BareLine

open Lib

/-! ## §1 The code -/

/-- `CHUNK` -/
def CHUNK : Nat := 64 * 1024

/-- The file a span of the map reads. -/
def originFile (files : Files) (records : List Record) : Origin → Except IoError Bytes
  | .baseline => files.openFile "baseline.bin"
  | .segment index =>
    match records[index]? with
    | none => .error (invalid "recovery span outside prefix")
    | some record => files.openFile record.segment.name

/-- `Replay::read_origin` -/
def readOrigin (files : Files) (records : List Record) (origin : Origin) (offset len : Nat) :
    Except IoError Bytes := do
  let file ← originFile files records origin
  readExact file offset len

/-- The chunk loop of `compare` over one piece; the position in the segment behind it. -/
def comparePiece (files : Files) (records : List Record) (segment : Bytes)
    (piece : Origin × Nat × Nat) (done position : Nat) : Except IoError Nat :=
  if _h : done < piece.2.2 then
    let n := min (piece.2.2 - done) CHUNK
    match readOrigin files records piece.1 (piece.2.1 + done) n, readExact segment position n with
    | .error error, _ => .error error
    | .ok _, .error error => .error error
    | .ok actual, .ok expected =>
      if actual ≠ expected then .error (invalid "recovery inverse does not match baseline")
      else comparePiece files records segment piece (done + n) (position + n)
  else .ok position
termination_by piece.2.2 - done
decreasing_by
  have : 0 < CHUNK := by decide
  omega

def comparePieces (files : Files) (records : List Record) (segment : Bytes) :
    List (Origin × Nat × Nat) → Nat → Except IoError Nat
  | [], position => .ok position
  | piece :: rest, position => do
    let position ← comparePiece files records segment piece 0 position
    comparePieces files records segment rest position

/-- An edit of a checked record: its range, and its inserted bytes in the segment. -/
structure PlacedEdit where
  offset : Nat
  removed : Nat
  insertedAt : Nat
  inserted : Nat
  deriving DecidableEq, Repr

namespace Replay

variable (files : Files) (records : List Record)

/-- `Replay::compare` -/
def compare (r : Replay) (segment : Bytes) (offset len position : Nat) : Except IoError Unit :=
  if len = 0 then .ok ()
  else do
    let pieces ← r.pieces offset len
    let _ ← comparePieces files records segment pieces position
    .ok ()

/-- The first loop of `apply`: the placed edits, and the segment position behind them. -/
def checkEdits (r : Replay) (segment : Bytes) :
    Nat → Nat → List EditRef → Except IoError (List PlacedEdit × Nat)
  | position, _, [] => .ok ([], position)
  | position, previousEnd, edit :: rest =>
    match endWithin edit.offset edit.removed r.len with
    | none => .error (invalid "recovery edit outside source")
    | some stop =>
      if edit.offset < previousEnd then .error (invalid "overlapping recovery edits")
      else do
        -- Check inverse bytes as well as segment hashes: the wrong baseline fails closed.
        r.compare files records segment edit.offset edit.removed position
        match checkedAdd position edit.removed with
        | none => .error (invalid "recovery segment overflow")
        | some insertedAt =>
          match checkedAdd insertedAt edit.inserted with
          | none => .error (invalid "recovery segment overflow")
          | some next =>
            let (placed, final) ← checkEdits r segment next stop rest
            .ok (⟨edit.offset, edit.removed, insertedAt, edit.inserted⟩ :: placed, final)

/-- The second loop of `apply`, over the placed edits from the right. -/
def spliceAll (index : Nat) : List PlacedEdit → Replay → Except IoError Unit × Replay
  | [], r => (.ok (), r)
  | edit :: rest, r =>
    let span := if edit.inserted ≠ 0 then
      some ⟨.segment index, edit.insertedAt, edit.inserted⟩ else none
    match r.splice edit.offset edit.removed span with
    | (.error error, r) => (.error error, r)
    | (.ok (), r) => spliceAll index rest r

/-- `Replay::apply` of `records[index]`: every inverse is compared before the map changes. -/
def apply (r : Replay) (index : Nat) (record : Record) : Except IoError Unit × Replay :=
  match files.openFile record.segment.name with
  | .error error => (.error error, r)
  | .ok segment =>
    match r.checkEdits files records segment 0 0 record.edits with
    | .error error => (.error error, r)
    | .ok (placed, position) =>
      if position ≠ record.segment.len then
        (.error (invalid "recovery segment length mismatch"), r)
      else spliceAll index placed.reverse r

/-- Data mismatches end the valid prefix; any other failure proves nothing. -/
def rejects (error : IoError) : Bool :=
  error.kind == .invalidData || error.kind == .unexpectedEof

/-- The loop of `build`, at the record `index`. -/
def buildFrom : Nat → List Record → Replay → Except IoError (Nat × Replay)
  | index, [], r => .ok (index, r)
  | index, record :: rest, r =>
    match r.apply files records index record with
    | (.ok (), r) => buildFrom (index + 1) rest r
    | (.error error, r) => if rejects error then .ok (index, r) else .error error

/-- The map of the baseline alone. -/
def start (baselineLen : Nat) : Replay :=
  if baselineLen ≠ 0 then ⟨[⟨baselineLen, [⟨.baseline, 0, baselineLen⟩]⟩], baselineLen, 1⟩
  else ⟨[], 0, 0⟩

/-- `Replay::build` -/
def build (baselineLen : Nat) : Except IoError (Nat × Replay) :=
  match files.openFile "baseline.bin" with
  | .error error => .error error
  | .ok baseline =>
    if baseline.length ≠ baselineLen then .error (invalid "recovery baseline length changed")
    else buildFrom files records 0 records (start baselineLen)

/-- The maps `buildFrom` holds after each record it takes up, the rejected one included. -/
def trail : Nat → List Record → Replay → List Replay
  | _, [], _ => []
  | index, record :: rest, r =>
    match r.apply files records index record with
    | (.ok (), r) => r :: trail (index + 1) rest r
    | (.error error, r) => if rejects error then [r] else []

/-- The chunk loop of `write_to` over one span. -/
def readSpan (span : Span) (done : Nat) : Except IoError Bytes :=
  if _h : done < span.len then
    let n := min (span.len - done) CHUNK
    match readOrigin files records span.origin (span.offset + done) n with
    | .error error => .error error
    | .ok chunk =>
      match readSpan span (done + n) with
      | .error error => .error error
      | .ok rest => .ok (chunk ++ rest)
  else .ok []
termination_by span.len - done
decreasing_by
  have : 0 < CHUNK := by decide
  omega

def writeSpans : List Span → Except IoError Bytes
  | [] => .ok []
  | span :: rest => do
    let bytes ← readSpan files records span 0
    let tail ← writeSpans rest
    .ok (bytes ++ tail)

/-- `Replay::write_to`: the bytes it writes. -/
def writeTo (r : Replay) : Except IoError Bytes := writeSpans files records (flat r.blocks)

end Replay

/-! ## §2 Comparing -/

/-- A concatenation is a prefix part by part. -/
theorem append_isPrefix {a b s : Bytes} : a ++ b <+: s ↔ a <+: s ∧ b <+: s.drop a.length := by
  constructor
  · rintro ⟨t, rfl⟩
    rw [List.append_assoc, List.drop_left]
    exact ⟨List.prefix_append a _, List.prefix_append b t⟩
  · rintro ⟨⟨t, rfl⟩, h⟩
    rw [List.drop_left] at h
    exact (List.prefix_append_right_inj a).mpr h

namespace Replay

variable (files records) in
/-- What the spans of a map read: the baseline and the segments of the records. -/
def source (origin : Origin) : Bytes :=
  match originFile files records origin with
  | .ok file => file
  | .error _ => []

variable {files records} {segment : Bytes}

theorem readOrigin_ok {origin : Origin} {offset len : Nat} (hpos : 0 < len)
    (h : offset + len ≤ (source files records origin).length) :
    readOrigin files records origin offset len =
      .ok ((⟨offset, offset + len⟩ : Range).of (source files records origin)) := by
  rw [readOrigin, source] at *
  cases hfile : originFile files records origin with
  | error e =>
    rw [hfile] at h
    simp only [List.length_nil] at h
    omega
  | ok file =>
    rw [hfile] at h
    show readExact file offset len = _
    exact if_pos h

theorem readExact_spec (file : Bytes) (offset len : Nat) :
    (offset + len ≤ file.length ∧ readExact file offset len = .ok ((file.drop offset).take len)) ∨
    (file.length < offset + len ∧ ∃ e, readExact file offset len = .error e ∧
      rejects e = true) := by
  rw [readExact]
  split
  · next h =>
    refine Or.inl ⟨h, ?_⟩
    rw [Range.of, List.drop_take, Nat.add_sub_cancel_left]
  · next h => exact Or.inr ⟨Nat.lt_of_not_le h, _, rfl, rfl⟩

/-- The outcome of a comparison of `want` with the segment at `position`. -/
def Compared (segment want : Bytes) (position : Nat) (result : Except IoError Nat) : Prop :=
  (want <+: segment.drop position ∧ result = .ok (position + want.length)) ∨
    (¬want <+: segment.drop position ∧ ∃ e, result = .error e ∧ rejects e = true)

/-- The chunk loop compares all of the piece that is left. -/
theorem comparePiece_spec (segment : Bytes) {piece : Origin × Nat × Nat}
    (hin : PieceInside (source files records) piece) (done position : Nat) :
    Compared segment ((pieceBytes (source files records) piece).drop done) position
      (comparePiece files records segment piece done position) := by
  have hbytes : (pieceBytes (source files records) piece).length = piece.2.2 := by
    simp only [PieceInside] at hin
    simp only [pieceBytes, Range.of_length]
    omega
  obtain ⟨left, hleft⟩ : ∃ left, piece.2.2 - done = left := ⟨_, rfl⟩
  induction left using Nat.strongRecOn generalizing done position with
  | _ left ih =>
    rw [comparePiece]
    split
    · next hlt =>
      have hn : 0 < min (piece.2.2 - done) CHUNK := by
        have : 0 < CHUNK := by decide
        omega
      generalize hdef : min (piece.2.2 - done) CHUNK = n at hn
      have hle : n ≤ piece.2.2 - done := by omega
      have hread : readOrigin files records piece.1 (piece.2.1 + done) n =
          .ok (((pieceBytes (source files records) piece).drop done).take n) := by
        simp only [PieceInside] at hin
        rw [readOrigin_ok hn (by omega), pieceBytes, Range.of, Range.of]
        simp only [List.drop_take, List.drop_drop, List.take_take]
        congr 2
        omega
      -- The piece is this chunk and what the next rounds compare.
      have hcut : ((pieceBytes (source files records) piece).drop done).take n ++
          (pieceBytes (source files records) piece).drop (done + n) =
          (pieceBytes (source files records) piece).drop done := by
        rw [← List.drop_drop, List.take_append_drop]
      have hchunk : (((pieceBytes (source files records) piece).drop done).take n).length = n := by
        rw [List.length_take, List.length_drop, hbytes, Nat.min_eq_left hle]
      simp only [hread]
      rcases readExact_spec segment position n with ⟨hfit, hexpected⟩ | ⟨hshort, e, herr, hrej⟩
      · simp only [hexpected]
        split
        · next hne =>
          refine Or.inr ⟨fun hpre => hne ?_, _, rfl, rfl⟩
          rw [← hcut, append_isPrefix] at hpre
          have := List.prefix_iff_eq_take.mp hpre.1
          rwa [hchunk] at this
        · next heq =>
          have heq := not_not.mp heq
          have hfirst : ((pieceBytes (source files records) piece).drop done).take n <+:
              segment.drop position := by
            rw [heq]
            exact List.take_prefix n _
          have hrest := ih (piece.2.2 - (done + n)) (by omega) (done + n) (position + n) rfl
          rcases hrest with ⟨hpre, hok⟩ | ⟨hpre, hrej⟩
          · refine Or.inl ⟨?_, ?_⟩
            · rw [← hcut, append_isPrefix, hchunk, List.drop_drop]
              exact ⟨hfirst, hpre⟩
            · rw [hok, List.length_drop, List.length_drop]
              congr 1
              omega
          · refine Or.inr ⟨fun hall => hpre ?_, hrej⟩
            rw [← hcut, append_isPrefix, hchunk, List.drop_drop] at hall
            exact hall.2
      · simp only [herr]
        refine Or.inr ⟨fun hpre => ?_, e, rfl, hrej⟩
        have := hpre.length_le
        simp only [List.length_drop, hbytes] at this
        omega
    · next hge =>
      have hnil : (pieceBytes (source files records) piece).drop done = [] :=
        List.drop_eq_nil_of_le (by omega)
      rw [hnil]
      exact Or.inl ⟨List.nil_prefix, rfl⟩

theorem comparePieces_spec (segment : Bytes) {pieces : List (Origin × Nat × Nat)}
    (hin : ∀ piece ∈ pieces, PieceInside (source files records) piece) (position : Nat) :
    Compared segment (pieces.flatMap (pieceBytes (source files records))) position
      (comparePieces files records segment pieces position) := by
  induction pieces generalizing position with
  | nil => exact Or.inl ⟨List.nil_prefix, rfl⟩
  | cons piece rest ih =>
    rw [List.flatMap_cons, comparePieces]
    rcases comparePiece_spec segment (hin piece List.mem_cons_self) 0 position with
      ⟨hpre, hok⟩ | ⟨hpre, e, herr, hrej⟩
    · rw [List.drop_zero] at hpre hok
      rw [hok]
      rcases ih (fun p hp => hin p (List.mem_cons_of_mem _ hp))
        (position + (pieceBytes (source files records) piece).length) with
        ⟨hpre', hok'⟩ | ⟨hpre', hrej'⟩
      · refine Or.inl ⟨?_, ?_⟩
        · rw [append_isPrefix, List.drop_drop]
          exact ⟨hpre, hpre'⟩
        · show comparePieces files records segment rest _ = _
          rw [hok', List.length_append, Nat.add_assoc]
      · refine Or.inr ⟨fun hall => hpre' ?_, hrej'⟩
        rw [append_isPrefix, List.drop_drop] at hall
        exact hall.2
    · rw [List.drop_zero] at hpre
      rw [herr]
      exact Or.inr ⟨fun hall => hpre (append_isPrefix.mp hall).1, e, rfl, hrej⟩

/-- `compare` accepts exactly the bytes the document has in the range. -/
theorem compare_spec (segment : Bytes) (position : Nat) {r : Replay}
    (h : r.Wf (source files records)) {offset len : Nat} (hlen : offset + len ≤ r.len) (hmax : r.len ≤ u64Max) :
    ((⟨offset, offset + len⟩ : Range).of (r.text (source files records)) <+:
        segment.drop position ∧
      r.compare files records segment offset len position = .ok ()) ∨
    (¬(⟨offset, offset + len⟩ : Range).of (r.text (source files records)) <+:
        segment.drop position ∧
      ∃ e, r.compare files records segment offset len position = .error e ∧ rejects e = true) := by
  rw [compare]
  split
  · next hzero =>
    rw [Range.of_eq_nil (by simp only; omega)]
    exact Or.inl ⟨List.nil_prefix, rfl⟩
  · obtain ⟨pieces, hpieces, hin, htext⟩ := Replay.pieces_spec h hlen hmax
    rw [hpieces, ← htext]
    rcases comparePieces_spec segment hin position with
      ⟨hpre, hok⟩ | ⟨hpre, e, herr, hrej⟩
    · refine Or.inl ⟨hpre, ?_⟩
      show (comparePieces files records segment pieces position >>= fun _ => .ok ()) = _
      rw [hok]
      rfl
    · refine Or.inr ⟨hpre, e, ?_, hrej⟩
      show (comparePieces files records segment pieces position >>= fun _ => .ok ()) = _
      rw [herr]
      rfl

/-! ## §3 Checking a record's edits -/

/-- `Matches`, for edits at or behind the offset `c`. -/
def MatchesFrom (c : Nat) (edits : List RecoveryEdit) (text : Bytes) : Prop :=
  Ordered c (edits.map Change.toSplice) text.length ∧
    ∀ e ∈ edits, e.removed = (⟨e.offset, e.stop⟩ : Range).of text

theorem matchesFrom_cons {c : Nat} {e : RecoveryEdit} {es : List RecoveryEdit} {text : Bytes} :
    MatchesFrom c (e :: es) text ↔ c ≤ e.offset ∧
      e.removed = (⟨e.offset, e.stop⟩ : Range).of text ∧ MatchesFrom e.stop es text := by
  constructor
  · rintro ⟨⟨hc, -, hrest⟩, hremoved⟩
    exact ⟨hc, hremoved e List.mem_cons_self, hrest,
      fun e' he' => hremoved e' (List.mem_cons_of_mem e he')⟩
  · rintro ⟨hc, hremoved, hrest, hremoved'⟩
    refine ⟨⟨hc, Nat.le_add_right _ _, hrest⟩, fun e' he' => ?_⟩
    rcases List.mem_cons.mp he' with rfl | he'
    · exact hremoved
    · exact hremoved' e' he'

/-- The placed edit is the edit `e`, its inserted bytes in the segment. -/
structure PlacedAs (segment : Bytes) (p : PlacedEdit) (e : RecoveryEdit) : Prop where
  offset : p.offset = e.offset
  removed : p.removed = e.removed.length
  inserted : p.inserted = e.inserted.length
  inside : p.insertedAt + p.inserted ≤ segment.length
  bytes : e.inserted = (⟨p.insertedAt, p.insertedAt + p.inserted⟩ : Range).of segment

variable {r : Replay}

/-- What one round of the check demands of the edit at segment position `position`. -/
def Accepts (r : Replay) (text segment : Bytes) (position c : Nat) (edit : EditRef) : Prop :=
  edit.offset + edit.removed ≤ r.len ∧ c ≤ edit.offset ∧
    (⟨edit.offset, edit.offset + edit.removed⟩ : Range).of text <+: segment.drop position ∧
    position + edit.removed + edit.inserted ≤ u64Max

/-- One round of the check. -/
theorem checkEdits_cons (h : r.Wf (source files records)) (hmax : r.len ≤ u64Max)
    (edit : EditRef) (rest : List EditRef) (position c : Nat) :
    (Accepts r (r.text (source files records)) segment position c edit ∧
      r.checkEdits files records segment position c (edit :: rest) =
        (r.checkEdits files records segment (position + edit.removed + edit.inserted)
          (edit.offset + edit.removed) rest).map fun (placed, final) =>
          (⟨edit.offset, edit.removed, position + edit.removed, edit.inserted⟩ :: placed, final)) ∨
    (¬Accepts r (r.text (source files records)) segment position c edit ∧
      ∃ e, r.checkEdits files records segment position c (edit :: rest) = .error e ∧
        rejects e = true) := by
  rw [checkEdits]
  split
  · next hnone =>
    refine Or.inr ⟨fun hacc => ?_, _, rfl, rfl⟩
    rw [(endWithin_eq_some hmax).mpr ⟨hacc.1, rfl⟩] at hnone
    cases hnone
  · next stop hwithin =>
    obtain ⟨hle, rfl⟩ := (endWithin_eq_some hmax).mp hwithin
    split
    · next hlt => exact Or.inr ⟨fun hacc => absurd hacc.2.1 (Nat.not_le_of_lt hlt), _, rfl, rfl⟩
    · next hge =>
      rcases compare_spec segment position h hle hmax with
        ⟨hpre, hok⟩ | ⟨hpre, e, herr, hrej⟩
      · simp only [hok, bind, Except.bind]
        by_cases hfit : position + edit.removed + edit.inserted ≤ u64Max
        · have hadd : checkedAdd position edit.removed = some (position + edit.removed) :=
            checkedAdd_eq (by omega)
          simp only [hadd, checkedAdd_eq hfit]
          refine Or.inl ⟨⟨hle, Nat.le_of_not_lt hge, hpre, hfit⟩, ?_⟩
          cases r.checkEdits files records segment (position + edit.removed + edit.inserted)
            (edit.offset + edit.removed) rest <;> rfl
        · refine Or.inr ⟨fun hacc => hfit hacc.2.2.2, ?_⟩
          split
          · exact ⟨_, rfl, rfl⟩
          · next insertedAt hadd =>
            obtain ⟨-, rfl⟩ := checkedAdd_eq_some.mp hadd
            rw [show checkedAdd (position + edit.removed) edit.inserted = none from if_neg hfit]
            exact ⟨_, rfl, rfl⟩
      · rw [herr]
        exact Or.inr ⟨fun hacc => hpre hacc.2.2.1, e, rfl, hrej⟩

/-- The check moves forward in the segment; its failures are data mismatches. -/
theorem checkEdits_ge (segment : Bytes) (h : r.Wf (source files records)) (hmax : r.len ≤ u64Max)
    (edits : List EditRef) (position c : Nat) :
    (∃ e, r.checkEdits files records segment position c edits = .error e ∧ rejects e = true) ∨
    ∃ placed final, r.checkEdits files records segment position c edits = .ok (placed, final) ∧
      position ≤ final := by
  induction edits generalizing position c with
  | nil => exact Or.inr ⟨[], position, rfl, Nat.le_refl _⟩
  | cons edit rest ih =>
    rcases checkEdits_cons h hmax edit rest position c with ⟨-, hstep⟩ | ⟨-, hrej⟩
    · rcases ih (position + edit.removed + edit.inserted) (edit.offset + edit.removed) with
        ⟨e, herr, hrej⟩ | ⟨placed, final, hrest, hge⟩
      · exact Or.inl ⟨e, by rw [hstep, herr]; rfl, hrej⟩
      · exact Or.inr ⟨_, final, by rw [hstep, hrest]; rfl, by omega⟩
    · exact Or.inl hrej

variable {text : Bytes}

/-- An accepted edit removes what the document has in its range. -/
theorem Accepts.removed_eq {position c : Nat} {edit : EditRef} (htext : text.length = r.len)
    (h : Accepts r text segment position c edit) :
    (segment.drop position).take edit.removed =
      (⟨edit.offset, edit.offset + edit.removed⟩ : Range).of text := by
  have hlen : ((⟨edit.offset, edit.offset + edit.removed⟩ : Range).of text).length =
      edit.removed := by
    have := h.1
    simp only [Range.of_length]
    omega
  rw [List.prefix_iff_eq_take.mp h.2.2.1, hlen]

/-- An edit cut from the segment that matches the document is accepted. -/
theorem accepts_of_matches {position c : Nat} {edit : EditRef} {es : List RecoveryEdit}
    (htext : text.length = r.len) (hsegment : segment.length ≤ u64Max)
    (hposition : position ≤ segment.length)
    (hroom : edit.removed + edit.inserted ≤ (segment.drop position).length)
    (h : MatchesFrom c (⟨edit.offset, (segment.drop position).take edit.removed,
      ((segment.drop position).drop edit.removed).take edit.inserted⟩ :: es) text) :
    Accepts r text segment position c edit := by
  obtain ⟨hc, hremoved, hrest⟩ := matchesFrom_cons.mp h
  have hstop := hrest.1.le
  have hlen : ((segment.drop position).take edit.removed).length = edit.removed := by
    rw [List.length_take]
    omega
  simp only [Change.stop, hlen] at hremoved hstop
  rw [List.length_drop] at hroom
  refine ⟨by omega, hc, ?_, by omega⟩
  rw [← hremoved]
  exact List.take_prefix _ _

/-- The check accepts a record exactly where its segment cuts into edits that match the
document, and it uses up the segment there. -/
theorem checkEdits_spec (h : r.Wf (source files records)) (hmax : r.len ≤ u64Max)
    (hsegment : segment.length ≤ u64Max) (edits : List EditRef) {position c : Nat}
    (hposition : position ≤ segment.length) (hc : c ≤ r.len) :
    (∃ es placed, cutSegment edits (segment.drop position) = some es ∧
      MatchesFrom c es (r.text (source files records)) ∧
      r.checkEdits files records segment position c edits = .ok (placed, segment.length) ∧
      List.Forall₂ (PlacedAs segment) placed es) ∨
    ((∀ es, cutSegment edits (segment.drop position) = some es →
        ¬MatchesFrom c es (r.text (source files records))) ∧
      ((∃ e, r.checkEdits files records segment position c edits = .error e ∧
        rejects e = true) ∨
      ∃ placed final, r.checkEdits files records segment position c edits = .ok (placed, final) ∧
        final ≠ segment.length)) := by
  have htext := h.text_length
  induction edits generalizing position c with
  | nil =>
    by_cases hend : position = segment.length
    · subst hend
      refine Or.inl ⟨[], [], by rw [List.drop_length]; rfl, ⟨?_, by simp⟩, rfl, .nil⟩
      show c ≤ _
      rw [htext]
      exact hc
    · refine Or.inr ⟨fun es hcut => ?_, Or.inr ⟨[], position, rfl, hend⟩⟩
      -- Bytes are left over, so the segment does not cut.
      obtain ⟨b, bs, hdrop⟩ : ∃ b bs, segment.drop position = b :: bs := by
        cases hd : segment.drop position with
        | nil =>
          have := congrArg List.length hd
          simp only [List.length_drop, List.length_nil] at this
          omega
        | cons b bs => exact ⟨b, bs, rfl⟩
      rw [hdrop] at hcut
      cases hcut
  | cons edit rest ih =>
    have hdrop : (segment.drop position).drop (edit.removed + edit.inserted) =
        segment.drop (position + edit.removed + edit.inserted) := by
      rw [List.drop_drop, Nat.add_assoc]
    rcases checkEdits_cons h hmax edit rest position c with ⟨hacc, hstep⟩ | ⟨hnacc, hrej⟩
    · by_cases hroom : position + edit.removed + edit.inserted ≤ segment.length
      · have hfits : edit.removed + edit.inserted ≤ (segment.drop position).length := by
          rw [List.length_drop]
          omega
        have hlen : ((segment.drop position).take edit.removed).length = edit.removed := by
          rw [List.length_take]
          omega
        rcases ih hroom hacc.1 with ⟨es, placed, hcut, hmatch, hcheck, hplaced⟩ | ⟨hnone, hbad⟩
        · refine Or.inl ⟨⟨edit.offset, (segment.drop position).take edit.removed,
              ((segment.drop position).drop edit.removed).take edit.inserted⟩ :: es,
            ⟨edit.offset, edit.removed, position + edit.removed, edit.inserted⟩ :: placed, ?_,
            matchesFrom_cons.mpr ⟨hacc.2.1, ?_, ?_⟩, ?_, .cons ?_ hplaced⟩
          · rw [cutSegment, if_pos hfits, hdrop, hcut]
            rfl
          · simp only [Change.stop, hlen]
            exact hacc.removed_eq htext
          · simpa only [Change.stop, hlen] using hmatch
          · rw [hstep, hcheck]
            rfl
          · refine ⟨rfl, hlen.symm, ?_, hroom, ?_⟩
            · simp only [List.length_take, List.length_drop]
              omega
            · simp only [Range.of, List.drop_drop, List.drop_take, Nat.add_sub_cancel_left]
        · refine Or.inr ⟨fun es hcut hmatch => ?_, ?_⟩
          · rw [cutSegment, if_pos hfits, hdrop] at hcut
            obtain ⟨es', hcut', rfl⟩ := Option.map_eq_some_iff.mp hcut
            obtain ⟨-, -, hrest⟩ := matchesFrom_cons.mp hmatch
            simp only [Change.stop, hlen] at hrest
            exact hnone es' hcut' hrest
          · rcases hbad with ⟨e, herr, hrej⟩ | ⟨placed, final, hok, hne⟩
            · exact Or.inl ⟨e, by rw [hstep, herr]; rfl, hrej⟩
            · exact Or.inr ⟨_, final, by rw [hstep, hok]; rfl, hne⟩
      · -- The segment is too short for this edit.
        refine Or.inr ⟨fun es hcut => ?_, ?_⟩
        · rw [cutSegment, if_neg (by rw [List.length_drop]; omega)] at hcut
          cases hcut
        · rcases checkEdits_ge segment h hmax rest
            (position + edit.removed + edit.inserted) (edit.offset + edit.removed) with
            ⟨e, herr, hrej⟩ | ⟨placed, final, hok, hge⟩
          · exact Or.inl ⟨e, by rw [hstep, herr]; rfl, hrej⟩
          · exact Or.inr ⟨_, final, by rw [hstep, hok]; rfl, by omega⟩
    · refine Or.inr ⟨fun es hcut hmatch => ?_, Or.inl hrej⟩
      rw [cutSegment] at hcut
      split at hcut
      · next hfits =>
        obtain ⟨es', -, rfl⟩ := Option.map_eq_some_iff.mp hcut
        exact hnacc (accepts_of_matches htext hsegment hposition hfits hmatch)
      · cases hcut

/-! ## §4 Splicing a record's edits -/

theorem spliceAll_append (index : Nat) (xs ys : List PlacedEdit) (r : Replay) :
    spliceAll index (xs ++ ys) r =
      match spliceAll index xs r with
      | (.error error, r) => (.error error, r)
      | (.ok (), r) => spliceAll index ys r := by
  induction xs generalizing r with
  | nil => rfl
  | cons x xs ih =>
    rw [List.cons_append, spliceAll, spliceAll]
    split
    · rfl
    · exact ih _

/-- The span of a placed edit spells the edit's inserted bytes. -/
theorem PlacedAs.span {index : Nat} {p : PlacedEdit} {e : RecoveryEdit}
    (h : PlacedAs segment p e) (hsource : source files records (.segment index) = segment) :
    (∀ s ∈ (if p.inserted ≠ 0 then some (⟨.segment index, p.insertedAt, p.inserted⟩ : Span)
        else none), s.Wf (source files records)) ∧
      spanText (source files records) (if p.inserted ≠ 0 then
        some (⟨.segment index, p.insertedAt, p.inserted⟩ : Span) else none).toList =
        e.inserted := by
  split
  · next hne =>
    constructor
    · intro s hs
      obtain rfl := Option.some.inj hs
      refine ⟨Nat.pos_of_ne_zero hne, ?_⟩
      rw [hsource]
      exact h.inside
    · rw [h.bytes, ← hsource]
      exact List.append_nil _
  · next hzero =>
    refine ⟨by simp, ?_⟩
    have : e.inserted.length = 0 := by rw [← h.inserted]; exact not_not.mp hzero
    rw [List.length_eq_zero_iff.mp this]
    rfl

/-- Splicing from the right is the reference splice: an edit never moves the offsets of the
edits before it. -/
theorem spliceAll_spec {index : Nat} {placed : List PlacedEdit} {es : List RecoveryEdit} {c : Nat}
    (h : r.Wf (source files records)) (hplaced : List.Forall₂ (PlacedAs segment) placed es)
    (hsource : source files records (.segment index) = segment)
    (hord : Ordered c (es.map Change.toSplice) (r.text (source files records)).length)
    (hmax : r.len + (es.map fun e => e.inserted.length).sum ≤ u64Max) :
    (∃ r', spliceAll index placed.reverse r = (.ok (), r') ∧ r'.Wf (source files records) ∧
      r'.text (source files records) =
        (es.map Change.toSplice).foldr Splice.apply (r.text (source files records)) ∧
      r'.spans ≤ r.spans + 3 * placed.length) ∨
    (∃ r', spliceAll index placed.reverse r = (.error outOfMemory, r')) ∧
      MAX_SPANS ≤ r.spans + 3 * placed.length := by
  induction hplaced generalizing c with
  | nil => exact Or.inl ⟨r, rfl, h, rfl, Nat.le_refl _⟩
  | @cons p e placed es hp hrest ih =>
    obtain ⟨hc, hse, hord'⟩ := hord
    simp only [List.map_cons, List.sum_cons] at hmax
    rw [List.reverse_cons, spliceAll_append, List.length_cons]
    rcases ih hord' (by omega) with ⟨r', hok, hwf, htext, hspans⟩ | ⟨⟨r', herr⟩, hfull⟩
    · obtain ⟨hlow, hhigh⟩ := foldr_apply_length hord'
      rw [← htext, hwf.text_length, h.text_length, List.map_map] at hhigh
      rw [← htext, hwf.text_length] at hlow
      have hsum : (es.map ((fun e => e.insert.length) ∘ Change.toSplice)).sum =
          (es.map fun e => e.inserted.length).sum := rfl
      rw [hsum] at hhigh
      have hstop : p.offset + p.removed = e.stop := by
        rw [hp.offset, hp.removed]
        rfl
      obtain ⟨hspan, hspanText⟩ := hp.span hsource
      simp only [hok, spliceAll]
      rcases Replay.splice_spec hwf (by omega) p.offset p.removed
          (by rw [hstop]; exact hlow) hspan with
        ⟨r'', hsplice, hwf', htext', hspans'⟩ | ⟨⟨r'', hsplice⟩, hfull⟩
      · refine Or.inl ⟨r'', by rw [hsplice], hwf', ?_, by omega⟩
        rw [htext', hspanText, hstop, hp.offset, htext]
        rfl
      · exact Or.inr ⟨⟨r'', by rw [hsplice]⟩, by omega⟩
    · simp only [herr]
      exact Or.inr ⟨⟨r', rfl⟩, by omega⟩

/-! ## §5 Building -/

/-- The edits cut from a segment: one for each reference, and no more bytes than it has. -/
theorem cutSegment_size {edits : List EditRef} {segment : Bytes} {es : List RecoveryEdit}
    (h : cutSegment edits segment = some es) :
    es.length = edits.length ∧ (es.map fun e => e.inserted.length).sum ≤ segment.length := by
  induction edits generalizing segment es with
  | nil =>
    cases segment with
    | nil =>
      obtain rfl := Option.some.inj h
      exact ⟨rfl, Nat.le_refl _⟩
    | cons b bs => cases h
  | cons edit rest ih =>
    rw [cutSegment] at h
    split at h
    · next hfits =>
      obtain ⟨es', hcut, rfl⟩ := Option.map_eq_some_iff.mp h
      obtain ⟨hlen, hsum⟩ := ih hcut
      rw [List.length_drop] at hsum
      refine ⟨by rw [List.length_cons, hlen, List.length_cons], ?_⟩
      simp only [List.map_cons, List.sum_cons, List.length_take, List.length_drop]
      omega
    · cases h

/-- A record the reference semantics applies is spliced in; any other is rejected and leaves
the map alone. -/
theorem apply_spec {index : Nat} {record : Record} (h : r.Wf (source files records))
    (hrecord : records[index]? = some record) (hfile : files record.segment.name = some segment)
    (hlen : segment.length = record.segment.len) (hmax : r.len + record.segment.len ≤ u64Max) :
    (∃ text', replayRecord files (r.text (source files records)) record = some text' ∧
      ((∃ r', r.apply files records index record = (.ok (), r') ∧ r'.Wf (source files records) ∧
          r'.text (source files records) = text' ∧
          r'.len ≤ r.len + record.segment.len ∧
          r'.spans ≤ r.spans + 3 * record.edits.length) ∨
        (∃ r', r.apply files records index record = (.error outOfMemory, r')) ∧
          MAX_SPANS ≤ r.spans + 3 * record.edits.length)) ∨
    (replayRecord files (r.text (source files records)) record = none ∧
      ∃ e, r.apply files records index record = (.error e, r) ∧ rejects e = true) := by
  have hopen : files.openFile record.segment.name = .ok segment := by
    rw [Files.openFile, hfile]
  have hsource : source files records (.segment index) = segment := by
    simp only [source, originFile, hrecord, hopen]
  have hreplay : replayRecord files (r.text (source files records)) record =
      (cutSegment record.edits segment).bind fun es =>
        if Matches es (r.text (source files records)) then
          some (applyEdits es (r.text (source files records))) else none := by
    rw [replayRecord, hfile]
    rfl
  rw [hreplay, apply, hopen]
  rcases checkEdits_spec h (by omega) (show segment.length ≤ u64Max by omega) record.edits
      (Nat.zero_le _) (Nat.zero_le _) with
    ⟨es, placed, hcut, hmatch, hcheck, hplaced⟩ | ⟨hnone, hbad⟩
  · rw [List.drop_zero] at hcut
    obtain ⟨hcount, hsum⟩ := cutSegment_size hcut
    have hmatch' : Matches es (r.text (source files records)) := hmatch
    refine Or.inl ⟨applyEdits es (r.text (source files records)), ?_, ?_⟩
    · rw [hcut]
      exact if_pos hmatch'
    · simp only [hcheck, hlen, ne_eq, not_true_eq_false, if_false]
      have hsame : placed.length = record.edits.length := by rw [hplaced.length_eq, hcount]
      rw [← hsame]
      rcases spliceAll_spec h hplaced hsource hmatch.1 (by omega) with
        ⟨r', hok, hwf, htext, hspans⟩ | ⟨herr, hfull⟩
      · rw [foldr_apply_eq_splice hmatch.1] at htext
        refine Or.inl ⟨r', hok, hwf, htext, ?_, hspans⟩
        obtain ⟨-, hhigh⟩ := foldr_apply_length hmatch.1
        rw [foldr_apply_eq_splice hmatch.1, ← htext, hwf.text_length, h.text_length,
          List.map_map] at hhigh
        have hsum' : (es.map ((fun e => e.insert.length) ∘ Change.toSplice)).sum =
            (es.map fun e => e.inserted.length).sum := rfl
        omega
      · exact Or.inr ⟨herr, hfull⟩
  · rw [List.drop_zero] at hnone
    refine Or.inr ⟨?_, ?_⟩
    · cases hcut : cutSegment record.edits segment with
      | none => rfl
      | some es => exact if_neg (hnone es hcut)
    · rcases hbad with ⟨e, herr, hrej⟩ | ⟨placed, final, hok, hne⟩
      · exact ⟨e, by simp only [herr], hrej⟩
      · rw [hlen] at hne
        exact ⟨_, by simp only [hok, ne_eq, hne, not_false_eq_true, if_true]; rfl, rfl⟩

/-- Every segment the records name is there, with the length they say. -/
def Readable (files : Files) (records : List Record) : Prop :=
  ∀ record ∈ records, ∃ segment, files record.segment.name = some segment ∧
    segment.length = record.segment.len

/-- The bytes of the records' segments. -/
def segmentLen (records : List Record) : Nat := (records.map fun r => r.segment.len).sum

def editCount (records : List Record) : Nat := (records.map fun r => r.edits.length).sum

/-- The loop from any point of the journal: it takes exactly the records the reference
semantics takes, and every map on the way is well formed. -/
theorem buildFrom_spec {done rest : List Record} (hrecords : records = done ++ rest)
    (h : r.Wf (source files records)) (hreadable : Readable files rest)
    (hmax : r.len + segmentLen rest ≤ u64Max) :
    ((∃ r', buildFrom files records done.length rest r =
          .ok (done.length + (replayPrefix files (r.text (source files records)) rest).1, r') ∧
        r'.Wf (source files records) ∧
        r'.text (source files records) =
          (replayPrefix files (r.text (source files records)) rest).2) ∨
      buildFrom files records done.length rest r = .error outOfMemory ∧
        MAX_SPANS ≤ r.spans + 3 * editCount rest) ∧
    ∀ m ∈ trail files records done.length rest r, m.Wf (source files records) := by
  induction rest generalizing done r with
  | nil => exact ⟨Or.inl ⟨r, rfl, h, rfl⟩, by simp [trail]⟩
  | cons record rest ih =>
    obtain ⟨segment, hfile, hlen⟩ := hreadable record List.mem_cons_self
    have hrecord : records[done.length]? = some record := by
      rw [hrecords, List.getElem?_append_right (Nat.le_refl _), Nat.sub_self]
      rfl
    simp only [segmentLen, List.map_cons, List.sum_cons] at hmax
    simp only [editCount, List.map_cons, List.sum_cons, buildFrom, trail, replayPrefix]
    rcases apply_spec h hrecord hfile hlen (by omega) with
      ⟨text', htext', ⟨r', hok, hwf, htext, hgrow, hspans⟩ | ⟨⟨r', herr⟩, hfull⟩⟩ |
        ⟨hnone, e, herr, hrej⟩
    · have hih := ih (show records = done ++ [record] ++ rest by rw [hrecords]; simp) hwf
        (fun r hr => hreadable r (List.mem_cons_of_mem _ hr))
        (by simp only [segmentLen]; omega)
      rw [List.length_append, List.length_singleton, htext] at hih
      simp only [hok, htext']
      obtain ⟨hresult, htrail⟩ := hih
      refine ⟨?_, ?_⟩
      · rcases hresult with ⟨r'', hbuild, hwf', htext''⟩ | ⟨hbuild, hfull⟩
        · refine Or.inl ⟨r'', ?_, hwf', htext''⟩
          rw [hbuild]
          congr 2
          omega
        · refine Or.inr ⟨hbuild, ?_⟩
          simp only [editCount] at hfull
          omega
      · intro m hm
        rcases List.mem_cons.mp hm with rfl | hm
        · exact hwf
        · exact htrail m hm
    · have hnot : rejects outOfMemory = false := by decide
      simp only [herr, hnot]
      exact ⟨Or.inr ⟨rfl, by omega⟩, by simp⟩
    · simp only [herr, hrej, hnone, if_true]
      refine ⟨Or.inl ⟨r, rfl, h, rfl⟩, ?_⟩
      intro m hm
      obtain rfl := List.mem_singleton.mp hm
      exact h

theorem start_spec (records : List Record) {baseline : Bytes}
    (hbaseline : files "baseline.bin" = some baseline) :
    (start baseline.length).Wf (source files records) ∧
      (start baseline.length).text (source files records) = baseline ∧
      (start baseline.length).len = baseline.length ∧ (start baseline.length).spans ≤ 1 := by
  have hsource : source files records .baseline = baseline := by
    simp only [source, originFile, Files.openFile, hbaseline]
  rw [start]
  split
  · next hne =>
    have hspan : Span.Wf (source files records) ⟨.baseline, 0, baseline.length⟩ := by
      refine ⟨Nat.pos_of_ne_zero hne, ?_⟩
      rw [hsource]
      exact Nat.le_of_eq (Nat.zero_add _)
    refine ⟨⟨?_, rfl, rfl⟩, ?_, rfl, Nat.le_refl _⟩
    · intro b hb
      obtain rfl := List.mem_singleton.mp hb
      refine ⟨rfl, by simp, fun s hs => ?_⟩
      obtain rfl := List.mem_singleton.mp hs
      exact hspan
    · show Span.bytes _ _ ++ [] = _
      rw [List.append_nil, Span.bytes, hsource]
      exact Range.of_all (by simp)
  · next hzero =>
    have hnil : baseline = [] := List.length_eq_zero_iff.mp (not_not.mp hzero)
    subst hnil
    exact ⟨⟨by simp, rfl, rfl⟩, rfl, rfl, Nat.zero_le _⟩

theorem readSpan_spec {span : Span} (h : span.Wf (source files records)) (done : Nat) :
    readSpan files records span done = .ok ((span.bytes (source files records)).drop done) := by
  obtain ⟨left, hleft⟩ : ∃ left, span.len - done = left := ⟨_, rfl⟩
  induction left using Nat.strongRecOn generalizing done with
  | _ left ih =>
    rw [readSpan]
    split
    · next hlt =>
      have hn : 0 < min (span.len - done) CHUNK := by
        have : 0 < CHUNK := by decide
        omega
      generalize hdef : min (span.len - done) CHUNK = n at hn
      have hin := h.inside
      have hread : readOrigin files records span.origin (span.offset + done) n =
          .ok (((span.bytes (source files records)).drop done).take n) := by
        rw [readOrigin_ok hn (by omega), Span.bytes, Range.of, Range.of]
        simp only [List.drop_take, List.drop_drop, List.take_take]
        congr 2
        omega
      simp only [hread, ih (span.len - (done + n)) (by omega) (done + n) rfl]
      rw [← List.drop_drop, List.take_append_drop]
    · next hge =>
      rw [List.drop_eq_nil_of_le (by rw [h.bytes_length]; omega)]

/-- `write_to` streams the document the map spells. -/
theorem writeTo_spec (h : r.Wf (source files records)) :
    r.writeTo files records = .ok (r.text (source files records)) := by
  have hall := h.spans_wf
  rw [writeTo, text]
  generalize flat r.blocks = spans at hall
  induction spans with
  | nil => rfl
  | cons s ss ih =>
    rw [writeSpans, readSpan_spec (hall s List.mem_cons_self),
      ih fun s' hs' => hall s' (List.mem_cons_of_mem s hs')]
    rfl

/-- `build` counts the longest run of records that apply and maps the text they leave, or it
runs out of spans. -/
theorem build_spec {records : List Record} {baseline : Bytes}
    (hbaseline : files "baseline.bin" = some baseline) (hreadable : Readable files records)
    (hsize : baseline.length + segmentLen records ≤ u64Max) :
    ((∃ replay, build files records baseline.length =
          .ok ((replayPrefix files baseline records).1, replay) ∧
        replay.Wf (source files records) ∧
        replay.text (source files records) = (replayPrefix files baseline records).2) ∨
      build files records baseline.length = .error outOfMemory ∧
        MAX_SPANS ≤ 1 + 3 * editCount records) ∧
    ∀ m ∈ trail files records 0 records (start baseline.length), m.Wf (source files records) := by
  obtain ⟨hwf, htext, hlen, hspans⟩ := start_spec records hbaseline
  obtain ⟨hresult, htrail⟩ := buildFrom_spec (List.nil_append records).symm hwf hreadable
    (by rw [hlen]; exact hsize)
  have hbuild : build files records baseline.length =
      buildFrom files records 0 records (start baseline.length) := by
    simp only [build, Files.openFile, hbaseline, ne_eq, not_true_eq_false, if_false]
  rw [List.length_nil, htext, Nat.zero_add] at hresult
  rw [hbuild]
  refine ⟨?_, htrail⟩
  rcases hresult with hok | ⟨herr, hfull⟩
  · exact Or.inl hok
  · exact Or.inr ⟨herr, by omega⟩

end Replay

/-- Interval-map replay refines byte replay.  `build` counts exactly the longest run of
records that apply to the baseline, `write_to` writes exactly the text they leave, and the
block map invariant holds in every map on the way, after rejected records too; the one other
outcome is that the map runs out of spans, which takes more edits than a third of the
limit. -/
theorem replay_refines_bytes (files : Files) (records : List Record) (baseline : Bytes)
    (hbaseline : files "baseline.bin" = some baseline)
    (hreadable : Replay.Readable files records)
    (hsize : baseline.length + Replay.segmentLen records ≤ u64Max) :
    ((∃ replay, Replay.build files records baseline.length =
          .ok ((replayPrefix files baseline records).1, replay) ∧
        replay.writeTo files records = .ok (replayPrefix files baseline records).2 ∧
        replay.Wf (Replay.source files records)) ∨
      Replay.build files records baseline.length = .error outOfMemory ∧
        MAX_SPANS ≤ 1 + 3 * Replay.editCount records) ∧
    (∀ replay ∈ Replay.trail files records 0 records (Replay.start baseline.length),
      replay.Wf (Replay.source files records)) := by
  obtain ⟨hresult, htrail⟩ := Replay.build_spec hbaseline hreadable hsize
  refine ⟨?_, htrail⟩
  rcases hresult with ⟨replay, hok, hwf, htext⟩ | hfull
  · refine Or.inl ⟨replay, hok, ?_, hwf⟩
    rw [Replay.writeTo_spec hwf, htext]
  · exact Or.inr hfull

/-- A journal of two records: the first applies, the second removes a byte it did not see. -/
theorem replay_refines_bytes_rejected :
    let files : Files := fun name =>
      if name = "baseline.bin" then some [97, 98, 99]
      else if name = "segment-1.bin" then some [98, 120, 121]
      else if name = "segment-2.bin" then some [98] else none
    let records : List Record :=
      [⟨2, none, ⟨1, 0⟩, ⟨"segment-1.bin", 3, []⟩, [⟨1, 1, 2⟩]⟩,
        ⟨2, none, ⟨2, 0⟩, ⟨"segment-2.bin", 1, []⟩, [⟨1, 1, 0⟩]⟩]
    ∃ replay, Replay.build files records 3 = .ok (1, replay) ∧
      replay.writeTo files records = .ok [97, 120, 121, 99] := by
  intro files records
  have hreadable : Replay.Readable files records := by
    intro record hrecord
    simp only [records, List.mem_cons, List.not_mem_nil, or_false] at hrecord
    rcases hrecord with rfl | rfl
    · exact ⟨[98, 120, 121], rfl, rfl⟩
    · exact ⟨[98], rfl, rfl⟩
  rcases (replay_refines_bytes files records [97, 98, 99] rfl hreadable (by decide)).1 with
    ⟨replay, hbuild, hwrite, -⟩ | ⟨-, hfull⟩
  · exact ⟨replay, hbuild, hwrite⟩
  · exact absurd hfull (by decide)

end BareLine
