import BareLine.Codec.OriginalReads
import BareLine.Codec.ValidText
import BareLine.Document.Types
import BareLine.Lib.Terminators

/-!
# Line-ending conversion

The planner of a line-ending conversion.  It scans the pieces of the range and of one character
on each side, and plans one edit for each terminator to change, or a single edit from the first
to the last of them when there are too many.
-/

namespace BareLine.Codec

open Lib Lib.Terminators

/-! ## §1 The converter -/

/-- The loop of `convert_eol` over the bytes that are left, at `index`. -/
def convertLoop (text : Bytes) (target : Eol) :
    Bytes → Nat → Nat → Bool → Bytes → Nat × Bool × Bytes
  | [], _, plain, pendingCr, out => (plain, pendingCr, out)
  | byte :: rest, index, plain, pendingCr, out =>
    let out := if pendingCr then out ++ target.bytes else out
    if pendingCr ∧ byte = LF then convertLoop text target rest (index + 1) (index + 1) false out
    else if byte = CR ∨ byte = LF then
      let out := out ++ (⟨plain, index⟩ : Range).of text
      if byte = CR then convertLoop text target rest (index + 1) (index + 1) true out
      else convertLoop text target rest (index + 1) (index + 1) false (out ++ target.bytes)
    else convertLoop text target rest (index + 1) plain false out

/-- `convert_eol`; the pending CR and the output afterwards. -/
def convertEol (text : Bytes) (target : Eol) (pendingCr fin : Bool) (out : Bytes) :
    Bool × Bytes :=
  let (plain, pendingCr, out) := convertLoop text target text 0 0 pendingCr out
  let out := out ++ text.drop plain
  if fin ∧ pendingCr then (false, out ++ target.bytes) else (pendingCr, out)

/-! ## §2 The planner -/

/-- What `plan_eol_conversion` collects. -/
structure Plan where
  edits : List Edit
  changed : Option Range
  coalesce : Bool
  deriving DecidableEq, Repr

/-- The terminator overlaps the range. -/
def overlaps (requested : Range) (start : Nat) (e : Eol) : Bool :=
  !requested.isEmpty && decide (start < requested.stop) && decide (requested.start < start + e.len)

/-- The closure `terminator`. -/
def Plan.terminator (requested : Range) (target : Eol) (maxEdits : Nat) (self : Plan)
    (start len : Nat) (current : Eol) : Plan :=
  if current ≠ target ∧ requested.isEmpty = false ∧ start < requested.stop ∧
      start + len > requested.start then
    let changed := some ⟨(self.changed.getD ⟨start, start⟩).start, start + len⟩
    let (coalesce, edits) :=
      if self.coalesce = false ∧ self.edits.length ≥ maxEdits then (true, [])
      else (self.coalesce, self.edits)
    ⟨if coalesce then edits else edits ++ [⟨⟨start, start + len⟩, target.bytes⟩], changed, coalesce⟩
  else self

/-- The state of the scan: the offset of a CR that waits for the next byte, the offset of that
byte, and what was collected. -/
structure EolScan where
  pending : Option Nat
  offset : Nat
  plan : Plan
  deriving DecidableEq, Repr

namespace EolScan

variable (requested : Range) (target : Eol) (maxEdits : Nat)

/-- A byte that does not follow a CR. -/
def fresh (self : EolScan) (b : UInt8) : EolScan :=
  if b = CR then ⟨some self.offset, self.offset + 1, self.plan⟩
  else if b = LF then
    ⟨none, self.offset + 1, self.plan.terminator requested target maxEdits self.offset 1 .lf⟩
  else ⟨none, self.offset + 1, self.plan⟩

/-- The body of the loop over the bytes of a chunk. -/
def step (self : EolScan) (b : UInt8) : EolScan :=
  match self.pending with
  | some cr =>
    if b = LF then
      ⟨none, self.offset + 1, self.plan.terminator requested target maxEdits cr 2 .crlf⟩
    else
      fresh requested target maxEdits
        ⟨none, self.offset, self.plan.terminator requested target maxEdits cr 1 .cr⟩ b
  | none => fresh requested target maxEdits self b

/-- A CR may be the last byte. -/
def finish (self : EolScan) : Plan :=
  match self.pending with
  | some cr => self.plan.terminator requested target maxEdits cr 1 .cr
  | none => self.plan

end EolScan

/-- `plan_eol_conversion` -/
def planEolConversion (snapshot : DocumentSnapshot) (range : Range) (target : Eol)
    (maxEdits : Nat) : Except Error EditTransaction := do
  if snapshot.complete = false then throw .incompleteSource
  let _ ← baselineChunks snapshot.root range
  let scanStart :=
    if 0 < range.start ∧ snapshot.isBoundary (range.start - 1) then range.start - 1
    else range.start
  let scanEnd :=
    if range.stop < snapshot.len ∧ snapshot.isBoundary (range.stop + 1) then range.stop + 1
    else range.stop
  let chunks ← baselineChunks snapshot.root ⟨scanStart, scanEnd⟩
  let scan := chunks.foldl (fun scan chunk =>
    chunk.foldl (EolScan.step range target maxEdits) scan) ⟨none, scanStart, ⟨[], none, false⟩⟩
  let plan := scan.finish range target maxEdits
  match plan.changed.filter fun _ => plan.coalesce with
  | some span =>
    let chunks ← baselineChunks snapshot.root span
    let (cr, insert) := chunks.foldl (fun (cr, insert) chunk =>
      convertEol chunk target cr false insert) (false, [])
    let (_, insert) := convertEol [] target cr true insert
    return ⟨snapshot.revision, plan.edits ++ [⟨span, insert⟩]⟩
  | none => return ⟨snapshot.revision, plan.edits⟩

/-! ## §3 What the converter writes -/

/-- The text with every terminator rewritten. -/
def converted (target : Eol) (t : Bytes) : Bytes := rewriteEols (fun _ _ => true) target 0 t

theorem converted_eol {e target : Eol} {t : Bytes} (h : e.Splits t) :
    converted target (e.bytes ++ t) = target.bytes ++ converted target t := by
  rw [converted, rewriteEols_eol h, rewriteEols_all]
  rfl

theorem converted_byte {target : Eol} {b : UInt8} {t : Bytes} (hcr : b ≠ CR) (hlf : b ≠ LF) :
    converted target (b :: t) = b :: converted target t := by
  rw [converted, rewriteEols_byte hcr hlf, rewriteEols_all]
  rfl

/-- The CR that waits. -/
def waiting (pendingCr : Bool) : Bytes := if pendingCr then [CR] else []

/-- The slice up to a byte, with the byte. -/
theorem of_snoc {pre rest : Bytes} {b : UInt8} {plain : Nat} (h : plain ≤ pre.length) :
    (⟨plain, pre.length + 1⟩ : Range).of (pre ++ b :: rest) =
      (⟨plain, pre.length⟩ : Range).of (pre ++ b :: rest) ++ [b] := by
  rw [Range.of, Range.of, List.take_left, show pre ++ b :: rest = (pre ++ [b]) ++ rest by simp,
    show pre.length + 1 = (pre ++ [b]).length by simp, List.take_left,
    List.drop_append_of_le_length h]

theorem of_none (text : Bytes) (n : Nat) : (⟨n, n⟩ : Range).of text = [] := by
  rw [Range.of, List.drop_eq_nil_of_le (List.length_take_le _ _)]

/-- A CR that waited ends a line in front of anything but an LF. -/
theorem convertLoop_waiting {text rest out : Bytes} {target : Eol} {b : UInt8} {index plain : Nat}
    (hlf : b ≠ LF) :
    convertLoop text target (b :: rest) index plain true out =
      convertLoop text target (b :: rest) index plain false (out ++ target.bytes) := by
  rw [convertLoop, convertLoop]
  simp only [hlf, and_false, if_false, if_true, Bool.false_eq_true]

/-- The loop has written the converted text, but for what it has not copied yet and a CR that
waits.  `next` is whatever follows the chunk. -/
def Written (target : Eol) (text next total : Bytes) (state : Nat × Bool × Bytes) : Prop :=
  state.2.2 ++ text.drop state.1 ++ converted target (waiting state.2.1 ++ next) = total

theorem convertLoop_spec (target : Eol) (next rest : Bytes) :
    ∀ (pre : Bytes) (plain : Nat) (pendingCr : Bool) (out : Bytes), plain ≤ pre.length →
      (pendingCr = true → plain = pre.length) →
      Written target (pre ++ rest) next
        (out ++ (⟨plain, pre.length⟩ : Range).of (pre ++ rest) ++
          converted target (waiting pendingCr ++ (rest ++ next)))
        (convertLoop (pre ++ rest) target rest pre.length plain pendingCr out) := by
  induction rest with
  | nil =>
    intro pre plain pendingCr out hplain _
    rw [convertLoop, List.append_nil, Range.of, List.take_length, Written]
    rfl
  | cons b rest ih =>
    intro pre plain pendingCr out hplain hpending
    have hpre : (pre ++ [b]) ++ rest = pre ++ b :: rest := by simp
    have hlen : (pre ++ [b]).length = pre.length + 1 := List.length_append
    -- The rest of the loop behind this byte.
    have hnext : ∀ (plain : Nat) (pendingCr : Bool) (out : Bytes), plain ≤ pre.length + 1 →
        (pendingCr = true → plain = pre.length + 1) →
        Written target (pre ++ b :: rest) next
          (out ++ (⟨plain, pre.length + 1⟩ : Range).of (pre ++ b :: rest) ++
            converted target (waiting pendingCr ++ (rest ++ next)))
          (convertLoop (pre ++ b :: rest) target rest (pre.length + 1) plain pendingCr out) :=
      fun plain pendingCr out hle hp => by
        have h := ih (pre ++ [b]) plain pendingCr out (hlen ▸ hle) fun hcr => hlen ▸ hp hcr
        rw [hpre, hlen] at h
        exact h
    -- A byte behind no CR.
    have hfresh : ∀ out : Bytes, Written target (pre ++ b :: rest) next
        (out ++ (⟨plain, pre.length⟩ : Range).of (pre ++ b :: rest) ++
          converted target (b :: (rest ++ next)))
        (convertLoop (pre ++ b :: rest) target (b :: rest) pre.length plain false out) := by
      intro out
      rw [convertLoop]
      by_cases hcr : b = CR
      · have h := hnext (pre.length + 1) true
          (out ++ (⟨plain, pre.length⟩ : Range).of (pre ++ b :: rest)) (Nat.le_refl _) fun _ => rfl
        rw [of_none, List.append_nil] at h
        subst hcr
        exact h
      · by_cases hlf : b = LF
        · have h := hnext (pre.length + 1) false
            (out ++ (⟨plain, pre.length⟩ : Range).of (pre ++ b :: rest) ++ target.bytes)
            (Nat.le_refl _) fun h => (by cases h)
          rw [of_none, List.append_nil, List.append_assoc _ target.bytes] at h
          subst hlf
          rw [show LF :: (rest ++ next) = Eol.lf.bytes ++ (rest ++ next) from rfl,
            converted_eol (e := .lf) (Eol.splits_of_ne (by decide))]
          exact h
        · have h := hnext plain false out (Nat.le_succ_of_le hplain) fun h => (by cases h)
          rw [of_snoc hplain, ← List.append_assoc, List.append_assoc _ [b]] at h
          rw [converted_byte hcr hlf]
          simp only [hcr, hlf, or_self, if_false, and_false, Bool.false_eq_true]
          exact h
    cases pendingCr with
    | false => exact hfresh out
    | true =>
      obtain rfl := hpending rfl
      by_cases hlf : b = LF
      · subst hlf
        have h := hnext (pre.length + 1) false (out ++ target.bytes) (Nat.le_refl _)
          fun h => (by cases h)
        rw [of_none, List.append_nil, List.append_assoc] at h
        rw [of_none, List.append_nil, show waiting true ++ (LF :: rest ++ next) =
          Eol.crlf.bytes ++ (rest ++ next) from rfl,
          converted_eol (e := .crlf) (Eol.splits_of_ne (by decide)), convertLoop]
        exact h
      · have hsplits : Eol.cr.Splits (b :: (rest ++ next)) := fun _ hhead =>
          hlf (Option.some.inj hhead)
        have h := hfresh (out ++ target.bytes)
        rw [convertLoop_waiting hlf, of_none, List.append_nil, show waiting true ++
          (b :: rest ++ next) = Eol.cr.bytes ++ (b :: (rest ++ next)) from rfl,
          converted_eol hsplits, ← List.append_assoc]
        rw [of_none, List.append_nil] at h
        exact h

theorem convertEol_spec (target : Eol) (chunk next : Bytes) (pendingCr : Bool) (out : Bytes) :
    (convertEol chunk target pendingCr false out).2 ++
        converted target (waiting (convertEol chunk target pendingCr false out).1 ++ next) =
      out ++ converted target (waiting pendingCr ++ (chunk ++ next)) := by
  have h := convertLoop_spec target next chunk [] 0 pendingCr out (Nat.le_refl 0) fun _ => rfl
  rw [List.length_nil, of_none, List.append_nil, List.nil_append] at h
  exact h

/-- The converter goes from chunk to chunk as over the whole text. -/
theorem convertChunks_spec (target : Eol) (next : Bytes) (chunks : List Bytes) :
    ∀ (pendingCr : Bool) (out : Bytes),
      let r := chunks.foldl (fun (cr, insert) chunk => convertEol chunk target cr false insert)
        (pendingCr, out)
      r.2 ++ converted target (waiting r.1 ++ next) =
        out ++ converted target (waiting pendingCr ++ (chunks.flatten ++ next)) := by
  induction chunks with
  | nil => exact fun _ _ => rfl
  | cons chunk chunks ih =>
    intro pendingCr out
    have h := convertEol_spec target chunk (chunks.flatten ++ next) pendingCr out
    rw [List.flatten_cons, List.append_assoc, ← h]
    exact ih _ _

theorem convertEol_end (target : Eol) (pendingCr : Bool) (out : Bytes) :
    (convertEol [] target pendingCr true out).2 = out ++ converted target (waiting pendingCr) := by
  cases pendingCr with
  | false => rfl
  | true =>
    have hsplits : Eol.cr.Splits [] := fun _ h => by cases h
    have hcr : converted target [CR] = target.bytes ++ converted target [] :=
      converted_eol hsplits
    show out ++ [] ++ target.bytes = out ++ converted target [CR]
    rw [hcr, List.append_nil]
    exact congrArg (out ++ ·) (List.append_nil _).symm

/-! ## §4 What the planner collects -/

section Scan

variable {requested : Range} {target : Eol} {maxEdits : Nat}

/-- What the planner does with a mark of the text. -/
def Plan.mark (requested : Range) (target : Eol) (maxEdits : Nat) (self : Plan) : Mark → Plan
  | .byte _ => self
  | .eol p e => self.terminator requested target maxEdits p e.len e

/-- A CR in front of anything but an LF is a terminator. -/
theorem EolScan.foldl_pending {t : Bytes} {p off : Nat} {plan : Plan} (h : t.head? ≠ some LF) :
    (t.foldl (EolScan.step requested target maxEdits) ⟨some p, off, plan⟩).finish requested target
        maxEdits =
      (t.foldl (EolScan.step requested target maxEdits)
        ⟨none, off, plan.terminator requested target maxEdits p 1 .cr⟩).finish requested target
          maxEdits := by
  cases t with
  | nil => rfl
  | cons b t =>
    have hlf : b ≠ LF := fun hb => h (congrArg some hb)
    rw [List.foldl_cons, List.foldl_cons, EolScan.step, EolScan.step]
    simp only [if_neg hlf]

/-- The scan over the bytes meets the marks of the text. -/
theorem EolScan.foldl_eq {t : Bytes} {off : Nat} {plan : Plan} :
    (t.foldl (EolScan.step requested target maxEdits) ⟨none, off, plan⟩).finish requested target
        maxEdits =
      (marks off t).foldl (Plan.mark requested target maxEdits) plan := by
  induction t using text_induction generalizing off plan with
  | nil => rfl
  | eol e t h ih =>
    rw [marks_eol h, List.foldl_cons, ← ih]
    cases e with
    | lf => rfl
    | crlf => rfl
    | cr =>
      exact EolScan.foldl_pending (h rfl)
  | byte b t hcr hlf ih =>
    rw [marks_byte hcr hlf, List.foldl_cons, List.foldl_cons, ← ih]
    have hstep : EolScan.step requested target maxEdits ⟨none, off, plan⟩ b =
        ⟨none, off + 1, plan⟩ := by
      show EolScan.fresh requested target maxEdits ⟨none, off, plan⟩ b = _
      rw [EolScan.fresh, if_neg hcr, if_neg hlf]
    rw [hstep]
    rfl

theorem foldl_chunks {σ : Type} (f : σ → UInt8 → σ) (chunks : List Bytes) (s : σ) :
    chunks.foldl (fun s chunk => chunk.foldl f s) s = chunks.flatten.foldl f s := by
  rw [List.foldl_flatten]

/-- The terminators to change so far, and what the planner keeps of them. -/
structure Planned (maxEdits : Nat) (done : List (Splice UInt8)) (plan : Plan) : Prop where
  edits : plan.edits.map Edit.toSplice = if maxEdits < done.length then [] else done
  coalesce : plan.coalesce = decide (maxEdits < done.length)
  changed : plan.changed =
    done.head?.map fun first => ⟨first.start, (done.getLast?.getD first).stop⟩

theorem Planned.start : Planned maxEdits [] ⟨[], none, false⟩ := ⟨by simp, by simp, rfl⟩

theorem overlaps_iff {p : Nat} {e : Eol} :
    overlaps requested p e = true ↔
      requested.isEmpty = false ∧ p < requested.stop ∧ requested.start < p + e.len := by
  rw [overlaps, Bool.and_eq_true, Bool.and_eq_true, Bool.not_eq_true', decide_eq_true_eq,
    decide_eq_true_eq, and_assoc]

/-- A terminator that is to change is counted, and kept as an edit while there are few. -/
theorem Planned.mark {done : List (Splice UInt8)} {plan : Plan} (h : Planned maxEdits done plan)
    (requested : Range) (target : Eol) (m : Mark) :
    Planned maxEdits (done ++ (m.change (overlaps requested) target).toList)
      (plan.mark requested target maxEdits m) := by
  cases m with
  | byte b => exact (List.append_nil done).symm ▸ h
  | eol p e =>
    have hiff : overlaps requested p e = true ∧ e ≠ target ↔
        e ≠ target ∧ requested.isEmpty = false ∧ p < requested.stop ∧
          p + e.len > requested.start := by
      rw [overlaps_iff, and_comm]
    rw [Mark.change, Plan.mark, Plan.terminator]
    by_cases hchange : overlaps requested p e = true ∧ e ≠ target
    · rw [if_pos hchange, if_pos (hiff.mp hchange), Option.toList_some]
      have hlen : (done ++ [(⟨p, p + e.len, target.bytes⟩ : Splice UInt8)]).length =
          done.length + 1 := List.length_append
      -- What stays of the edits is decided by the count before this one.
      have hkeep : plan.coalesce = false ∧ plan.edits.length ≥ maxEdits ↔
          done.length = maxEdits := by
        have hedits := congrArg List.length h.edits
        rw [List.length_map] at hedits
        rw [h.coalesce, decide_eq_false_iff_not, hedits]
        split_ifs with hlt
        · omega
        · omega
      refine ⟨?_, ?_, ?_⟩
      · by_cases hfull : done.length = maxEdits
        · simp only [if_pos (hkeep.mpr hfull), if_true]
          rw [hlen, if_pos (by omega)]
          rfl
        · dsimp only
          rw [if_neg (hkeep.not.mpr hfull), h.coalesce, hlen]
          by_cases hlt : maxEdits < done.length
          · rw [if_pos (decide_eq_true hlt), h.edits, if_pos hlt, if_pos (by omega)]
          · rw [if_neg (by simpa using hlt), if_neg (by omega), List.map_append, h.edits,
              if_neg hlt]
            rfl
      · rw [hlen]
        by_cases hfull : done.length = maxEdits
        · simp only [if_pos (hkeep.mpr hfull)]
          exact (decide_eq_true (by omega)).symm
        · dsimp only
          rw [if_neg (hkeep.not.mpr hfull), h.coalesce]
          exact decide_eq_decide.mpr (by omega)
      · simp only [h.changed]
        cases done with
        | nil => rfl
        | cons first done =>
          rw [List.cons_append, List.head?_cons, Option.map_some, List.head?_cons,
            Option.map_some, Option.getD_some, ← List.cons_append, List.getLast?_concat]
          rfl
    · rw [if_neg hchange, if_neg (hiff.not.mp hchange), Option.toList_none, List.append_nil]
      exact h

theorem Planned.foldl {ms : List Mark} {done : List (Splice UInt8)} {plan : Plan}
    (h : Planned maxEdits done plan) :
    Planned maxEdits (done ++ ms.filterMap (Mark.change (overlaps requested) target))
      (ms.foldl (Plan.mark requested target maxEdits) plan) := by
  induction ms generalizing done plan with
  | nil => exact (List.append_nil done).symm ▸ h
  | cons m ms ih =>
    have hnext := ih (h.mark requested target m)
    rw [List.append_assoc] at hnext
    rw [List.foldl_cons, List.filterMap_cons]
    cases hm : m.change (overlaps requested) target with
    | none => rwa [hm] at hnext
    | some c => rwa [hm] at hnext

end Scan

end BareLine.Codec
