import BareLine.Lib.Splice
import BareLine.Basic

/-!
# Recovery vocabulary

The errors of the recovery module, its `u64` arithmetic, and the edits it journals.  A
`RecoveryEdit` owns the bytes it removes and the bytes it inserts, so it is a `Change` of
the splice library; sorted, disjoint edits whose removed bytes match a text are a `Patch`
of it.
-/

namespace BareLine

open Lib

/-! ## §1 Errors -/

/-- The kinds of `std::io::ErrorKind` that recovery tells apart. -/
inductive ErrorKind where
  | notFound
  | alreadyExists
  | invalidData
  | unexpectedEof
  | interrupted
  | outOfMemory
  | other
  deriving DecidableEq, Repr

/-- `std::io::Error` -/
structure IoError where
  kind : ErrorKind
  message : String
  deriving DecidableEq, Repr

/-- `invalid` -/
def invalid (message : String) : IoError := ⟨.invalidData, message⟩

/-! ## §2 `u64` arithmetic -/

/-- `u64::MAX` -/
def u64Max : Nat := 2 ^ 64 - 1

/-- `u64` addition, as the release build computes it. -/
def wrappingAdd (a b : Nat) : Nat := (a + b) % 2 ^ 64

/-- `u64::try_from` on an `i128` -/
def u64TryFrom (n : Int) : Option Nat := if 0 ≤ n ∧ n ≤ u64Max then some n.toNat else none

theorem wrappingAdd_eq {a b : Nat} (h : a + b ≤ u64Max) : wrappingAdd a b = a + b := by
  apply Nat.mod_eq_of_lt
  show a + b < 2 ^ 64
  exact Nat.lt_of_le_of_lt h (by decide)

/-- A value in range is itself. -/
theorem u64TryFrom_natCast {n : Nat} (h : n ≤ u64Max) : u64TryFrom (n : Int) = some n := by
  rw [u64TryFrom, if_pos ⟨Int.natCast_nonneg n, Int.ofNat_le.mpr h⟩, Int.toNat_natCast]

/-- `checked_add` in range, which is that of `usize` too. -/
theorem checkedAdd_eq {a b : Nat} (h : a + b ≤ u64Max) : checkedAdd a b = some (a + b) :=
  if_pos h

/-- `offset.checked_add(len).filter(|end| *end <= limit)` -/
def endWithin (offset len limit : Nat) : Option Nat :=
  (checkedAdd offset len).filter fun stop => decide (stop ≤ limit)

theorem endWithin_eq_some {a b limit stop : Nat} (hlimit : limit ≤ u64Max) :
    endWithin a b limit = some stop ↔ a + b ≤ limit ∧ stop = a + b := by
  rw [endWithin, Option.filter_eq_some_iff, checkedAdd_eq_some, decide_eq_true_eq]
  constructor
  · rintro ⟨⟨-, rfl⟩, hle⟩
    exact ⟨hle, rfl⟩
  · rintro ⟨hle, rfl⟩
    exact ⟨⟨Nat.le_trans hle hlimit, rfl⟩, hle⟩

/-! ## §3 Edits -/

/-- `RecoveryEdit`: `removed` at `offset` of the text before the transaction gives way to
`inserted`. -/
abbrev RecoveryEdit := Change UInt8

/-- The edits are sorted and disjoint within the text, and each removes the bytes the text
has there. -/
def Matches (edits : List RecoveryEdit) (text : Bytes) : Prop :=
  Ordered 0 (edits.map Change.toSplice) text.length ∧
    ∀ e ∈ edits, e.removed = (⟨e.offset, e.stop⟩ : Range).of text

instance (edits : List RecoveryEdit) (text : Bytes) : Decidable (Matches edits text) :=
  inferInstanceAs (Decidable (Ordered 0 (edits.map Change.toSplice) text.length ∧
    ∀ e ∈ edits, e.removed = (⟨e.offset, e.stop⟩ : Range).of text))

/-- The text after the edits. -/
def applyEdits (edits : List RecoveryEdit) (text : Bytes) : Bytes :=
  splice (edits.map Change.toSplice) text

theorem patch_iff_matches {edits : List RecoveryEdit} {t u : Bytes} :
    Patch 0 edits t u ↔ Matches edits t ∧ applyEdits edits t = u :=
  patch_iff.trans and_assoc.symm

theorem Matches.patch {edits : List RecoveryEdit} {t : Bytes} (h : Matches edits t) :
    Patch 0 edits t (applyEdits edits t) :=
  patch_iff_matches.mpr ⟨h, rfl⟩

/-! ## §4 Journal records -/

/-- `DurableReceipt` -/
structure DurableReceipt where
  revision : Nat
  protectedUnixMs : Nat
  deriving DecidableEq, Repr

/-- `Blob`: a file by name, with the length and hash it must have. -/
structure Blob where
  name : String
  len : Nat
  sha256 : Bytes
  deriving DecidableEq, Repr

/-- `EditRef`: an edit whose bytes are in the record's segment file, removed bytes first. -/
structure EditRef where
  offset : Nat
  removed : Nat
  inserted : Nat
  deriving DecidableEq, Repr

/-- `Record` -/
structure Record where
  version : Nat
  metadata : Option (List (String × String))
  receipt : DurableReceipt
  segment : Blob
  edits : List EditRef
  deriving DecidableEq, Repr

/-- A directory: the files in it by name. -/
abbrev Files := String → Option Bytes

/-- `File::open` on an existing file. -/
def Files.openFile (files : Files) (name : String) : Except IoError Bytes :=
  match files name with
  | some bytes => .ok bytes
  | none => .error ⟨.notFound, "No such file or directory"⟩

/-- `seek` then `read_exact` -/
def readExact (file : Bytes) (offset len : Nat) : Except IoError Bytes :=
  if offset + len ≤ file.length then .ok ((⟨offset, offset + len⟩ : Range).of file)
  else .error ⟨.unexpectedEof, "failed to fill whole buffer"⟩

/-! ## §5 What a record does to a text -/

/-- Cut a segment into the edits' bytes; the edits must use all of it. -/
def cutSegment : List EditRef → Bytes → Option (List RecoveryEdit)
  | [], [] => some []
  | [], _ :: _ => none
  | e :: es, segment =>
    if e.removed + e.inserted ≤ segment.length then
      (cutSegment es (segment.drop (e.removed + e.inserted))).map
        (⟨e.offset, segment.take e.removed, (segment.drop e.removed).take e.inserted⟩ :: ·)
    else none

/-- The text after a record, where the record applies. -/
def replayRecord (files : Files) (text : Bytes) (record : Record) : Option Bytes := do
  let segment ← files record.segment.name
  let edits ← cutSegment record.edits segment
  if Matches edits text then some (applyEdits edits text) else none

/-- The longest run of records that apply one after the other: how many, and the text they
leave. -/
def replayPrefix (files : Files) : Bytes → List Record → Nat × Bytes
  | text, [] => (0, text)
  | text, record :: rest =>
    match replayRecord files text record with
    | none => (0, text)
    | some text =>
      let (count, final) := replayPrefix files text rest
      (count + 1, final)

end BareLine
