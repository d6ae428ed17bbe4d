import BareLine.Search.Types
import BareLine.Lib.Images

/-!
# The bytes a search compares

A search compares bytes: those of the text, or those of its scalars' case foldings.  The
folding is a generated table; one scalar folds to a short string, whose bytes all carry the
scalar's range.  `MappedBytes` yields them one at a time.
-/

namespace BareLine.Search

open Lib
open String (utf8Len)

/-! ## §1 The folding table -/

/-- The generated table `FOLD`: sorted, and each image is a string of one to twelve bytes. -/
structure CaseFolding where
  entries : List (Char × Text)
  sorted : entries.Pairwise fun a b => a.1 < b.1
  nonempty : ∀ entry ∈ entries, entry.2 ≠ []
  fits : ∀ entry ∈ entries, utf8Len entry.2 ≤ 12

namespace CaseFolding

variable (folding : CaseFolding)

/-- `unicode_fold::character` -/
def character (c : Char) : Text :=
  if c.toNat < 128 then [c.toLower] else (folding.entries.lookup c).getD [c]

/-- An image is the scalar alone or one of the table. -/
theorem character_cases (c : Char) :
    (∃ d, folding.character c = [d]) ∨ (c, folding.character c) ∈ folding.entries := by
  rw [character]
  split
  · exact .inl ⟨_, rfl⟩
  · cases hlookup : folding.entries.lookup c with
    | none => exact .inl ⟨c, rfl⟩
    | some image =>
      exact .inr (List.lookup_eq_some_iff.mp hlookup |>.elim fun _ ⟨_, h, _⟩ => by simp [h])

theorem character_ne_nil (c : Char) : folding.character c ≠ [] := by
  rcases folding.character_cases c with ⟨d, h⟩ | hentry
  · rw [h]
    exact List.cons_ne_nil d []
  · exact folding.nonempty _ hentry

theorem character_fits (c : Char) : utf8Len (folding.character c) ≤ 12 := by
  rcases folding.character_cases c with ⟨d, h⟩ | hentry
  · have hsize := d.utf8Size_le_four
    rw [h, String.utf8Len_cons, String.utf8Len_nil]
    omega
  · exact folding.fits _ hentry

/-- The bytes of a scalar's folding. -/
def image (c : Char) : List UInt8 := encode (folding.character c)

theorem image_ne_nil (c : Char) : folding.image c ≠ [] := fun h =>
  folding.character_ne_nil c (encode_eq_nil h)

theorem length_image_le (c : Char) : (folding.image c).length ≤ 12 := by
  rw [image, length_encode]
  exact folding.character_fits c

end CaseFolding

/-! ## §2 The bytes of a chunk -/

/-- `fold::Unit`: a byte and the range in the document that it comes from. -/
structure MappedUnit where
  byte : UInt8
  start : Nat
  stop : Nat
  first : Bool
  last : Bool
  deriving DecidableEq, Repr

/-- `MappedBytes` -/
structure MappedBytes where
  text : Text
  base : Nat
  cursor : Nat
  folded : Bool
  buffer : List UInt8
  used : Nat
  position : Nat
  start : Nat
  deriving DecidableEq, Repr

namespace MappedBytes

/-- `MappedBytes::new` -/
def new (text : Text) (base : Nat) (folded : Bool) : MappedBytes where
  text := text
  base := base
  cursor := 0
  folded := folded
  buffer := List.replicate 12 0
  used := 0
  position := 0
  start := 0

variable (folding : CaseFolding)

/-- The scalar at the cursor is folded into the buffer. -/
def load (self : MappedBytes) : Option MappedBytes :=
  ((getFrom self.text self.cursor).bind List.head?).map fun c =>
    let mapped := folding.image c
    { self with
      start := self.base + self.cursor
      cursor := self.cursor + c.utf8Size
      used := mapped.length
      buffer := mapped ++ self.buffer.drop mapped.length
      position := 0 }

/-- `Iterator::next` -/
def next (self : MappedBytes) : Option (MappedUnit × MappedBytes) :=
  if !self.folded then
    (encode self.text)[self.cursor]?.map fun byte =>
      let start := self.base + self.cursor
      (⟨byte, start, start + 1, true, true⟩, { self with cursor := self.cursor + 1 })
  else
    (if self.position = self.used then self.load folding else some self).map fun self =>
      (⟨self.buffer.getD self.position 0, self.start, self.base + self.cursor,
        self.position == 0, self.position + 1 == self.used⟩,
        { self with position := self.position + 1 })

/-- What the iterator yields. -/
def yields : Nat → MappedBytes → List MappedUnit
  | 0, _ => []
  | fuel + 1, self =>
    match self.next folding with
    | none => []
    | some (unit, self) => unit :: yields fuel self

/-- All the iterator yields: a chunk has at most twelve bytes to compare for each of its own. -/
def all (self : MappedBytes) : List MappedUnit := self.yields folding (12 * utf8Len self.text + 1)

end MappedBytes

/-! ## §3 What they are -/

/-- The bytes themselves, one range each. -/
def byteUnits : Nat → List UInt8 → List MappedUnit
  | _, [] => []
  | start, b :: rest => ⟨b, start, start + 1, true, true⟩ :: byteUnits (start + 1) rest

/-- The bytes of one scalar's image. -/
def spell (start stop : Nat) : Bool → List UInt8 → List MappedUnit
  | _, [] => []
  | first, b :: rest => ⟨b, start, stop, first, rest.isEmpty⟩ :: spell start stop false rest

/-- The bytes of the images of a text's scalars. -/
def scalarUnits (image : Char → List UInt8) : Nat → Text → List MappedUnit
  | _, [] => []
  | start, c :: text =>
    spell start (start + c.utf8Size) true (image c) ++ scalarUnits image (start + c.utf8Size) text

theorem byteUnits_append (start : Nat) (x y : List UInt8) :
    byteUnits start (x ++ y) = byteUnits start x ++ byteUnits (start + x.length) y := by
  induction x generalizing start with
  | nil => rfl
  | cons b x ih =>
    rw [List.cons_append, byteUnits, byteUnits, ih, List.length_cons, List.cons_append,
      Nat.add_assoc, Nat.add_comm 1]

theorem scalarUnits_append (image : Char → List UInt8) (start : Nat) (a b : Text) :
    scalarUnits image start (a ++ b) =
      scalarUnits image start a ++ scalarUnits image (start + utf8Len a) b := by
  induction a generalizing start with
  | nil => rfl
  | cons c a ih =>
    rw [List.cons_append, scalarUnits, scalarUnits, ih, List.append_assoc, String.utf8Len_cons,
      Nat.add_assoc, Nat.add_comm c.utf8Size]

variable {folding : CaseFolding}

/-- Without folding the bytes from the cursor on are yielded. -/
theorem yields_bytes {text : Text} {base cursor : Nat} {buffer : List UInt8}
    {used position start fuel : Nat} (hfuel : (encode text).length < cursor + fuel) :
    MappedBytes.yields folding fuel ⟨text, base, cursor, false, buffer, used, position, start⟩ =
      byteUnits (base + cursor) ((encode text).drop cursor) := by
  induction fuel generalizing cursor with
  | zero => rw [List.drop_eq_nil_of_le (by omega)]; rfl
  | succ fuel ih =>
    rw [MappedBytes.yields, MappedBytes.next, Bool.not_false, if_pos rfl]
    cases hbyte : (encode text)[cursor]? with
    | none => rw [List.drop_eq_nil_of_le (List.getElem?_eq_none_iff.mp hbyte)]; rfl
    | some byte =>
      obtain ⟨hlt, rfl⟩ := List.getElem?_eq_some_iff.mp hbyte
      rw [List.drop_eq_getElem_cons hlt, byteUnits]
      exact congrArg _ (@ih (cursor + 1) (by omega))

/-- With folding the rest of the scalar in the buffer is yielded, then the scalars that follow. -/
theorem yields_scalars {base start position : Nat} {done rest : Text}
    {mapped extra : List UInt8} (hposition : position ≤ mapped.length) {fuel : Nat}
    (hfuel : 12 * utf8Len rest + (mapped.length - position) < fuel) :
    MappedBytes.yields folding fuel ⟨done ++ rest, base, utf8Len done, true, mapped ++ extra,
        mapped.length, position, start⟩ =
      spell start (base + utf8Len done) (position == 0) (mapped.drop position) ++
        scalarUnits folding.image (base + utf8Len done) rest := by
  induction fuel generalizing done rest mapped extra position start with
  | zero => exact absurd hfuel (Nat.not_lt_zero _)
  | succ fuel ih =>
    rw [MappedBytes.yields, MappedBytes.next]
    simp only [Bool.not_true, Bool.false_eq_true, if_false]
    by_cases hempty : position = mapped.length
    · rw [if_pos hempty, List.drop_eq_nil_of_le hempty.ge, spell, List.nil_append,
        MappedBytes.load, getFrom_append]
      cases rest with
      | nil => rfl
      | cons c rest =>
        -- the next scalar is folded into the buffer
        have hsize := c.utf8Size_pos
        have hshort := folding.length_image_le c
        obtain ⟨b, image, himage⟩ := List.exists_cons_of_ne_nil (folding.image_ne_nil c)
        rw [String.utf8Len_cons] at hfuel
        have hnext := @ih (base + utf8Len done) 1 (done ++ [c]) rest (folding.image c)
          ((mapped ++ extra).drop (folding.image c).length) (by simp [himage]) (by
            rw [himage] at hshort ⊢
            simp only [List.length_cons] at hshort ⊢
            omega)
        simp only [List.append_assoc, List.singleton_append, String.utf8Len_append,
          String.utf8Len_cons, String.utf8Len_nil, Nat.zero_add] at hnext
        simp only [Option.bind_some, List.head?_cons, Option.map_some, Nat.zero_add]
        have hlast : (image.length == 0) = image.isEmpty := by cases image <;> rfl
        rw [hnext, scalarUnits, himage, spell]
        simp [Nat.add_assoc, hlast]
    · have hlt : position < mapped.length := by omega
      have hnext := @ih start (position + 1) done rest mapped extra hlt (by omega)
      rw [if_neg hempty, Option.map_some]
      dsimp only
      rw [hnext, List.drop_eq_getElem_cons hlt, spell, List.getD_append _ _ _ _ hlt,
        List.getD_eq_getElem _ _ hlt]
      have hlast : (position + 1 == mapped.length) = (mapped.drop (position + 1)).isEmpty := by
        rw [Bool.eq_iff_iff, beq_iff_eq, List.isEmpty_iff, List.drop_eq_nil_iff]
        omega
      rw [hlast]
      rfl

/-- The bytes of a scalar that are compared. -/
def imageOf (folding : CaseFolding) (folded : Bool) : Char → List UInt8 :=
  if folded then folding.image else String.utf8EncodeChar

theorem imageOf_ne_nil (folded : Bool) (c : Char) : imageOf folding folded c ≠ [] := by
  cases folded with
  | false => exact String.utf8EncodeChar_ne_nil
  | true => exact folding.image_ne_nil c

/-- The bytes of a text that are compared. -/
def unitsOf (folding : CaseFolding) (folded : Bool) (base : Nat) (text : Text) :
    List MappedUnit :=
  if folded then scalarUnits folding.image base text else byteUnits base (encode text)

/-- All that is yielded of a chunk. -/
theorem all_eq (text : Text) (base : Nat) (folded : Bool) :
    (MappedBytes.new text base folded).all folding =
      unitsOf folding folded base text := by
  cases folded with
  | false =>
    refine (yields_bytes ?_).trans ?_
    · rw [length_encode]
      simp only [MappedBytes.new]
      omega
    · rw [Nat.add_zero, List.drop_zero]
      rfl
  | true =>
    exact @yields_scalars folding base 0 0 [] text [] (List.replicate 12 0) (Nat.le_refl 0)
      (12 * utf8Len text + 1) (Nat.lt_succ_self _)

theorem unitsOf_append (folded : Bool) (base : Nat) (a b : Text) :
    unitsOf folding folded base (a ++ b) =
      unitsOf folding folded base a ++ unitsOf folding folded (base + utf8Len a) b := by
  cases folded with
  | false =>
    have h := byteUnits_append base (encode a) (encode b)
    rwa [length_encode, ← encode_append] at h
  | true => exact scalarUnits_append folding.image base a b

theorem map_byte_byteUnits (start : Nat) (bytes : List UInt8) :
    (byteUnits start bytes).map MappedUnit.byte = bytes := by
  induction bytes generalizing start with
  | nil => rfl
  | cons b bytes ih => rw [byteUnits, List.map_cons, ih]

theorem map_byte_spell (start stop : Nat) (first : Bool) (bytes : List UInt8) :
    (spell start stop first bytes).map MappedUnit.byte = bytes := by
  induction bytes generalizing first with
  | nil => rfl
  | cons b bytes ih => rw [spell, List.map_cons, ih]

theorem map_byte_unitsOf (folding : CaseFolding) (folded : Bool) (base : Nat) (text : Text) :
    (unitsOf folding folded base text).map MappedUnit.byte =
      text.flatMap (imageOf folding folded) := by
  cases folded with
  | false => exact map_byte_byteUnits base (encode text)
  | true =>
    change (scalarUnits folding.image base text).map _ = text.flatMap folding.image
    induction text generalizing base with
    | nil => rfl
    | cons c text ih =>
      rw [scalarUnits, List.map_append, map_byte_spell, ih, List.flatMap_cons]

theorem length_spell (start stop : Nat) (first : Bool) (bytes : List UInt8) :
    (spell start stop first bytes).length = bytes.length := by
  rw [← List.length_map MappedUnit.byte, map_byte_spell]

/-- The places of the bytes of an image. -/
theorem spell_place {start stop : Nat} {first : Bool} {bytes : List UInt8}
    {before after : List MappedUnit} {unit : MappedUnit}
    (h : spell start stop first bytes = before ++ unit :: after) :
    unit.start = start ∧ unit.stop = stop ∧ unit.first = (first && before.length == 0) ∧
      unit.last = (before.length + 1 == bytes.length) := by
  induction bytes generalizing first before with
  | nil => exact absurd h.symm (List.append_ne_nil_of_right_ne_nil _ (List.cons_ne_nil _ _))
  | cons b bytes ih =>
    cases before with
    | nil =>
      obtain ⟨rfl, -⟩ := List.cons.inj h
      refine ⟨rfl, rfl, (Bool.and_true first).symm, ?_⟩
      cases bytes <;> rfl
    | cons v before =>
      obtain ⟨-, hrest⟩ := List.cons.inj h
      obtain ⟨hstart, hstop, hfirst, hlast⟩ := ih hrest
      refine ⟨hstart, hstop, ?_, ?_⟩
      · rw [hfirst, Bool.false_and]
        exact (Bool.and_false first).symm
      · rw [hlast, List.length_cons, List.length_cons, Bool.eq_iff_iff, beq_iff_eq, beq_iff_eq]
        exact (Nat.add_right_cancel_iff (n := 1)).symm

/-- The place of a byte of a folded text: its scalar's range, and where in its image it is. -/
theorem scalarUnits_place {image : Char → List UInt8} {base : Nat} {text : Text}
    {before after : List MappedUnit} {unit : MappedUnit}
    (h : scalarUnits image base text = before ++ unit :: after) :
    ∃ a c b k, text = a ++ c :: b ∧ k < (image c).length ∧
      before.length = (a.flatMap image).length + k ∧ unit.start = base + utf8Len a ∧
      unit.stop = base + utf8Len (a ++ [c]) ∧ unit.first = (k == 0) ∧
      unit.last = (k + 1 == (image c).length) := by
  induction text generalizing base before with
  | nil => exact absurd h.symm (List.append_ne_nil_of_right_ne_nil _ (List.cons_ne_nil _ _))
  | cons c text ih =>
    -- a byte behind the first scalar's
    have hlater : ∀ rest, before = spell base (base + c.utf8Size) true (image c) ++ rest →
        scalarUnits image (base + c.utf8Size) text = rest ++ unit :: after →
        ∃ a d b k, c :: text = a ++ d :: b ∧ k < (image d).length ∧
          before.length = (a.flatMap image).length + k ∧ unit.start = base + utf8Len a ∧
          unit.stop = base + utf8Len (a ++ [d]) ∧ unit.first = (k == 0) ∧
          unit.last = (k + 1 == (image d).length) := fun rest hbefore hrest => by
      obtain ⟨a, d, b, k, rfl, hk, hlen, hstart, hstop, hflags⟩ := ih hrest
      refine ⟨c :: a, d, b, k, rfl, hk, ?_, ?_, ?_, hflags⟩
      · rw [hbefore, List.length_append, length_spell, hlen, List.flatMap_cons,
          List.length_append, Nat.add_assoc]
      · rw [hstart, String.utf8Len_cons]
        omega
      · rw [hstop, List.cons_append, String.utf8Len_cons]
        omega
    rcases List.append_eq_append_iff.mp h with ⟨rest, hbefore, hrest⟩ | ⟨rest, hspell, hrest⟩
    · exact hlater rest hbefore hrest
    · cases rest with
      | nil =>
        rw [List.append_nil] at hspell
        exact hlater [] (by rw [hspell, List.append_nil]) hrest.symm
      | cons unit' rest =>
        obtain ⟨rfl, -⟩ := List.cons.inj hrest
        obtain ⟨hstart, hstop, hfirst, hlast⟩ := spell_place hspell
        refine ⟨[], c, text, before.length, rfl, ?_, (Nat.zero_add _).symm, hstart, ?_, hfirst,
          hlast⟩
        · have hlen := congrArg List.length hspell
          rw [length_spell, List.length_append, List.length_cons] at hlen
          omega
        · rw [hstop, List.nil_append, String.utf8Len_cons, String.utf8Len_nil, Nat.zero_add]

/-- The place of a byte that is compared as it is. -/
theorem byteUnits_place {base : Nat} {bytes : List UInt8}
    {before after : List MappedUnit} {unit : MappedUnit}
    (h : byteUnits base bytes = before ++ unit :: after) :
    unit.stop = base + before.length + 1 ∧ unit.last = true := by
  induction bytes generalizing base before with
  | nil => exact absurd h.symm (List.append_ne_nil_of_right_ne_nil _ (List.cons_ne_nil _ _))
  | cons b bytes ih =>
    cases before with
    | nil =>
      obtain ⟨rfl, -⟩ := List.cons.inj h
      exact ⟨rfl, rfl⟩
    | cons v before =>
      obtain ⟨-, hrest⟩ := List.cons.inj h
      rw [List.length_cons, Nat.add_comm before.length, ← Nat.add_assoc]
      exact ih hrest

/-! ## §4 Extended escapes -/

/-- `char::to_digit(16)` -/
def toDigit (c : Char) : Option Nat :=
  if '0' ≤ c ∧ c ≤ '9' then some (c.toNat - '0'.toNat)
  else if 'a' ≤ c ∧ c ≤ 'f' then some (c.toNat - 'a'.toNat + 10)
  else if 'A' ≤ c ∧ c ≤ 'F' then some (c.toNat - 'A'.toNat + 10)
  else none

/-- `char::from_u32` -/
def fromU32 (code : Nat) : Option Char :=
  if code.isValidChar then some (Char.ofNat code) else none

/-- `hexadecimal`, over the digits it takes. -/
def hexadecimal (digits : Text) : Option Char := do
  let code ← digits.foldlM (fun code c => do
    let digit ← toDigit c
    if code * 16 + digit < 2 ^ 32 then some (code * 16 + digit) else none) 0
  fromU32 code

/-- `extended::decode` -/
def decode : Text → Option Text
  | [] => some []
  | '\\' :: rest =>
    match rest with
    | '\\' :: rest => (decode rest).map ('\\' :: ·)
    | 'n' :: rest => (decode rest).map ('\n' :: ·)
    | 'r' :: rest => (decode rest).map ('\r' :: ·)
    | 't' :: rest => (decode rest).map ('\t' :: ·)
    | '0' :: rest => (decode rest).map ('\x00' :: ·)
    | 'x' :: a :: b :: rest => do
      let c ← hexadecimal [a, b]
      (decode rest).map (c :: ·)
    | 'u' :: a :: b :: c :: d :: rest => do
      let c ← hexadecimal [a, b, c, d]
      (decode rest).map (c :: ·)
    | 'U' :: a :: b :: c :: d :: e :: f :: g :: h :: rest => do
      let c ← hexadecimal [a, b, c, d, e, f, g, h]
      (decode rest).map (c :: ·)
    | _ => none
  | c :: rest => (decode rest).map (c :: ·)

/-- A pattern with escapes decodes to at least one scalar. -/
theorem decode_ne_nil {pattern decoded : Text} (h : decode pattern = some decoded)
    (hne : pattern ≠ []) : decoded ≠ [] := by
  rintro rfl
  rw [decode.eq_def] at h
  split at h
  · exact hne rfl
  · split at h <;> simp [Option.bind_eq_some_iff] at h
  · simp at h

end BareLine.Search
