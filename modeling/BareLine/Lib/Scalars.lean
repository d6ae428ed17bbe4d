import Mathlib

/-!
# Texts as scalars with byte offsets

A text is a list of Unicode scalars; offsets into it count UTF-8 bytes (`String.utf8Len`),
and only the offsets between two scalars are boundaries.
-/

namespace BareLine.Lib

open String (utf8Len)

/-! ## §1 Cutting at an offset -/

/-- The two parts of a text at a byte offset, when it is a boundary. -/
def splitAtByte : List Char → Nat → Option (List Char × List Char)
  | text, 0 => some ([], text)
  | [], _ + 1 => none
  | c :: text, n + 1 =>
    if n + 1 < c.utf8Size then none
    else (splitAtByte text (n + 1 - c.utf8Size)).map fun parts => (c :: parts.1, parts.2)

/-- `str::is_char_boundary` -/
def isScalarBoundary (text : List Char) (offset : Nat) : Bool := (splitAtByte text offset).isSome

/-- `text.get(offset..)` -/
def getFrom (text : List Char) (offset : Nat) : Option (List Char) :=
  (splitAtByte text offset).map Prod.snd

/-- `text.drain(..offset)`, for an offset that is a boundary. -/
def dropBytes (text : List Char) (offset : Nat) : List Char := (getFrom text offset).getD []

@[simp] theorem splitAtByte_zero (text : List Char) : splitAtByte text 0 = some ([], text) := by
  cases text <;> rfl

/-- A text is cut behind a front. -/
theorem splitAtByte_append (a b : List Char) : splitAtByte (a ++ b) (utf8Len a) = some (a, b) := by
  induction a with
  | nil => exact splitAtByte_zero b
  | cons c a ih =>
    obtain ⟨n, hn⟩ := Nat.exists_eq_succ_of_ne_zero c.utf8Size_pos.ne'
    have hlen : utf8Len (c :: a) = utf8Len a + n + 1 := by rw [String.utf8Len_cons, hn, Nat.add_succ]
    rw [List.cons_append, hlen, splitAtByte, if_neg (by omega),
      show utf8Len a + n + 1 - c.utf8Size = utf8Len a by omega, ih]
    rfl

/-- A cut gives two parts whose first has the offset's length. -/
theorem splitAtByte_inv {text a b : List Char} {n : Nat} (h : splitAtByte text n = some (a, b)) :
    text = a ++ b ∧ utf8Len a = n := by
  fun_induction splitAtByte text n generalizing a b with
  | case1 text =>
    obtain ⟨rfl, rfl⟩ := Prod.mk.inj (Option.some.inj h)
    exact ⟨rfl, rfl⟩
  | case2 n => exact nomatch h
  | case3 c text n hlt => exact nomatch h
  | case4 c text n hge ih =>
    obtain ⟨⟨a', b'⟩, hparts, heq⟩ := Option.map_eq_some_iff.mp h
    obtain ⟨rfl, rfl⟩ := Prod.mk.inj heq
    obtain ⟨rfl, hlen⟩ := ih hparts
    refine ⟨rfl, ?_⟩
    rw [String.utf8Len_cons, hlen]
    omega

theorem splitAtByte_eq_some {text a b : List Char} {n : Nat} :
    splitAtByte text n = some (a, b) ↔ text = a ++ b ∧ utf8Len a = n := by
  refine ⟨splitAtByte_inv, ?_⟩
  rintro ⟨rfl, rfl⟩
  exact splitAtByte_append a b

/-! ## §2 Boundaries -/

/-- A boundary cuts the text into two. -/
theorem isScalarBoundary_iff {text : List Char} {n : Nat} :
    isScalarBoundary text n = true ↔ ∃ a b, text = a ++ b ∧ utf8Len a = n := by
  rw [isScalarBoundary, Option.isSome_iff_exists]
  constructor
  · rintro ⟨⟨a, b⟩, h⟩
    exact ⟨a, b, splitAtByte_eq_some.mp h⟩
  · rintro ⟨a, b, h⟩
    exact ⟨(a, b), splitAtByte_eq_some.mpr h⟩

@[simp] theorem isScalarBoundary_zero (text : List Char) : isScalarBoundary text 0 = true :=
  congrArg Option.isSome (splitAtByte_zero text)

@[simp] theorem isScalarBoundary_length (text : List Char) :
    isScalarBoundary text (utf8Len text) = true := by
  have hcut := splitAtByte_append text []
  rw [List.append_nil] at hcut
  exact congrArg Option.isSome hcut

theorem le_of_isScalarBoundary {text : List Char} {n : Nat} (h : isScalarBoundary text n = true) :
    n ≤ utf8Len text := by
  obtain ⟨a, b, rfl, rfl⟩ := isScalarBoundary_iff.mp h
  rw [String.utf8Len_append]
  exact Nat.le_add_right ..

/-- A boundary of a part is one of the whole text. -/
theorem isScalarBoundary_within {text : List Char} {n : Nat} (before after : List Char)
    (h : isScalarBoundary text n = true) :
    isScalarBoundary (before ++ (text ++ after)) (utf8Len before + n) = true := by
  obtain ⟨a, b, rfl, rfl⟩ := isScalarBoundary_iff.mp h
  exact isScalarBoundary_iff.mpr ⟨before ++ a, b ++ after, by simp, by simp⟩

@[simp] theorem getFrom_append (a b : List Char) : getFrom (a ++ b) (utf8Len a) = some b := by
  rw [getFrom, splitAtByte_append]
  rfl

@[simp] theorem dropBytes_append (a b : List Char) : dropBytes (a ++ b) (utf8Len a) = b := by
  rw [dropBytes, getFrom_append]
  rfl

end BareLine.Lib
