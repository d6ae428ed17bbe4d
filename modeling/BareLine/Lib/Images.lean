import BareLine.Lib.Scalars

/-!
# Lists and their images

A list whose elements are spelled in symbols, at least one each: `l.flatMap image`.  The
fronts of the list are ordered as the lengths of their images are, so a position of the image
belongs to one element.  For UTF-8 no position inside an element looks like a front of one.
-/

namespace BareLine.Lib

open String (utf8Len utf8EncodeChar)

/-! ## §1 Fronts and their images -/

section Images

variable {γ α : Type*} {image : γ → List α}

theorem length_flatMap_append (a b : List γ) :
    ((a ++ b).flatMap image).length = (a.flatMap image).length + (b.flatMap image).length := by
  rw [List.flatMap_append, List.length_append]

/-- Two fronts of a list are ordered as their images are long. -/
theorem isPrefix_of_flatMap_length_le (hne : ∀ c, image c ≠ []) {a b cs : List γ}
    (ha : a <+: cs) (hb : b <+: cs)
    (h : (a.flatMap image).length ≤ (b.flatMap image).length) : a <+: b := by
  by_cases hlen : a.length ≤ b.length
  · exact List.prefix_of_prefix_length_le ha hb hlen
  · obtain ⟨rest, rfl⟩ := List.prefix_of_prefix_length_le hb ha (Nat.le_of_not_le hlen)
    cases rest with
    | nil =>
      simp only [List.append_nil, List.prefix_refl]
    | cons c rest =>
      rw [length_flatMap_append, List.flatMap_cons, List.length_append] at h
      have hpos := List.length_pos_iff.mpr (hne c)
      omega

/-- Two fronts with images of one length are one front. -/
theorem eq_of_flatMap_length_eq (hne : ∀ c, image c ≠ []) {a b cs : List γ}
    (ha : a <+: cs) (hb : b <+: cs)
    (h : (a.flatMap image).length = (b.flatMap image).length) : a = b :=
  List.IsPrefix.eq_of_length_le (isPrefix_of_flatMap_length_le hne ha hb h.le)
    (isPrefix_of_flatMap_length_le hne hb ha h.ge).length_le

/-- A front whose image ends inside an element's image ends in front of the element. -/
theorem not_inside (hne : ∀ c, image c ≠ []) {a b d cs : List γ} {c : γ} {k : Nat}
    (hcs : cs = a ++ c :: b) (hd : d <+: cs) (hk : k < (image c).length)
    (h : (d.flatMap image).length = (a.flatMap image).length + k) : k = 0 ∧ d = a := by
  have ha : a <+: cs := ⟨c :: b, hcs.symm⟩
  obtain ⟨rest, rfl⟩ := isPrefix_of_flatMap_length_le hne ha hd (by omega)
  cases rest with
  | nil =>
    rw [List.append_nil] at h ⊢
    exact ⟨by omega, rfl⟩
  | cons e rest =>
    rw [hcs, List.prefix_append_right_inj, List.cons_prefix_cons] at hd
    rw [length_flatMap_append, List.flatMap_cons, List.length_append, hd.1] at h
    omega

end Images

/-! ## §2 The UTF-8 image of a text -/

/-- The bytes of a text. -/
def encode (text : List Char) : List UInt8 := text.flatMap utf8EncodeChar

@[simp] theorem encode_nil : encode [] = [] := rfl

@[simp] theorem encode_append (a b : List Char) : encode (a ++ b) = encode a ++ encode b :=
  List.flatMap_append

@[simp] theorem length_encode (text : List Char) : (encode text).length = utf8Len text := by
  induction text with
  | nil => rfl
  | cons c text ih =>
    rw [encode, List.flatMap_cons, List.length_append, String.length_utf8EncodeChar,
      String.utf8Len_cons, Nat.add_comm]
    exact congrArg (· + c.utf8Size) ih

theorem encode_eq_nil {text : List Char} (h : encode text = []) : text = [] := by
  rw [← String.utf8Len_eq_zero, ← length_encode, h, List.length_nil]

/-- Two fronts of a text are ordered as they are long in bytes. -/
theorem isPrefix_of_utf8Len_le {a b text : List Char} (ha : a <+: text) (hb : b <+: text)
    (h : utf8Len a ≤ utf8Len b) : a <+: b := by
  rw [← length_encode, ← length_encode] at h
  exact isPrefix_of_flatMap_length_le (fun _ => String.utf8EncodeChar_ne_nil) ha hb h

/-- A first byte stands in front of a scalar. -/
theorem exists_front {text : List Char} {x y : List UInt8} {b : UInt8}
    (h : encode text = x ++ b :: y) (hb : b.IsUTF8FirstByte) :
    ∃ front rest, text = front ++ rest ∧ encode front = x := by
  induction text generalizing x with
  | nil => exact absurd h.symm (List.append_ne_nil_of_right_ne_nil _ (List.cons_ne_nil b y))
  | cons c text ih =>
    have h : utf8EncodeChar c ++ encode text = x ++ b :: y := h
    rcases List.append_eq_append_iff.mp h with ⟨x', rfl, hrest⟩ | ⟨z, hc, hrest⟩
    · obtain ⟨front, rest, rfl, rfl⟩ := ih hrest
      exact ⟨c :: front, rest, rfl, rfl⟩
    · cases z with
      | nil =>
        rw [List.append_nil] at hc
        exact ⟨[c], text, rfl, by rw [encode, List.flatMap_cons, List.flatMap_nil,
          List.append_nil, hc]⟩
      | cons b' z =>
        obtain ⟨rfl, -⟩ := List.cons.inj hrest
        -- the byte is one of `c`, so it is its first
        have hx : x.length < (utf8EncodeChar c).length := by
          rw [hc, List.length_append, List.length_cons]
          omega
        have hget : (utf8EncodeChar c)[x.length] = b := by
          simp only [hc, List.getElem_append_right (Nat.le_refl _), Nat.sub_self,
            List.getElem_cons_zero]
        rw [← hget, UInt8.isUTF8FirstByte_getElem_utf8EncodeChar] at hb
        rw [List.length_eq_zero_iff.mp hb]
        exact ⟨[], c :: text, rfl, rfl⟩

/-- Bytes that start with the bytes of a text are those of a text that starts with it. -/
theorem isPrefix_of_encode {text front : List Char} {y : List UInt8}
    (h : encode text = encode front ++ y) : front <+: text := by
  induction front generalizing text with
  | nil => exact List.nil_prefix
  | cons c front ih =>
    cases text with
    | nil =>
      have h := (List.append_eq_nil_iff.mp h.symm).1
      exact nomatch encode_eq_nil h
    | cons d text =>
      have h : utf8EncodeChar d ++ encode text = utf8EncodeChar c ++ (encode front ++ y) := by
        rw [← List.append_assoc]
        exact h
      have hdecode := congrArg (fun bytes => ByteArray.utf8DecodeChar? bytes.toByteArray 0) h
      simp only [List.toByteArray_append, ByteArray.utf8DecodeChar?_utf8EncodeChar_append,
        Option.some.injEq] at hdecode
      subst hdecode
      rw [List.cons_prefix_cons]
      exact ⟨rfl, ih (List.append_cancel_left h)⟩

/-- The bytes of a text occur in another text only as those of a part of it. -/
theorem exists_part {text part : List Char} {x y : List UInt8} (hne : part ≠ [])
    (h : encode text = x ++ (encode part ++ y)) :
    ∃ before after, text = before ++ (part ++ after) ∧ encode before = x := by
  cases part with
  | nil => exact absurd rfl hne
  | cons c part =>
    obtain ⟨b, bytes, hbytes⟩ := List.exists_cons_of_ne_nil (String.utf8EncodeChar_ne_nil (c := c))
    have hb : b.IsUTF8FirstByte := by
      have hfirst := UInt8.isUTF8FirstByte_getElem_zero_utf8EncodeChar (c := c)
      simpa only [hbytes, List.getElem_cons_zero] using hfirst
    have hsplit : encode text = x ++ b :: (bytes ++ encode part ++ y) := by
      rw [h, encode, List.flatMap_cons, hbytes]
      rfl
    obtain ⟨before, rest, rfl, rfl⟩ := exists_front hsplit hb
    rw [encode_append] at h
    obtain ⟨after, rfl⟩ := isPrefix_of_encode (List.append_cancel_left h)
    exact ⟨before, after, rfl, rfl⟩

theorem encode_injective {a b : List Char} (h : encode a = encode b) : a = b := by
  have hfront : b <+: a := isPrefix_of_encode (show encode a = encode b ++ [] by simp [h])
  have hback : a <+: b := isPrefix_of_encode (show encode b = encode a ++ [] by simp [h])
  exact hback.eq_of_length_le hfront.length_le

/-- Two cuts of a text, the first no later than the second. -/
theorem append_of_utf8Len_le {a b c d : List Char} (h : a ++ b = c ++ d)
    (hle : utf8Len a ≤ utf8Len c) : ∃ mid, c = a ++ mid ∧ b = mid ++ d := by
  obtain ⟨mid, rfl⟩ := isPrefix_of_utf8Len_le ⟨b, rfl⟩ ⟨d, h.symm⟩ hle
  rw [List.append_assoc] at h
  exact ⟨mid, rfl, List.append_cancel_left h⟩

/-- A text is cut at an offset in one way. -/
theorem append_inj_of_utf8Len {a b c d : List Char} (h : a ++ b = c ++ d)
    (hlen : utf8Len a = utf8Len c) : a = c ∧ b = d := by
  obtain ⟨mid, rfl, rfl⟩ := append_of_utf8Len_le h hlen.le
  rw [String.utf8Len_append] at hlen
  have hnil : mid = [] := String.utf8Len_eq_zero.mp (by omega)
  subst hnil
  exact ⟨(List.append_nil a).symm, rfl⟩

/-- A byte that is a scalar of its own stands for that scalar. -/
theorem getElem?_encode {c : Char} {b : UInt8} (hb : utf8EncodeChar c = [b]) {text : List Char}
    {q : Nat} : (encode text)[q]? = some b ↔
      ∃ before after, text = before ++ c :: after ∧ utf8Len before = q := by
  have hpart : encode [c] = [b] := by rw [encode, List.flatMap_singleton, hb]
  constructor
  · intro h
    obtain ⟨hlt, hget⟩ := List.getElem?_eq_some_iff.mp h
    have hcut : encode text = (encode text).take q ++ (encode [c] ++ (encode text).drop (q + 1)) := by
      rw [hpart, ← hget, List.singleton_append, List.getElem_cons_drop, List.take_append_drop]
    obtain ⟨before, after, htext, hbefore⟩ := exists_part (List.cons_ne_nil c []) hcut
    refine ⟨before, after, htext, ?_⟩
    rw [← length_encode, hbefore, List.length_take]
    omega
  · rintro ⟨before, after, rfl, rfl⟩
    rw [← List.singleton_append, encode_append, encode_append, hpart,
      List.getElem?_append_right (length_encode before).le, length_encode, Nat.sub_self]
    rfl

end BareLine.Lib
