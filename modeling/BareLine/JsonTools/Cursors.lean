import BareLine.JsonTools.Pages

/-!
# Cursors travel as text

The arguments a page offers are read back as the cursor they were written from.
-/

namespace BareLine.JsonTools

open Search (Text)
open Power (trim trimStart trimEnd isWhitespace)
open String (utf8Len)

/-! ## §1 Words and numbers -/

/-- Nothing in the text separates arguments or their parts. -/
def Word (text : Text) : Prop := ∀ c ∈ text, isWhitespace c = false ∧ c ≠ '='

instance Word.decidable (text : Text) : Decidable (Word text) :=
  List.decidableBAll (fun c => isWhitespace c = false ∧ c ≠ '=') text

theorem dropWhile_unspaced {w : Text} (h : ∀ c ∈ w, isWhitespace c = false) :
    w.dropWhile isWhitespace = w := by
  cases w with
  | nil => rfl
  | cons c w => rw [List.dropWhile_cons, if_neg (by simp [h c List.mem_cons_self])]

theorem trim_unspaced {w : Text} (h : ∀ c ∈ w, isWhitespace c = false) : trim w = w := by
  have hreverse : ∀ c ∈ w.reverse, isWhitespace c = false :=
    fun c hc => h c (List.mem_reverse.mp hc)
  rw [trim, trimStart, dropWhile_unspaced h, trimEnd, dropWhile_unspaced hreverse,
    List.reverse_reverse]

theorem trim_word {w : Text} (h : Word w) : trim w = w := trim_unspaced fun c hc => (h c hc).1

theorem digit_bounds {c : Char} (h : c.isDigit = true) : 48 ≤ c.toNat ∧ c.toNat ≤ 57 := by
  rw [Char.isDigit, Bool.and_eq_true, decide_eq_true_eq, decide_eq_true_eq] at h
  exact ⟨UInt32.le_iff_toNat_le.mp h.1, UInt32.le_iff_toNat_le.mp h.2⟩

theorem isDigit_of_mem {n : Nat} {c : Char} (h : c ∈ Nat.toDigits 10 n) : c.isDigit = true :=
  Nat.isDigit_of_mem_toDigits (by decide) (by decide) h

theorem word_toDigits (n : Nat) : Word (Nat.toDigits 10 n) := by
  intro c hc
  obtain ⟨hlo, hhi⟩ := digit_bounds (isDigit_of_mem hc)
  refine ⟨?_, ?_⟩
  · simp only [isWhitespace, Bool.or_eq_false_iff, Bool.and_eq_false_iff, decide_eq_false_iff_not,
      beq_eq_false_iff_ne]
    omega
  · rintro rfl
    exact absurd hhi (by decide)

theorem toDigit_digit {c : Char} (h : c.isDigit = true) : toDigit 10 c = some (c.toNat - 48) := by
  obtain ⟨hlo, hhi⟩ := digit_bounds h
  have hle : '0' ≤ c ∧ c ≤ '9' :=
    ⟨UInt32.le_iff_toNat_le.mpr hlo, UInt32.le_iff_toNat_le.mpr hhi⟩
  rw [toDigit, if_pos hle, Option.filter_some]
  exact if_pos (decide_eq_true (show c.toNat - 48 < 10 by omega))

theorem foldlM_digits {cs : Text} (h : ∀ c ∈ cs, c.isDigit = true) (n : Nat) :
    cs.foldlM (fun n c => (toDigit 10 c).map (n * 10 + ·)) n = some (Nat.ofDigitChars 10 cs n) := by
  induction cs generalizing n with
  | nil => rfl
  | cons c cs ih =>
    obtain ⟨hc, hcs⟩ := List.forall_mem_cons.mp h
    rw [List.foldlM_cons, toDigit_digit hc, Option.map_some, Nat.ofDigitChars_cons, Nat.mul_comm 10]
    exact ih hcs _

/-- A number is read as it was written. -/
theorem fromStrRadix_toDigits {n : Nat} (hn : n < 2 ^ 64) :
    fromStrRadix 10 (Nat.toDigits 10 n) = some n := by
  have hplus : (Nat.toDigits 10 n).head? ≠ some '+' := by
    intro hhead
    exact absurd (isDigit_of_mem (List.mem_of_mem_head? (Option.mem_def.mpr hhead))) (by decide)
  rw [fromStrRadix, if_neg hplus, if_neg (by simp), foldlM_digits (fun c => isDigit_of_mem),
    Nat.ofDigitChars_toDigits (by decide) (by decide), Option.filter_some]
  exact if_pos (decide_eq_true hn)

/-! ## §2 Lines -/

theorem linesFrom_word {w : Text} (h : ∀ c ∈ w, c ≠ '\n') (line : Text) :
    linesFrom line w = if (line ++ w).isEmpty then [] else [line ++ w] := by
  induction w generalizing line with
  | nil => rw [linesFrom, List.append_nil]
  | cons c w ih =>
    obtain ⟨hc, hw⟩ := List.forall_mem_cons.mp h
    rw [linesFrom, if_neg hc, ih hw, List.append_assoc, List.singleton_append]

theorem linesFrom_newline {w : Text} (h : ∀ c ∈ w, c ≠ '\n') (line rest : Text)
    (hcr : (line ++ w).getLast? ≠ some '\r') :
    linesFrom line (w ++ '\n' :: rest) = (line ++ w) :: lines rest := by
  induction w generalizing line with
  | nil =>
    rw [List.append_nil] at hcr
    rw [List.nil_append, linesFrom, if_pos rfl, if_neg hcr, List.append_nil, lines]
  | cons c w ih =>
    obtain ⟨hc, hw⟩ := List.forall_mem_cons.mp h
    rw [List.cons_append, linesFrom, if_neg hc, ih hw _ (by simpa using hcr), List.append_assoc,
      List.singleton_append]

/-- Words with a sign between them. -/
theorem argument_clean {key : String} (h : Word key.toList) (n : Nat) :
    ∀ c ∈ argument key n, isWhitespace c = false := by
  intro c hc
  rcases List.mem_append.mp hc with hkey | hvalue
  · exact (h c hkey).1
  · rcases List.mem_cons.mp hvalue with rfl | hdigit
    · decide
    · exact (word_toDigits n c hdigit).1

theorem argument_ne_nil (key : String) (n : Nat) : argument key n ≠ [] := by
  rw [argument]
  exact List.append_ne_nil_of_right_ne_nil _ (List.cons_ne_nil _ _)

theorem splitOnce_argument {key : String} (h : Word key.toList) (n : Nat) :
    splitOnce (argument key n) = some (key.toList, Nat.toDigits 10 n) := by
  have hne : ∀ c ∈ key.toList, decide (c ≠ '=') = true := fun c hc => decide_eq_true (h c hc).2
  rw [splitOnce, argument, if_pos (List.mem_append_right _ List.mem_cons_self),
    List.takeWhile_append_of_pos hne, List.dropWhile_append_of_pos hne]
  simp

/-- Arguments, one a line. -/
def argumentLines : List (String × Nat) → Text
  | [] => []
  | [a] => argument a.1 a.2
  | a :: b :: rest => argument a.1 a.2 ++ '\n' :: argumentLines (b :: rest)

theorem lines_argumentLines {as : List (String × Nat)} (h : ∀ a ∈ as, Word a.1.toList) :
    lines (argumentLines as) = as.map fun a => argument a.1 a.2 := by
  have hquiet : ∀ a ∈ as, ∀ c ∈ argument a.1 a.2, c ≠ '\n' ∧ c ≠ '\r' := by
    intro a ha c hc
    have hspace := argument_clean (h a ha) a.2 c hc
    exact ⟨by rintro rfl; exact absurd hspace (by decide),
      by rintro rfl; exact absurd hspace (by decide)⟩
  fun_induction argumentLines as with
  | case1 => rfl
  | case2 a =>
    rw [lines, linesFrom_word fun c hc => (hquiet a List.mem_cons_self c hc).1, List.nil_append,
      if_neg (by simpa using argument_ne_nil a.1 a.2)]
    rfl
  | case3 a b rest ih =>
    have hcr : (argument a.1 a.2).getLast? ≠ some '\r' := fun hlast =>
      (hquiet a List.mem_cons_self '\r' (List.mem_of_getLast? hlast)).2 rfl
    rw [lines, linesFrom_newline (fun c hc => (hquiet a List.mem_cons_self c hc).1) _ _ hcr,
      ih (fun a ha => h a (List.mem_cons_of_mem _ ha))
        (fun a ha => hquiet a (List.mem_cons_of_mem _ ha))]
    rfl

theorem readArguments_arguments {allowed : List Text} {as : List (String × Nat)}
    (hword : ∀ a ∈ as, Word a.1.toList) (hallowed : ∀ a ∈ as, a.1.toList ∈ allowed)
    (hsmall : ∀ a ∈ as, a.2 < 2 ^ 64) (hnodup : (as.map Prod.fst).Nodup)
    {values : List (Text × Nat)} (hnew : ∀ a ∈ as, values.lookup a.1.toList = none) :
    readArguments allowed (as.map fun a => argument a.1 a.2) values =
      .ok (values ++ as.map fun a => (a.1.toList, a.2)) := by
  induction as generalizing values with
  | nil => rw [List.map_nil, readArguments, List.map_nil, List.append_nil]
  | cons a as ih =>
    obtain ⟨hword, hwords⟩ := List.forall_mem_cons.mp hword
    obtain ⟨hallowed, halloweds⟩ := List.forall_mem_cons.mp hallowed
    obtain ⟨hsmall, hsmalls⟩ := List.forall_mem_cons.mp hsmall
    obtain ⟨hnew, hnews⟩ := List.forall_mem_cons.mp hnew
    obtain ⟨hfresh, hnodup⟩ := List.nodup_cons.mp hnodup
    have hhex : ¬['0', 'x'] <+: Nat.toDigits 10 a.2 := fun hx =>
      absurd (isDigit_of_mem (hx.subset (by simp : 'x' ∈ ['0', 'x']))) (by decide)
    have hnext : ∀ b ∈ as, (values ++ [(a.1.toList, a.2)]).lookup b.1.toList = none := by
      intro b hb
      have hne : b.1.toList ≠ a.1.toList := by
        intro heq
        exact hfresh (String.toList_inj.mp heq ▸ List.mem_map_of_mem hb)
      rw [List.lookup_append, hnews b hb, Option.none_or, List.lookup_cons,
        beq_eq_false_iff_ne.mpr hne]
      rfl
    have hknown := List.contains_iff_mem.mpr hallowed
    rw [List.map_cons, readArguments, splitOnce_argument hword]
    dsimp only
    rw [trim_word hword, trim_word (word_toDigits _), hknown, if_neg (by decide), if_neg hhex,
      fromStrRadix_toDigits hsmall]
    dsimp only
    rw [hnew, if_neg (by decide), ih hwords halloweds hsmalls hnodup hnext, List.append_assoc]
    rfl

/-- Arguments written one a line are read back. -/
theorem numericArguments_argumentLines {allowed : List Text} {as : List (String × Nat)}
    (hlength : utf8Len (argumentLines as) ≤ 4096) (hword : ∀ a ∈ as, Word a.1.toList)
    (hallowed : ∀ a ∈ as, a.1.toList ∈ allowed) (hsmall : ∀ a ∈ as, a.2 < 2 ^ 64)
    (hnodup : (as.map Prod.fst).Nodup) :
    numericArguments (argumentLines as) allowed =
      .ok (as.map fun a => (a.1.toList, a.2)) := by
  have hfull : (lines (argumentLines as)).filter (fun line => !(trim line).isEmpty) =
      as.map fun a => argument a.1 a.2 := by
    rw [lines_argumentLines hword, List.filter_eq_self]
    intro line hline
    obtain ⟨a, ha, rfl⟩ := List.mem_map.mp hline
    rw [trim_unspaced (argument_clean (hword a ha) a.2)]
    simpa using argument_ne_nil a.1 a.2
  rw [numericArguments, if_neg (Nat.not_lt.mpr hlength), hfull,
    readArguments_arguments hword hallowed hsmall hnodup fun _ _ => rfl]
  rfl

/-! ## §3 Cursors -/

/-- What `Cursor::parse` asks of a cursor of a text. -/
structure Cursor.Ok (length : Nat) (c : Cursor) : Prop where
  start : c.start ≤ c.offset
  offset : c.offset ≤ c.stop
  stop : c.stop ≤ length
  depth : c.depth ≤ 128
  mode : c.mode ≤ 2
  escaped : c.escaped = true → c.mode = 2

/-- The arguments of a cursor, with their keys. -/
def Cursor.pairs (c : Cursor) : List (String × Nat) :=
  [("start", c.start), ("end", c.stop), ("cursor", c.offset), ("depth", c.depth), ("mode", c.mode),
    ("escaped", c.escaped.toNat)]

theorem cursorKeys_word : ∀ key ∈ cursorKeys, Word key := by
  decide +kernel

theorem utf8Len_le (w : Text) : utf8Len w ≤ 4 * w.length := by
  induction w with
  | nil => exact Nat.le_refl 0
  | cons c w ih =>
    have hc := c.utf8Size_le_four
    rw [String.utf8Len_cons, List.length_cons]
    omega

theorem argument_length (key : String) {n : Nat} (hn : n < 2 ^ 64) :
    (argument key n).length ≤ key.toList.length + 21 := by
  have hdigits : (Nat.toDigits 10 n).length ≤ 20 :=
    (Nat.length_toDigits_le_iff (by decide) (by decide)).mpr (hn.trans (by decide))
  rw [argument, List.length_append, List.length_cons]
  omega

theorem argumentLines_length {as : List (String × Nat)} {k : Nat}
    (hkeys : ∀ a ∈ as, a.1.toList.length ≤ k) (hsmall : ∀ a ∈ as, a.2 < 2 ^ 64) :
    (argumentLines as).length ≤ as.length * (k + 22) := by
  fun_induction argumentLines as with
  | case1 => exact Nat.zero_le _
  | case2 a =>
    have ha := argument_length a.1 (hsmall a List.mem_cons_self)
    have hk := hkeys a List.mem_cons_self
    rw [List.length_singleton]
    omega
  | case3 a b rest ih =>
    have ha := argument_length a.1 (hsmall a List.mem_cons_self)
    have hk := hkeys a List.mem_cons_self
    have hrest := ih (fun a ha => hkeys a (List.mem_cons_of_mem _ ha))
      (fun a ha => hsmall a (List.mem_cons_of_mem _ ha))
    rw [List.length_append, List.length_cons, List.length_cons, Nat.succ_mul]
    omega

theorem lookup_toList (key : String) (as : List (String × Nat)) :
    (as.map fun a => (a.1.toList, a.2)).lookup key.toList = as.lookup key := by
  induction as with
  | nil => rfl
  | cons a as ih =>
    rw [List.map_cons, List.lookup_cons, List.lookup_cons, ih]
    by_cases heq : key = a.1
    · rw [heq, beq_self_eq_true, beq_self_eq_true]
    · rw [beq_eq_false_iff_ne.mpr heq,
        beq_eq_false_iff_ne.mpr fun h => heq (String.toList_inj.mp h)]

/-- Some of the arguments of a cursor are read back. -/
theorem numericArguments_cursor {as : List (String × Nat)} (hmany : as.length ≤ 6)
    (hkeys : ∀ a ∈ as, a.1.toList ∈ cursorKeys) (hsmall : ∀ a ∈ as, a.2 < 2 ^ 64)
    (hnodup : (as.map Prod.fst).Nodup) :
    numericArguments (argumentLines as) cursorKeys = .ok (as.map fun a => (a.1.toList, a.2)) := by
  have hshort : ∀ key ∈ cursorKeys, key.length ≤ 7 := by decide +kernel
  have hlength := argumentLines_length (fun a ha => hshort _ (hkeys a ha)) hsmall
  have hbytes := utf8Len_le (argumentLines as)
  exact numericArguments_argumentLines (by omega) (fun a ha => cursorKeys_word _ (hkeys a ha))
    hkeys hsmall hnodup

/-- The arguments of a cursor are read as the cursor. -/
theorem Cursor.parse_arguments {length : Nat} {c : Cursor} (h : c.Ok length)
    (hlength : length < 2 ^ 64) : Cursor.parse c.arguments length = .ok c := by
  obtain ⟨start, stop, offset, depth, mode, escaped⟩ := c
  obtain ⟨hstart, hoffset, hstop, hdepth, hmode, hescaped⟩ := h
  dsimp only at hstart hoffset hstop hdepth hmode hescaped
  have hflag : escaped.toNat ≤ 1 := Bool.toNat_le escaped
  have hsmall : ∀ a ∈ Cursor.pairs ⟨start, stop, offset, depth, mode, escaped⟩, a.2 < 2 ^ 64 := by
    intro a ha
    simp only [Cursor.pairs, List.mem_cons, List.not_mem_nil, or_false] at ha
    rcases ha with rfl | rfl | rfl | rfl | rfl | rfl <;> dsimp only <;> omega
  have hkeys : ∀ a ∈ Cursor.pairs ⟨start, stop, offset, depth, mode, escaped⟩,
      a.1.toList ∈ cursorKeys := by
    intro a ha
    simp only [Cursor.pairs, List.mem_cons, List.not_mem_nil, or_false] at ha
    rcases ha with rfl | rfl | rfl | rfl | rfl | rfl <;> exact List.mem_map_of_mem (by simp)
  have hread := @numericArguments_cursor (Cursor.pairs ⟨start, stop, offset, depth, mode, escaped⟩)
    (Nat.le_refl 6) hkeys hsmall
    (show ["start", "end", "cursor", "depth", "mode", "escaped"].Nodup by decide)
  have harguments : Cursor.arguments ⟨start, stop, offset, depth, mode, escaped⟩ =
      argumentLines (Cursor.pairs ⟨start, stop, offset, depth, mode, escaped⟩) := rfl
  rw [Cursor.parse, harguments, hread]
  simp only [bind, Except.bind, lookup_toList]
  show Cursor.check start stop offset depth mode escaped.toNat length = _
  rw [Cursor.check, if_neg]
  · cases escaped <;> rfl
  · rintro (h | h | h | h | h | h | h | ⟨h, hne⟩)
    iterate 7 omega
    exact hne (hescaped (by cases escaped with | false => exact nomatch h | true => rfl))

theorem Cursor.parse_nil (length : Nat) :
    Cursor.parse [] length = .ok ⟨0, length, 0, 0, 0, false⟩ := by
  rw [Cursor.parse, show numericArguments [] cursorKeys = .ok [] from rfl]
  show Cursor.check 0 length 0 0 0 0 length = _
  rw [Cursor.check, if_neg (by omega)]
  rfl

/-- The arguments that expand what stands at an offset. -/
theorem Cursor.parse_start {length offset : Nat} (h : offset ≤ length) (hlength : length < 2 ^ 64) :
    Cursor.parse (argument "start" offset) length = .ok ⟨offset, length, offset, 0, 0, false⟩ := by
  have hread := @numericArguments_cursor [("start", offset)] (Nat.le_add_left 1 5)
    (List.forall_mem_singleton.mpr (List.mem_map_of_mem (by simp)))
    (List.forall_mem_singleton.mpr (show offset < 2 ^ 64 by omega)) (List.nodup_singleton _)
  have harguments : argument "start" offset = argumentLines [("start", offset)] := rfl
  rw [Cursor.parse, harguments, hread]
  simp only [bind, Except.bind, lookup_toList]
  show Cursor.check offset length offset 0 0 0 length = _
  rw [Cursor.check, if_neg (by omega)]
  rfl

end BareLine.JsonTools
