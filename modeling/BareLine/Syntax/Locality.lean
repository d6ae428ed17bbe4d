import BareLine.Syntax.Lexer

/-!
# Tokens read no further than the line

A text that ends in a line end decides every token that starts in it, whatever follows, but for
one kind: a Rust character literal whose escape goes around the line end.
-/

namespace BareLine.Syntax

open Lib Codec

/-! ## §1 Line ends -/

/-- The text ends in a line end. -/
def EndsLine (u : Bytes) : Prop := ∃ w b, u = w ++ [b] ∧ isLineEnd b = true

theorem EndsLine.ne_nil {u : Bytes} (h : EndsLine u) : u ≠ [] := by
  obtain ⟨w, b, rfl, -⟩ := h
  exact List.append_ne_nil_of_right_ne_nil _ (List.cons_ne_nil _ _)

theorem EndsLine.length_pos {u : Bytes} (h : EndsLine u) : 0 < u.length :=
  List.length_pos_iff.mpr h.ne_nil

/-- What is left of it in front of its end still ends the line. -/
theorem EndsLine.drop {u : Bytes} (h : EndsLine u) {n : Nat} (hlt : n < u.length) :
    EndsLine (u.drop n) := by
  obtain ⟨w, b, rfl, hb⟩ := h
  rw [List.length_append, List.length_singleton] at hlt
  exact ⟨w.drop n, b, List.drop_append_of_le_length (by omega), hb⟩

theorem EndsLine.append_left {u : Bytes} (h : EndsLine u) (p : Bytes) : EndsLine (p ++ u) := by
  obtain ⟨w, b, rfl, hb⟩ := h
  exact ⟨p ++ w, b, (List.append_assoc _ _ _).symm, hb⟩

/-- A nonempty end of it ends the line as well. -/
theorem EndsLine.of_append {p u : Bytes} (h : EndsLine (p ++ u)) (hne : u ≠ []) : EndsLine u := by
  have := h.drop (n := p.length) (by
    rw [List.length_append]
    have := List.length_pos_iff.mpr hne
    omega)
  rwa [List.drop_left] at this

/-- Bytes without a line end that start such a text and more start the text itself. -/
theorem EndsLine.prefix_of {u t v : Bytes} (h : EndsLine u)
    (hline : ∀ b ∈ t, isLineEnd b = false) (hp : t <+: u ++ v) :
    t <+: u ∧ t.length < u.length := by
  obtain ⟨w, b, rfl, hb⟩ := h
  have hshort : t.length < (w ++ [b]).length := by
    by_contra hlong
    have hwhole : w ++ [b] <+: t :=
      List.prefix_of_prefix_length_le (List.prefix_append _ v) hp (Nat.le_of_not_lt hlong)
    have hfalse := hline b (hwhole.subset (List.mem_append_right _ (List.mem_singleton.mpr rfl)))
    rw [hb] at hfalse
    cases hfalse
  exact ⟨List.prefix_of_prefix_length_le hp (List.prefix_append _ v) (Nat.le_of_lt hshort), hshort⟩

/-- A marker starts the text and more where it starts the text. -/
theorem EndsLine.isPrefixOf {u t : Bytes} (h : EndsLine u)
    (hline : ∀ b ∈ t, isLineEnd b = false) (v : Bytes) :
    t.isPrefixOf (u ++ v) = t.isPrefixOf u := by
  rw [Bool.eq_iff_iff, List.isPrefixOf_iff_prefix, List.isPrefixOf_iff_prefix]
  exact ⟨fun hp => (h.prefix_of hline hp).1, fun hp => hp.trans (List.prefix_append _ _)⟩

theorem EndsLine.head? {u : Bytes} (h : EndsLine u) (v : Bytes) : (u ++ v).head? = u.head? :=
  List.head?_append_of_ne_nil _ h.ne_nil

/-! ## §2 Lookahead inside a line -/

private theorem lineEnd_ascii (b : UInt8) (h : isLineEnd b = true) :
    b < 0x80 ∧ isContinuation b = false ∧ isAsciiAlphanumeric b = false ∧ b ≠ 95 ∧ b ≠ 46 ∧
      b ≠ 43 ∧ b ≠ 45 ∧ b ≠ HASH ∧ b ≠ DOUBLE_QUOTE := by
  rw [isLineEnd, Bool.or_eq_true, beq_iff_eq, beq_iff_eq] at h
  rcases h with rfl | rfl <;> decide

theorem scan_lineEnd {b : UInt8} (h : isLineEnd b = true) (t : Bytes) :
    Codec.scan (b :: t) = .valid 1 := by
  unfold Codec.scan
  exact if_pos (lineEnd_ascii b h).1

/-- A text that ends a line is scanned without what follows. -/
theorem EndsLine.scan_append {u : Bytes} (h : EndsLine u) (v : Bytes) :
    Codec.scan (u ++ v) = Codec.scan u ∧ Codec.scan u ≠ .cut := by
  have hscanned := scan_scanned (t := u)
  generalize hscan : Codec.scan u = found at hscanned
  cases hscanned with
  | valid k pos le four clean tail local' =>
    refine ⟨?_, nofun⟩
    have := local' (u.drop k ++ v)
    rwa [← List.append_assoc, List.take_append_drop] at this
  | cut three clean tail =>
    obtain ⟨w, b, rfl, hb⟩ := h
    cases w with
    | nil =>
      rw [List.nil_append, scan_lineEnd hb] at hscan
      cases hscan
    | cons a w =>
      have hcont := tail b (by simp)
      rw [(lineEnd_ascii b hb).2.1] at hcont
      cases hcont
  | invalid k local' => exact ⟨local' v, nofun⟩

theorem EndsLine.scalarLen_append {u : Bytes} (h : EndsLine u) (v : Bytes) :
    scalarLen (u ++ v) = scalarLen u := by
  rw [scalarLen, (h.scan_append v).1, scalarLen]

/-- The first scalar of a nonempty text has a length inside it. -/
theorem scalarLen_bounds {u : Bytes} (h : u ≠ []) : 1 ≤ scalarLen u ∧ scalarLen u ≤ u.length := by
  have hpos := List.length_pos_iff.mpr h
  rw [scalarLen]
  cases hscan : Codec.scan u with
  | valid n => exact scan_valid hscan
  | invalid n => exact ⟨Nat.le_refl _, hpos⟩
  | cut => exact ⟨Nat.le_refl _, hpos⟩

/-- The first scalar is all of the text only where that is the line end. -/
theorem EndsLine.scalarLen_lt {u : Bytes} (h : EndsLine u) :
    scalarLen u < u.length ∨ ∃ b, u = [b] ∧ isLineEnd b = true := by
  obtain ⟨w, b, rfl, hb⟩ := h
  cases w with
  | nil => exact .inr ⟨b, rfl, hb⟩
  | cons a w =>
    refine .inl ?_
    rw [scalarLen]
    have hscanned := scan_scanned (t := a :: w ++ [b])
    generalize Codec.scan (a :: w ++ [b]) = found at hscanned
    cases hscanned with
    | valid k pos le four clean tail local' =>
      refine Nat.lt_of_le_of_ne le fun heq => ?_
      change k = (a :: w ++ [b]).length at heq
      rw [heq, List.take_length] at tail
      have hcont := tail b (by simp)
      rw [(lineEnd_ascii b hb).2.1] at hcont
      cases hcont
    | cut three clean tail => simp
    | invalid k local' => simp

theorem EndsLine.take_scalar {u : Bytes} (h : EndsLine u) (v : Bytes) :
    (u ++ v).take (scalarLen (u ++ v)) = u.take (scalarLen u) := by
  rw [h.scalarLen_append, List.take_append_of_le_length (scalarLen_bounds h.ne_nil).2]

theorem EndsLine.drop_scalar {u : Bytes} (h : EndsLine u) (v : Bytes) :
    (u ++ v).drop (scalarLen (u ++ v)) = u.drop (scalarLen u) ++ v := by
  rw [h.scalarLen_append, List.drop_append_of_le_length (scalarLen_bounds h.ne_nil).2]

/-- The rest of a line comment ends in front of the line end. -/
theorem EndsLine.commentLen_append {u : Bytes} (h : EndsLine u) (v : Bytes) :
    commentLen (u ++ v) = commentLen u ∧ commentLen u < u.length := by
  obtain ⟨w, b, rfl, hb⟩ := h
  have hstop : ∀ x, ((w ++ [b] ++ x).takeWhile fun b => !isLineEnd b) =
      w.takeWhile fun b => !isLineEnd b := fun x => by
    rw [List.append_assoc, List.takeWhile_append]
    split_ifs with hall
    · rw [List.singleton_append, List.takeWhile_cons_of_neg (by simp [hb]), List.append_nil]
      exact ((List.takeWhile_prefix _).eq_of_length hall).symm
    · rfl
  have hself := hstop []
  rw [List.append_nil] at hself
  rw [commentLen, commentLen, hstop, hself, List.length_append, List.length_singleton]
  exact ⟨rfl, Nat.lt_succ_of_le (List.takeWhile_prefix _).length_le⟩

theorem numberLen_le (previous : UInt8) (rest : Bytes) : numberLen previous rest ≤ rest.length := by
  induction rest generalizing previous with
  | nil => exact Nat.le_refl _
  | cons b rest ih =>
    rw [numberLen]
    split_ifs
    · have := ih b
      rw [List.length_cons]
      omega
    · exact Nat.zero_le _

/-- The rest of a number ends in front of the line end. -/
theorem EndsLine.numberLen_append {u : Bytes} (h : EndsLine u) (v : Bytes) (previous : UInt8) :
    numberLen previous (u ++ v) = numberLen previous u := by
  induction u generalizing previous with
  | nil => exact absurd rfl h.ne_nil
  | cons b u ih =>
    rw [List.cons_append, numberLen, numberLen]
    by_cases hend : u = []
    · subst hend
      obtain ⟨w, b', heq, hb⟩ := h
      have hbb : b = b' := by
        cases w with
        | nil => exact (List.cons.inj heq).1
        | cons a w => exact absurd (congrArg List.length heq) (by simp)
      subst hbb
      obtain ⟨-, -, halnum, h95, h46, h43, h45, -, -⟩ := lineEnd_ascii b hb
      simp [halnum, h95, h46, h43, h45]
    · have hu : EndsLine u := EndsLine.of_append (p := [b]) h hend
      rw [hu.head? v, ih hu]

theorem wordLen_le (vocabulary : Vocabulary) (left : Nat) (rest : Bytes) :
    wordLen vocabulary left rest ≤ rest.length := by
  induction left generalizing rest with
  | zero => exact Nat.zero_le _
  | succ left ih =>
    rw [wordLen]
    split_ifs with hnil
    · exact Nat.zero_le _
    · dsimp only
      split_ifs
      · have hbounds := scalarLen_bounds hnil
        have := ih (rest.drop (scalarLen rest))
        rw [List.length_drop] at this
        omega
      · exact Nat.zero_le _

/-- The rest of a word ends in front of the line end, however many scalars may be taken. -/
theorem EndsLine.wordLen_append {u : Bytes} (h : EndsLine u) (v : Bytes) (vocabulary : Vocabulary)
    {left left' : Nat} (hleft : u.length ≤ left) (hleft' : u.length ≤ left') :
    wordLen vocabulary left (u ++ v) = wordLen vocabulary left' u := by
  induction left generalizing u left' with
  | zero =>
    have := h.length_pos
    omega
  | succ left ih =>
    obtain ⟨left', rfl⟩ := Nat.exists_eq_succ_of_ne_zero
      (show left' ≠ 0 by have := h.length_pos; omega)
    rw [wordLen, wordLen, if_neg (List.append_ne_nil_of_left_ne_nil h.ne_nil v), if_neg h.ne_nil]
    dsimp only
    rw [h.take_scalar v, h.drop_scalar v, h.scalarLen_append v]
    rcases h.scalarLen_lt with hlt | ⟨b, rfl, hb⟩
    · have hpos := (scalarLen_bounds h.ne_nil).1
      have hrest := h.drop hlt
      have hleft₁ : (u.drop (scalarLen u)).length ≤ left := by
        rw [List.length_drop]
        omega
      have hleft₂ : (u.drop (scalarLen u)).length ≤ left' := by
        rw [List.length_drop]
        omega
      rw [ih hrest hleft₁ hleft₂]
    · -- the line end itself is no part of a word
      have hone : scalarLen [b] = 1 := by
        rw [scalarLen, scan_lineEnd hb]
      have hword : ¬([b] = [95] || vocabulary.isAlphanumeric [b]) = true := by
        rw [(vocabulary.lineEnd b hb).2, Bool.or_false, decide_eq_true_eq, List.cons.injEq]
        exact fun hno => (lineEnd_ascii b hb).2.2.2.1 hno.1
      have htake : [b].take (scalarLen [b]) = [b] := by
        rw [hone]
        rfl
      rw [htake, if_neg hword, if_neg hword]

/-- The opening of a raw string. -/
structure RawOpening (length hashes : Nat) (o : Bytes) : Prop where
  letters : ∃ letters ∈ [[98, 114], [99, 114], [114]],
    o = letters ++ (List.replicate hashes HASH ++ [DOUBLE_QUOTE])
  length_eq : o.length = length
  few : hashes ≤ 255

theorem RawOpening.inLine {length hashes : Nat} {o : Bytes} (h : RawOpening length hashes o) :
    ∀ b ∈ o, isLineEnd b = false := by
  obtain ⟨letters, hletters, rfl⟩ := h.letters
  intro b hb
  rcases List.mem_append.mp hb with hb | hb
  · simp only [List.mem_cons, List.not_mem_nil, or_false] at hletters
    rcases hletters with rfl | rfl | rfl
    all_goals
      simp only [List.mem_cons, List.not_mem_nil, or_false] at hb
      rcases hb with rfl | rfl <;> decide
  · rcases List.mem_append.mp hb with hb | hb
    · rw [List.eq_of_mem_replicate hb]
      decide
    · rw [List.mem_singleton.mp hb]
      decide

/-- The letters of a raw string opening. -/
private def rawLetters (text : Bytes) : Nat :=
  if [98, 114].isPrefixOf text || [99, 114].isPrefixOf text then 2
  else if [114].isPrefixOf text then 1 else 0

private theorem rawLetters_cases (text : Bytes) :
    rawLetters text = 0 ∨ ∃ letters ∈ ([[98, 114], [99, 114], [114]] : List Bytes),
      letters <+: text ∧ rawLetters text = letters.length := by
  rw [rawLetters]
  split_ifs with htwo hone
  · rw [Bool.or_eq_true, List.isPrefixOf_iff_prefix, List.isPrefixOf_iff_prefix] at htwo
    rcases htwo with hp | hp
    · exact .inr ⟨[98, 114], by decide, hp, rfl⟩
    · exact .inr ⟨[99, 114], by decide, hp, rfl⟩
  · exact .inr ⟨[114], by decide, List.isPrefixOf_iff_prefix.mp hone, rfl⟩
  · exact .inl rfl

private theorem rawLetters_of_prefix {letters rest : Bytes}
    (h : letters ∈ ([[98, 114], [99, 114], [114]] : List Bytes)) :
    rawLetters (letters ++ rest) = letters.length := by
  simp only [List.mem_cons, List.not_mem_nil, or_false] at h
  rcases h with rfl | rfl | rfl
  · rfl
  · rfl
  · rw [rawLetters]
    rfl

private theorem hashes_of_replicate {hashes : Nat} (hfew : hashes ≤ 255) (rest : Bytes) :
    (((List.replicate hashes HASH ++ (DOUBLE_QUOTE :: rest)).take 256).takeWhile
      (· == HASH)).length = hashes := by
  obtain ⟨k, hk⟩ := Nat.exists_eq_add_of_le (show hashes + 1 ≤ 256 by omega)
  have htake : (List.replicate hashes HASH ++ (DOUBLE_QUOTE :: rest)).take 256 =
      List.replicate hashes HASH ++ DOUBLE_QUOTE :: rest.take k := by
    rw [hk, List.take_append, List.length_replicate,
      List.take_of_length_le (by rw [List.length_replicate]; omega),
      show hashes + 1 + k - hashes = k + 1 by omega, List.take_succ_cons]
  rw [htake, List.takeWhile_append_of_pos (by simp), List.takeWhile_cons_of_neg (by decide),
    List.append_nil, List.length_replicate]

/-- `raw_start` finds exactly the openings. -/
theorem rawStart_iff {text : Bytes} {length hashes : Nat} :
    rawStart text = some (length, hashes) ↔ ∃ o rest, text = o ++ rest ∧
      RawOpening length hashes o := by
  have hunfold : rawStart text =
      if rawLetters text = 0 then none
      else
        let hashes := (((text.drop (rawLetters text)).take 256).takeWhile (· == HASH)).length
        if hashes > 255 ∨ text[rawLetters text + hashes]? ≠ some DOUBLE_QUOTE then none
        else some (rawLetters text + hashes + 1, hashes) := rfl
  rw [hunfold]
  constructor
  · intro h
    rcases rawLetters_cases text with hzero | ⟨letters, hmem, ⟨d, rfl⟩, hlen⟩
    · rw [if_pos hzero] at h
      cases h
    rw [hlen, List.drop_left] at h
    have hpos : letters.length ≠ 0 := by
      simp only [List.mem_cons, List.not_mem_nil, or_false] at hmem
      rcases hmem with rfl | rfl | rfl <;> exact Nat.succ_ne_zero _
    rw [if_neg hpos] at h
    dsimp only at h
    generalize hfound : ((d.take 256).takeWhile (· == HASH)) = found at h
    split_ifs at h with hbad
    rw [not_or, not_not] at hbad
    obtain ⟨rfl, rfl⟩ := Prod.mk.inj (Option.some.inj h)
    -- the hashes, then the quote behind them
    have hfront : found <+: d := by
      rw [← hfound]
      exact (List.takeWhile_prefix _).trans (List.take_prefix _ _)
    obtain ⟨more, rfl⟩ := hfront
    have hall : found = List.replicate found.length HASH := by
      refine List.eq_replicate_iff.mpr ⟨rfl, fun b hb => ?_⟩
      rw [← hfound] at hb
      exact beq_iff_eq.mp (List.all_eq_true.mp List.all_takeWhile b hb)
    have hquote := hbad.2
    rw [List.getElem?_append_right (Nat.le_add_right _ _), Nat.add_sub_cancel_left,
      List.getElem?_append_right (Nat.le_refl _), Nat.sub_self] at hquote
    cases more with
    | nil => cases hquote
    | cons b more =>
      obtain rfl := Option.some.inj hquote
      refine ⟨letters ++ (found ++ [DOUBLE_QUOTE]), more, by simp, ⟨letters, hmem, ?_⟩, ?_, ?_⟩
      · rw [← hall]
      · simp only [List.length_append, List.length_singleton]
        omega
      · omega
  · rintro ⟨o, rest, rfl, ⟨⟨letters, hmem, rfl⟩, hlen, hfew⟩⟩
    have htext : letters ++ (List.replicate hashes HASH ++ [DOUBLE_QUOTE]) ++ rest =
        letters ++ (List.replicate hashes HASH ++ (DOUBLE_QUOTE :: rest)) := by simp
    have hpos : letters.length ≠ 0 := by
      simp only [List.mem_cons, List.not_mem_nil, or_false] at hmem
      rcases hmem with rfl | rfl | rfl <;> exact Nat.succ_ne_zero _
    rw [htext, rawLetters_of_prefix hmem, if_neg hpos, List.drop_left]
    dsimp only
    rw [hashes_of_replicate hfew, if_neg]
    · simp only [List.length_append, List.length_replicate, List.length_singleton] at hlen
      rw [← hlen, Nat.add_assoc]
    · rw [not_or, not_not, List.getElem?_append_right (Nat.le_add_right _ _),
        Nat.add_sub_cancel_left,
        List.getElem?_append_right (Nat.le_of_eq List.length_replicate), List.length_replicate,
        Nat.sub_self]
      exact ⟨Nat.not_lt.mpr hfew, rfl⟩

/-- A raw string that starts in the line starts there whatever follows. -/
theorem EndsLine.rawStart_append {u : Bytes} (h : EndsLine u) (v : Bytes) :
    rawStart (u ++ v) = rawStart u := by
  refine Option.ext fun pair => ?_
  obtain ⟨length, hashes⟩ := pair
  rw [rawStart_iff, rawStart_iff]
  constructor
  · rintro ⟨o, rest, heq, ho⟩
    obtain ⟨⟨more, hmore⟩, -⟩ := h.prefix_of ho.inLine ⟨rest, heq.symm⟩
    exact ⟨o, more, hmore.symm, ho⟩
  · rintro ⟨o, rest, rfl, ho⟩
    exact ⟨o, rest ++ v, by rw [List.append_assoc], ho⟩

theorem rawStart_le {text : Bytes} {length hashes : Nat}
    (h : rawStart text = some (length, hashes)) : 1 ≤ length ∧ length ≤ text.length := by
  obtain ⟨o, rest, rfl, ho⟩ := rawStart_iff.mp h
  obtain ⟨letters, hmem, heq⟩ := ho.letters
  have hlen := ho.length_eq
  rw [List.length_append]
  rw [heq, List.length_append, List.length_append, List.length_singleton] at hlen
  rw [heq]
  simp only [List.length_append, List.length_singleton]
  omega

/-! ## §3 Character literals -/

theorem firstChar_some {w c : Bytes} (h : firstChar w = some c) :
    c <+: w ∧ 1 ≤ c.length ∧ Codec.scan w = .valid c.length := by
  rw [firstChar] at h
  cases hscan : Codec.scan w with
  | valid n =>
    rw [hscan] at h
    obtain rfl := Option.some.inj h
    have hbounds := scan_valid hscan
    rw [List.length_take, Nat.min_eq_left hbounds.2]
    exact ⟨List.take_prefix _ _, hbounds.1, rfl⟩
  | invalid n =>
    rw [hscan] at h
    cases h
  | cut =>
    rw [hscan] at h
    cases h

/-- A scalar at the front is the first one of everything that starts with it. -/
theorem firstChar_of_prefix {w w' c : Bytes} (h : firstChar w = some c) (hp : c <+: w') :
    firstChar w' = some c := by
  obtain ⟨hc, -, hscan⟩ := firstChar_some h
  have hscalar := scalar_take hscan
  rw [List.prefix_iff_eq_take.mp hc |>.symm] at hscalar
  obtain ⟨rest, rfl⟩ := hp
  rw [firstChar, hscalar.scan_append]
  exact congrArg some List.take_left

/-- What `char_literal_length` reads: the quote, a scalar that is no escape or an escape, and the
quote that closes it. -/
inductive CharLiteral : Bytes → Prop where
  | scalar (c : Bytes) (one : ∀ rest, firstChar (c ++ rest) = some c)
      (bare : c ≠ [CR] ∧ c ≠ [LF] ∧ c ≠ [SINGLE_QUOTE] ∧ c ≠ [BACKSLASH]) :
      CharLiteral (SINGLE_QUOTE :: (c ++ [SINGLE_QUOTE]))
  | unicode (hex : Bytes) (digits : ∀ b ∈ hex, isHexDigit b = true)
      (few : 0 < hex.length ∧ hex.length ≤ 6) :
      CharLiteral ([SINGLE_QUOTE, BACKSLASH, 117, 123] ++ (hex ++ [125, SINGLE_QUOTE]))
  | byte (a b : UInt8) : CharLiteral [SINGLE_QUOTE, BACKSLASH, 120, a, b, SINGLE_QUOTE]
  | escape (c : Bytes) (one : ∀ rest, firstChar (c ++ rest) = some c) (plain : c ≠ [120]) :
      CharLiteral ([SINGLE_QUOTE, BACKSLASH] ++ (c ++ [SINGLE_QUOTE]))

theorem firstChar_ascii {b : UInt8} (h : b < 0x80) (rest : Bytes) :
    firstChar (b :: rest) = some [b] := by
  have hscan : Codec.scan (b :: rest) = .valid 1 := by
    unfold Codec.scan
    exact if_pos h
  rw [firstChar, hscan]
  rfl

/-- The first scalar of a text, and of all that start with it. -/
theorem firstChar_always {w c : Bytes} (h : firstChar w = some c) :
    ∀ rest, firstChar (c ++ rest) = some c :=
  fun rest => firstChar_of_prefix h (List.prefix_append c rest)

/-- An escape that is found closes the literal. -/
private theorem escapeLength_some {c more : Bytes} {n : Nat}
    (hc : ∀ rest, firstChar (c ++ rest) = some c)
    (h : escapeLength (SINGLE_QUOTE :: BACKSLASH :: (c ++ more)) 1 c = some n) :
    ∃ l rest, SINGLE_QUOTE :: BACKSLASH :: (c ++ more) = l ++ rest ∧ l.length = n ∧
      CharLiteral l := by
  rw [escapeLength] at h
  by_cases hunicode : c = [117] ∧
      (SINGLE_QUOTE :: BACKSLASH :: (c ++ more))[1 + 2]? = some 123
  · rw [if_pos hunicode] at h
    obtain ⟨rfl, hbrace⟩ := hunicode
    obtain ⟨tail, rfl⟩ : ∃ tail, more = 123 :: tail := by
      cases more with
      | nil => cases hbrace
      | cons a tail => exact ⟨tail, by rw [Option.some.inj hbrace]⟩
    have htail : (SINGLE_QUOTE :: BACKSLASH :: ([117] ++ 123 :: tail)).drop (1 + 3) = tail := rfl
    dsimp only at h
    rw [htail] at h
    split_ifs at h with hdigits
    obtain ⟨hpos, hsix, hclose⟩ := hdigits
    obtain ⟨after, hafter⟩ := List.takeWhile_prefix (l := tail) isHexDigit
    generalize hhex : tail.takeWhile isHexDigit = hex at *
    have hall : ∀ b ∈ hex, isHexDigit b = true := fun b hb => by
      rw [← hhex] at hb
      exact List.all_eq_true.mp List.all_takeWhile b hb
    rw [List.length_take] at hpos hsix hclose h
    have hlen : min 7 hex.length = hex.length := by omega
    rw [hlen] at hpos hsix hclose h
    rw [← hafter, List.drop_left, List.isPrefixOf_iff_prefix] at hclose
    obtain ⟨rest, rfl⟩ := hclose
    refine ⟨[SINGLE_QUOTE, BACKSLASH, 117, 123] ++ (hex ++ [125, SINGLE_QUOTE]), rest, ?_, ?_,
      .unicode hex hall ⟨hpos, hsix⟩⟩
    · rw [← hafter]
      simp
    · rw [← Option.some.inj h]
      simp only [List.length_append, List.length_cons, List.length_nil]
      omega
  · rw [if_neg hunicode] at h
    dsimp only at h
    by_cases hbyte : c = [120]
    · subst hbyte
      rw [if_pos rfl] at h
      split_ifs at h with hclose
      match more, hclose with
      | a :: b :: d :: rest, hclose =>
        obtain rfl := Option.some.inj hclose
        exact ⟨[SINGLE_QUOTE, BACKSLASH, 120, a, b, SINGLE_QUOTE], rest, rfl, Option.some.inj h,
          .byte a b⟩
    · rw [if_neg hbyte] at h
      split_ifs at h with hclose
      have hat : 1 + 1 + c.length = c.length + 1 + 1 := by omega
      rw [hat, List.getElem?_cons_succ, List.getElem?_cons_succ,
        List.getElem?_append_right (Nat.le_refl _), Nat.sub_self] at hclose
      obtain ⟨rest, rfl⟩ : ∃ rest, more = SINGLE_QUOTE :: rest := by
        cases more with
        | nil => cases hclose
        | cons a rest => exact ⟨rest, by rw [Option.some.inj hclose]⟩
      refine ⟨[SINGLE_QUOTE, BACKSLASH] ++ (c ++ [SINGLE_QUOTE]), rest, by simp, ?_,
        .escape c hc hbyte⟩
      rw [← Option.some.inj h]
      simp only [List.length_append, List.length_cons, List.length_nil]
      omega

/-- What `char_literal_length` finds starts the text. -/
theorem charLiteralLength_some {text : Bytes} {n : Nat} (h : charLiteralLength text = some n) :
    ∃ l rest, text = l ++ rest ∧ l.length = n ∧ CharLiteral l := by
  rw [charLiteralLength] at h
  by_cases hquote : text.head? ≠ some SINGLE_QUOTE
  · rw [if_pos hquote] at h
    cases h
  rw [if_neg hquote] at h
  rw [not_not] at hquote
  obtain ⟨t, rfl⟩ : ∃ t, text = SINGLE_QUOTE :: t := by
    cases text with
    | nil => cases hquote
    | cons a t => exact ⟨t, by rw [Option.some.inj hquote]⟩
  rw [List.drop_succ_cons, List.drop_zero] at h
  cases hfirst : firstChar t with
  | none =>
    rw [hfirst] at h
    cases h
  | some first =>
    rw [hfirst] at h
    dsimp only at h
    by_cases hbare : first = [CR] ∨ first = [LF] ∨ first = [SINGLE_QUOTE]
    · rw [if_pos hbare] at h
      cases h
    rw [if_neg hbare] at h
    obtain ⟨⟨t', rfl⟩, -, -⟩ := firstChar_some hfirst
    rw [Nat.add_comm 1, List.drop_succ_cons, List.drop_left] at h
    cases hc : firstChar t' with
    | none =>
      rw [hc] at h
      cases h
    | some c =>
      rw [hc] at h
      dsimp only at h
      obtain ⟨⟨more, rfl⟩, -, -⟩ := firstChar_some hc
      by_cases hslash : first = [BACKSLASH]
      · subst hslash
        rw [if_neg (not_not.mpr rfl)] at h
        change escapeLength (SINGLE_QUOTE :: BACKSLASH :: (c ++ more)) 1 c = some n at h
        exact escapeLength_some (c := c) (firstChar_always hc) h
      · rw [if_pos hslash] at h
        split_ifs at h with hclose
        subst hclose
        rw [not_or, not_or] at hbare
        refine ⟨SINGLE_QUOTE :: (first ++ [SINGLE_QUOTE]), more, by simp, ?_,
          .scalar first (firstChar_always hfirst) ⟨hbare.1, hbare.2.1, hbare.2.2, hslash⟩⟩
        rw [← Option.some.inj h]
        simp

/-- A literal with an escape is as long as its escape. -/
private theorem charLiteralLength_escape (c more : Bytes)
    (hc : firstChar (c ++ more) = some c) :
    charLiteralLength (SINGLE_QUOTE :: BACKSLASH :: (c ++ more)) =
      escapeLength (SINGLE_QUOTE :: BACKSLASH :: (c ++ more)) 1 c := by
  rw [charLiteralLength, List.head?_cons, if_neg (not_not.mpr rfl), List.drop_succ_cons,
    List.drop_zero, firstChar_ascii (by decide)]
  dsimp only
  rw [if_neg (by decide)]
  have hbehind : (SINGLE_QUOTE :: BACKSLASH :: (c ++ more)).drop (1 + [BACKSLASH].length) =
      c ++ more := rfl
  simp only [hbehind, hc]
  rfl

/-- What starts as a literal is read as one. -/
theorem charLiteralLength_of {l : Bytes} (h : CharLiteral l) (rest : Bytes) :
    charLiteralLength (l ++ rest) = some l.length := by
  cases h with
  | scalar c one bare =>
    obtain ⟨hcr, hlf, hsingle, hslash⟩ := bare
    rw [List.cons_append, charLiteralLength, List.head?_cons, if_neg (not_not.mpr rfl),
      List.drop_succ_cons, List.drop_zero, List.append_assoc, one]
    dsimp only
    rw [if_neg (by rw [not_or, not_or]; exact ⟨hcr, hlf, hsingle⟩), Nat.add_comm 1,
      List.drop_succ_cons, List.drop_left, List.singleton_append, firstChar_ascii (by decide)]
    dsimp only
    rw [if_pos hslash, if_pos rfl, List.length_cons, List.length_append, List.length_singleton]
  | unicode hex digits few =>
    have hwhole : [SINGLE_QUOTE, BACKSLASH, 117, 123] ++ (hex ++ [125, SINGLE_QUOTE]) ++ rest =
        SINGLE_QUOTE :: BACKSLASH ::
          ([117] ++ (123 :: (hex ++ ([125, SINGLE_QUOTE] ++ rest)))) := by
      simp
    rw [hwhole, charLiteralLength_escape _ _ (firstChar_ascii (by decide) _), escapeLength,
      if_pos ⟨rfl, rfl⟩]
    have hhex : (hex ++ ([125, SINGLE_QUOTE] ++ rest)).takeWhile isHexDigit = hex := by
      rw [List.takeWhile_append_of_pos digits]
      simp [isHexDigit, isDigit]
    have htail : (SINGLE_QUOTE :: BACKSLASH ::
        ([117] ++ (123 :: (hex ++ ([125, SINGLE_QUOTE] ++ rest))))).drop (1 + 3) =
        hex ++ ([125, SINGLE_QUOTE] ++ rest) := rfl
    dsimp only
    rw [htail, hhex, List.take_of_length_le (by omega), List.drop_left, if_pos]
    · simp only [List.length_append, List.length_cons, List.length_nil]
      congr 1
    · exact ⟨few.1, few.2, List.isPrefixOf_iff_prefix.mpr (List.prefix_append _ _)⟩
  | byte a b =>
    have hwhole : [SINGLE_QUOTE, BACKSLASH, 120, a, b, SINGLE_QUOTE] ++ rest =
        SINGLE_QUOTE :: BACKSLASH :: ([120] ++ (a :: b :: SINGLE_QUOTE :: rest)) := rfl
    rw [hwhole, charLiteralLength_escape _ _ (firstChar_ascii (by decide) _), escapeLength,
      if_neg (fun hno => absurd hno.1 (by decide)), if_pos rfl]
    exact if_pos rfl
  | escape c one plain =>
    have hwhole : [SINGLE_QUOTE, BACKSLASH] ++ (c ++ [SINGLE_QUOTE]) ++ rest =
        SINGLE_QUOTE :: BACKSLASH :: (c ++ (SINGLE_QUOTE :: rest)) := by simp
    have hbrace : ¬(c = [117] ∧
        (SINGLE_QUOTE :: BACKSLASH :: (c ++ (SINGLE_QUOTE :: rest)))[1 + 2]? = some 123) := by
      rintro ⟨rfl, hno⟩
      exact absurd (Option.some.inj hno) (by decide)
    have hat : 1 + 1 + c.length = c.length + 1 + 1 := by omega
    rw [hwhole, charLiteralLength_escape _ _ (one _), escapeLength, if_neg hbrace, if_neg plain]
    dsimp only
    rw [if_pos]
    · simp only [List.length_append, List.length_cons, List.length_nil]
      congr 1
    · rw [hat, List.getElem?_cons_succ, List.getElem?_cons_succ,
        List.getElem?_append_right (Nat.le_refl _), Nat.sub_self]
      rfl

/-- A literal inside the text is one whatever follows. -/
theorem charLiteralLength_append {u : Bytes} {n : Nat} (h : charLiteralLength u = some n)
    (v : Bytes) : charLiteralLength (u ++ v) = some n ∧ 1 ≤ n ∧ n ≤ u.length := by
  obtain ⟨l, rest, rfl, rfl, hl⟩ := charLiteralLength_some h
  refine ⟨?_, ?_, ?_⟩
  · rw [List.append_assoc]
    exact charLiteralLength_of hl _
  · cases hl <;> simp
  · rw [List.length_append]
    exact Nat.le_add_right _ _

/-- A literal without a line end is read inside the line. -/
theorem EndsLine.charLiteralLength_of_append {u v : Bytes} (h : EndsLine u) {n : Nat}
    (hfound : charLiteralLength (u ++ v) = some n)
    (hline : ∀ b ∈ (u ++ v).take n, isLineEnd b = false) : charLiteralLength u = some n := by
  obtain ⟨l, rest, heq, rfl, hl⟩ := charLiteralLength_some hfound
  rw [heq, List.take_left] at hline
  obtain ⟨⟨more, rfl⟩, -⟩ := h.prefix_of hline ⟨rest, heq.symm⟩
  exact charLiteralLength_of hl more

/-! ## §4 Tokens -/

namespace Lexer

variable {self : Lexer} {u : Bytes}

theorem opensString_append (h : EndsLine u) (v : Bytes) :
    self.opensString (u ++ v) = self.opensString u := by
  rw [opensString, opensString]
  cases self.custom with
  | none =>
    dsimp only
    rw [h.head? v]
  | some definition =>
    dsimp only
    rw [h.take_scalar v]

/-- What opens in a line opens there whatever follows. -/
theorem opening_append (hvalid : self.Valid) (h : EndsLine u) (v : Bytes) :
    self.opening (u ++ v) = self.opening u := by
  have hline : (self.lineComment.filter fun token => token.isPrefixOf (u ++ v)) =
      self.lineComment.filter fun token => token.isPrefixOf u := by
    cases hcase : self.lineComment with
    | none => rfl
    | some token =>
      rw [Option.filter_some, Option.filter_some,
        h.isPrefixOf (hvalid.lineComment token hcase).inLine]
  have hblock : (self.blockComment.filter fun tokens => tokens.1.isPrefixOf (u ++ v)) =
      self.blockComment.filter fun tokens => tokens.1.isPrefixOf u := by
    cases hcase : self.blockComment with
    | none => rfl
    | some tokens =>
      rw [Option.filter_some, Option.filter_some,
        h.isPrefixOf (hvalid.blockComment tokens hcase).1.inLine]
  rw [opening, opening, hline, hblock, h.rawStart_append v, opensString_append h v,
    h.take_scalar v]
  cases hcase : self.lineComment.filter fun token => token.isPrefixOf u with
  | none => rfl
  | some token =>
    obtain ⟨htoken, hstarts⟩ := Option.filter_eq_some_iff.mp hcase
    obtain ⟨⟨rest, rfl⟩, hlt⟩ := h.prefix_of (v := [])
      (hvalid.lineComment token htoken).inLine
      (by rw [List.append_nil]; exact List.isPrefixOf_iff_prefix.mp hstarts)
    dsimp only
    rw [List.append_assoc, List.drop_left, List.drop_left]
    have hrest : EndsLine rest := by
      have := h.drop hlt
      rwa [List.drop_left] at this
    rw [(hrest.commentLen_append v).1]

theorem commentLen_le (rest : Bytes) : commentLen rest ≤ rest.length :=
  (List.takeWhile_prefix _).length_le

/-- An opening is a nonempty front of the text. -/
theorem opening_bounds (hvalid : self.Valid) {rest : Bytes} (hne : rest ≠ []) {token : Token}
    (h : self.opening rest = some token) : 1 ≤ token.length ∧ token.length ≤ rest.length := by
  rw [opening] at h
  cases hline : self.lineComment.filter fun token => token.isPrefixOf rest with
  | some marker =>
    rw [hline] at h
    obtain ⟨hmarker, hstarts⟩ := Option.filter_eq_some_iff.mp hline
    obtain ⟨more, rfl⟩ := List.isPrefixOf_iff_prefix.mp hstarts
    obtain rfl := Option.some.inj h
    have hpos := List.length_pos_iff.mpr (hvalid.lineComment marker hmarker).nonempty
    have := commentLen_le more
    dsimp only
    rw [List.drop_left, List.length_append]
    omega
  | none =>
    rw [hline] at h
    dsimp only at h
    cases hblock : self.blockComment.filter fun tokens => tokens.1.isPrefixOf rest with
    | some markers =>
      rw [hblock] at h
      obtain ⟨hmarkers, hstarts⟩ := Option.filter_eq_some_iff.mp hblock
      obtain ⟨more, rfl⟩ := List.isPrefixOf_iff_prefix.mp hstarts
      obtain rfl := Option.some.inj h
      have hpos := List.length_pos_iff.mpr (hvalid.blockComment markers hmarkers).1.nonempty
      dsimp only
      rw [List.length_append]
      omega
    | none =>
      rw [hblock] at h
      dsimp only at h
      cases hraw : (if self.language = .rust then rawStart rest else none) with
      | some pair =>
        obtain ⟨length, hashes⟩ := pair
        rw [hraw] at h
        obtain rfl := Option.some.inj h
        split_ifs at hraw
        exact rawStart_le hraw
      | none =>
        rw [hraw] at h
        dsimp only at h
        split_ifs at h
        obtain rfl := Option.some.inj h
        have hbounds := scalarLen_bounds hne
        dsimp only
        rw [List.length_take]
        omega

/-- Numbers, words and operators of a line are the same whatever follows. -/
theorem plain_append (h : EndsLine u) (v : Bytes) : self.plain (u ++ v) = self.plain u := by
  rw [plain, plain]
  dsimp only
  rw [h.take_scalar v, h.drop_scalar v, h.scalarLen_append v]
  have hbounds := scalarLen_bounds h.ne_nil
  rcases h.scalarLen_lt with hlt | ⟨b, rfl, hb⟩
  · have hbehind := h.drop hlt
    have hword : wordLen self.vocabulary (u.drop (scalarLen u) ++ v).length
          (u.drop (scalarLen u) ++ v) =
        wordLen self.vocabulary (u.drop (scalarLen u)).length (u.drop (scalarLen u)) :=
      hbehind.wordLen_append v _ (by rw [List.length_append]; omega) (Nat.le_refl _)
    have hle := wordLen_le self.vocabulary (u.drop (scalarLen u)).length (u.drop (scalarLen u))
    have hdrop : (u.drop (scalarLen u)).length = u.length - scalarLen u := List.length_drop
    rw [hbehind.head? v, hbehind.numberLen_append v, hword,
      List.take_append_of_le_length (by omega)]
  · -- the line end itself is no number and no word
    have hone : scalarLen [b] = 1 := by
      rw [scalarLen, scan_lineEnd hb]
    have htake : [b].take (scalarLen [b]) = [b] := by
      rw [hone]
      rfl
    obtain ⟨-, -, halnum, h95, -, -, h45, -, -⟩ := lineEnd_ascii b hb
    have hdigit : isDigit b = false := by
      rw [isAsciiAlphanumeric, Bool.or_eq_false_iff, Bool.or_eq_false_iff] at halnum
      exact halnum.1.1
    have hnumber : ∀ behind : Bytes, ¬([b].length = 1 ∧ [b].all isDigit = true ∨
        self.language = .json ∧ [b] = [45] ∧ behind.head?.any isDigit = true) := by
      rintro behind (⟨-, hno⟩ | ⟨-, hno, -⟩)
      · rw [List.all_cons, hdigit] at hno
        cases hno
      · exact h45 (List.cons.inj hno).1
    have hword : ¬([b] = [95] ∨ self.vocabulary.isAlphabetic [b] = true) := by
      rintro (hno | hno)
      · exact h95 (List.cons.inj hno).1
      · rw [(self.vocabulary.lineEnd b hb).1] at hno
        cases hno
    rw [htake, if_neg (hnumber _), if_neg (hnumber _), if_neg hword, if_neg hword]

theorem plain_bounds {rest : Bytes} (hne : rest ≠ []) :
    1 ≤ (self.plain rest).length ∧ (self.plain rest).length ≤ rest.length := by
  have hbounds := scalarLen_bounds hne
  have hnumber := numberLen_le ((rest.take (scalarLen rest)).headD 0) (rest.drop (scalarLen rest))
  have hword := wordLen_le self.vocabulary (rest.drop (scalarLen rest)).length
    (rest.drop (scalarLen rest))
  have hdrop : (rest.drop (scalarLen rest)).length = rest.length - scalarLen rest :=
    List.length_drop
  rw [plain]
  dsimp only
  split_ifs
  all_goals
    dsimp only
    omega

/-- The lexer reads a character literal that goes around a line end. -/
def Broken (self : Lexer) (state : State) (rest : Bytes) : Prop :=
  state = .normal ∧ ∃ n, self.charLiteral rest = some n ∧
    ∃ b ∈ rest.take n, isLineEnd b = true

/-- More text does not mend a broken line. -/
theorem broken_append (hvalid : self.Valid) (h : EndsLine u) {state : State} {w : Bytes} (v : Bytes)
    (hbroken : self.Broken state (u ++ w)) : self.Broken state (u ++ w ++ v) := by
  obtain ⟨hstate, n, hliteral, b, hb, hend⟩ := hbroken
  rw [charLiteral] at hliteral
  split_ifs at hliteral with hrust
  obtain ⟨hfound, -, hle⟩ := charLiteralLength_append hliteral v
  refine ⟨hstate, n, ?_, b, ?_, hend⟩
  · rw [charLiteral, if_pos, hfound]
    rw [List.append_assoc, opening_append hvalid h]
    rw [opening_append hvalid h] at hrust
    exact hrust
  · rw [List.take_append_of_le_length hle]
    exact hb

/-- What starts a block comment or ends one does so whatever follows. -/
theorem blockToken_append (hvalid : self.Valid) (h : EndsLine u) (v : Bytes) (depth : Nat) :
    self.blockToken depth (u ++ v) = self.blockToken depth u := by
  have hmarkers : Marker (self.blockComment.getD ([47, 42], [42, 47])).1 ∧
      Marker (self.blockComment.getD ([47, 42], [42, 47])).2 := by
    cases hcase : self.blockComment with
    | none => exact ⟨isMarker_iff.mp rfl, isMarker_iff.mp rfl⟩
    | some markers => exact hvalid.blockComment markers hcase
  rw [blockToken, blockToken]
  rw [h.isPrefixOf hmarkers.1.inLine, h.isPrefixOf hmarkers.2.inLine, h.scalarLen_append v]

theorem rawToken_append (h : EndsLine u) (v : Bytes) (hashes : Nat) :
    rawToken hashes (u ++ v) = rawToken hashes u := by
  have hclose : ((u ++ v).head? = some DOUBLE_QUOTE ∧ hashes ≤ ((u ++ v).drop 1).length ∧
        (((u ++ v).drop 1).take hashes).all (· == HASH) = true) ↔
      (u.head? = some DOUBLE_QUOTE ∧ hashes ≤ (u.drop 1).length ∧
        ((u.drop 1).take hashes).all (· == HASH) = true) := by
    rw [h.head? v]
    refine and_congr_right fun hquote => ?_
    obtain ⟨t, rfl⟩ : ∃ t, u = DOUBLE_QUOTE :: t := by
      cases u with
      | nil => cases hquote
      | cons a t => exact ⟨t, by rw [Option.some.inj hquote]⟩
    rw [List.cons_append, List.drop_succ_cons, List.drop_zero, List.drop_succ_cons, List.drop_zero]
    have hrest : EndsLine t := by
      refine EndsLine.of_append (p := [DOUBLE_QUOTE]) h ?_
      rintro rfl
      obtain ⟨w, b, heq, hb⟩ := h
      have hlast := congrArg List.getLast? heq
      rw [List.getLast?_concat] at hlast
      obtain rfl := Option.some.inj hlast
      exact absurd hb (by decide)
    constructor
    · rintro ⟨hlen, hall⟩
      have hline : ∀ b ∈ (t ++ v).take hashes, isLineEnd b = false := fun b hb => by
        rw [beq_iff_eq.mp (List.all_eq_true.mp hall b hb)]
        decide
      obtain ⟨hstarts, -⟩ := hrest.prefix_of hline (List.take_prefix _ _)
      have hshort := hstarts.length_le
      rw [List.length_take, Nat.min_eq_left hlen] at hshort
      rw [List.take_append_of_le_length hshort] at hall
      exact ⟨hshort, hall⟩
    · rintro ⟨hlen, hall⟩
      rw [List.take_append_of_le_length hlen, List.length_append]
      exact ⟨by omega, hall⟩
  rw [rawToken, rawToken, h.scalarLen_append v]
  exact if_congr hclose rfl rfl

/-- Every token of a line is the same whatever follows, unless a literal breaks the line. -/
theorem token_append (hvalid : self.Valid) (h : EndsLine u) {v : Bytes} {state : State}
    (hwhole : ¬self.Broken state (u ++ v)) : self.token state (u ++ v) = self.token state u := by
  cases state with
  | block depth => exact blockToken_append hvalid h v depth
  | quote escaped delimiter =>
    rw [token, token, quoteToken, quoteToken]
    rw [h.take_scalar v, h.scalarLen_append v]
  | raw hashes => exact rawToken_append h v hashes
  | normal =>
    have hliteral : self.charLiteral (u ++ v) = self.charLiteral u := by
      rw [charLiteral, charLiteral, opening_append hvalid h v]
      by_cases hrust : self.language = .rust ∧ self.opening u = none
      · rw [if_pos hrust, if_pos hrust]
        cases hfound : charLiteralLength (u ++ v) with
        | none =>
          -- a literal of the line would be one of the text
          cases hline : charLiteralLength u with
          | none => rfl
          | some n =>
            rw [(charLiteralLength_append hline v).1] at hfound
            cases hfound
        | some n =>
          refine (h.charLiteralLength_of_append hfound fun b hb => ?_).symm
          by_contra hend
          rw [Bool.not_eq_false] at hend
          refine hwhole ⟨rfl, n, ?_, b, hb, hend⟩
          rw [charLiteral, opening_append hvalid h v, if_pos hrust, hfound]
      · rw [if_neg hrust, if_neg hrust]
    rw [token, token]
    rw [opening_append hvalid h v, hliteral, plain_append h v]

/-- A token is a nonempty front of the rest. -/
theorem token_bounds (hvalid : self.Valid) (state : State) {rest : Bytes} (hne : rest ≠ []) :
    1 ≤ (self.token state rest).length ∧ (self.token state rest).length ≤ rest.length := by
  have hbounds := scalarLen_bounds hne
  cases state with
  | block depth =>
    have hmarkers : ∀ marker, marker = (self.blockComment.getD ([47, 42], [42, 47])).1 ∨
        marker = (self.blockComment.getD ([47, 42], [42, 47])).2 → 0 < marker.length := by
      intro marker hmarker
      cases hcase : self.blockComment with
      | none =>
        rw [hcase] at hmarker
        rcases hmarker with rfl | rfl <;> exact Nat.zero_lt_two
      | some markers =>
        rw [hcase] at hmarker
        have hboth := hvalid.blockComment markers hcase
        rcases hmarker with rfl | rfl
        · exact List.length_pos_iff.mpr hboth.1.nonempty
        · exact List.length_pos_iff.mpr hboth.2.nonempty
    rw [token, blockToken]
    by_cases hopen : self.language = .rust ∧
        (self.blockComment.getD ([47, 42], [42, 47])).1.isPrefixOf rest = true
    · rw [if_pos hopen]
      exact ⟨hmarkers _ (.inl rfl), (List.isPrefixOf_iff_prefix.mp hopen.2).length_le⟩
    rw [if_neg hopen]
    by_cases hclose : (self.blockComment.getD ([47, 42], [42, 47])).2.isPrefixOf rest = true
    · rw [if_pos hclose]
      exact ⟨hmarkers _ (.inr rfl), (List.isPrefixOf_iff_prefix.mp hclose).length_le⟩
    · rw [if_neg hclose]
      exact hbounds
  | quote escaped delimiter => exact hbounds
  | raw hashes =>
    rw [token, rawToken]
    split_ifs with hclose
    · have := hclose.2.1
      rw [List.length_drop] at this
      have := List.length_pos_iff.mpr hne
      dsimp only
      omega
    · exact hbounds
  | normal =>
    rw [token]
    cases hopen : self.opening rest with
    | some token => exact opening_bounds hvalid hne hopen
    | none =>
      cases hliteral : self.charLiteral rest with
      | some n =>
        rw [charLiteral] at hliteral
        split_ifs at hliteral
        exact (charLiteralLength_append hliteral []).2
      | none => exact plain_bounds hne

end Lexer

end BareLine.Syntax
