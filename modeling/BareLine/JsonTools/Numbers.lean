import BareLine.JsonTools.Reads

/-!
# The parser reads numbers

- §1: what was read.
- §2: what is read.
-/

namespace BareLine.JsonTools.Process

open Lib

variable (layout : Layout)

/-! ## §1 Soundness -/

theorem digits_sound {P : Bytes → Prop} (d : Nat) :
    Sound P d d (digits layout) fun _ bytes => ∃ ds : Digits, ds.bytes = bytes := by
  refine .peek fun head => ?_
  cases head with
  | none => exact .fail
  | some b =>
    dsimp only
    split_ifs with hb
    · intro s a s' hs hd hhead hrun
      obtain ⟨t, ht⟩ : ∃ t, s.rest = b :: t := List.head?_eq_some_iff.mp hhead
      -- the byte that was seen is the first that the loop takes
      dsimp only at hrun
      rw [ht, List.length_cons, whileNext, bind_run (peek_run hs), hhead] at hrun
      dsimp only at hrun
      rw [if_pos hb] at hrun
      obtain ⟨hs', hd', bytes, hrest, -, x, y, rfl, rfl, hy⟩ := ((copy_seen layout d b).bind
        fun _ => whileNext_sound (copy_seen layout d) t.length) s a s' hs hd hhead hrun
      exact ⟨hs', hd', _, hrest, ⟨b :: y, List.cons_ne_nil _ _, List.forall_mem_cons.mpr ⟨hb, hy⟩⟩,
        rfl⟩
    · exact .fail

/-- What follows a byte that was copied, or a byte that is none of some. -/
theorem Sound.copyIf {β : Type} {P : Bytes → Prop} {d d' : Nat} {k : Bool → Action β}
    {bytes : Bytes} {G : β → Bytes → Prop}
    (hcopied : ∀ b ∈ bytes, Sound Any d d' (k true) fun a rest => G a (b :: rest))
    (hother : Sound (Stops fun b => decide (b ∈ bytes)) d d' (k false) G) :
    Sound P d d' (copyIf layout bytes >>= k) G := by
  intro s a s' hs hd _ hrun
  obtain ⟨copied, s₁, hcopy, hk⟩ := bind_inv hrun
  rw [Process.copyIf, bind_run (peek_run hs)] at hcopy
  cases hhead : s.rest.head? with
  | none =>
    rw [hhead] at hcopy
    obtain ⟨rfl, rfl⟩ := pure_inv hcopy
    exact hother s₁ a s' hs hd (fun b hb => nomatch hhead.symm.trans hb) hk
  | some b =>
    rw [hhead] at hcopy
    dsimp only at hcopy
    split_ifs at hcopy with hmem
    · obtain ⟨b', s₂, hcopy, hpure⟩ := bind_inv hcopy
      obtain ⟨rfl, rfl⟩ := pure_inv hpure
      obtain ⟨hs₁, hd₁, x, hx, rfl⟩ := copy_seen layout d b s b' s₁ hs hd hhead hcopy
      obtain ⟨hs', hd', y, hy, hG⟩ := hcopied b hmem s₁ a s' hs₁ hd₁ trivial hk
      exact ⟨hs', hd', b :: y, by rw [hx, hy]; rfl, hG⟩
    · obtain ⟨rfl, rfl⟩ := pure_inv hcopy
      refine hother s₁ a s' hs hd (fun b' hb' => ?_) hk
      obtain rfl := Option.some.inj (hhead.symm.trans hb')
      exact decide_eq_false hmem

/-- The whole part of a number, without a zero in front of other digits. -/
theorem whole_sound {P : Bytes → Prop} (d : Nat) :
    Sound P d d (whole layout) fun _ bytes => ∃ ds : Digits, ds.bytes = bytes ∧
      (ds.bytes = [0x30] ∨ ds.bytes.head? ≠ some 0x30) := by
  refine .copyIf layout (fun b hb => ?_) ?_
  · obtain rfl := List.mem_singleton.mp hb
    refine (Sound.pure ()).mono ?_
    rintro - bytes ⟨-, rfl⟩
    exact ⟨⟨[0x30], List.cons_ne_nil _ _, List.forall_mem_singleton.mpr rfl⟩, rfl, .inl rfl⟩
  · refine (digits_sound layout d).front.mono ?_
    rintro - bytes ⟨⟨ds, rfl⟩, rest, hstops⟩
    refine ⟨ds, rfl, .inr fun hzero => ?_⟩
    rw [Stops, List.head?_append_of_ne_nil _ ds.nonempty] at hstops
    exact absurd (hstops _ hzero) (by decide)

theorem fraction_sound {P : Bytes → Prop} (d : Nat) :
    Sound P d d (fraction layout) fun _ bytes => bytes = [] ∨
      ∃ ds : Digits, 0x2E :: ds.bytes = bytes := by
  refine .copyIf layout (fun b hb => ?_) ?_
  · obtain rfl := List.mem_singleton.mp hb
    refine (digits_sound layout d).mono ?_
    rintro - bytes ⟨ds, rfl⟩
    exact .inr ⟨ds, rfl⟩
  · exact (Sound.pure ()).mono fun _ _ h => .inl h.2

theorem exponent_sound {P : Bytes → Prop} (d : Nat) :
    Sound P d d (exponent layout) fun _ bytes => bytes = [] ∨ ∃ e : Exponent, e.render = bytes := by
  refine .copyIf layout (fun letter hletter => ?_) ?_
  · have hletter : letter = 0x65 ∨ letter = 0x45 := by simpa using hletter
    refine .copyIf layout (fun sign hsign => ?_) ?_
    · have hsign : sign = 0x2B ∨ sign = 0x2D := by simpa using hsign
      refine (digits_sound layout d).mono ?_
      rintro - bytes ⟨ds, rfl⟩
      refine .inr ⟨⟨letter, [sign], ds, hletter, ?_⟩, rfl⟩
      rcases hsign with rfl | rfl
      · exact .inr (.inl rfl)
      · exact .inr (.inr rfl)
    · refine (digits_sound layout d).mono ?_
      rintro - bytes ⟨ds, rfl⟩
      exact .inr ⟨⟨letter, [], ds, hletter, .inl rfl⟩, rfl⟩
  · exact (Sound.pure ()).mono fun _ _ h => .inl h.2

/-- A number was read. -/
theorem number_sound {P : Bytes → Prop} (d : Nat) :
    Sound P d d (number layout) fun _ bytes => ∃ n : Number, n.render = bytes := by
  have hparts : ∀ minus : Bool, Sound Any d d
      (whole layout >>= fun _ => fraction layout >>= fun _ => exponent layout)
      fun _ bytes => ∃ n : Number, n.minus = minus ∧
        n.whole.bytes ++ (n.fractionBytes ++ n.exponentBytes) = bytes := by
    intro minus
    refine ((whole_sound layout d).bind fun _ => (fraction_sound layout d).bind fun _ =>
      exponent_sound layout d).mono ?_
    rintro - bytes ⟨-, _, _, rfl, ⟨ds, rfl, hleading⟩, -, x, y, rfl, hx, hy⟩
    obtain ⟨f, hf⟩ : ∃ f, ∀ n : Number, n.fraction = f → n.fractionBytes = x := by
      rcases hx with rfl | ⟨digits, rfl⟩
      · exact ⟨none, fun n hn => by rw [Number.fractionBytes, hn]⟩
      · exact ⟨some digits, fun n hn => by rw [Number.fractionBytes, hn]⟩
    obtain ⟨e, he⟩ : ∃ e, ∀ n : Number, n.exponent = e → n.exponentBytes = y := by
      rcases hy with rfl | ⟨exponent, rfl⟩
      · exact ⟨none, fun n hn => by rw [Number.exponentBytes, hn]⟩
      · exact ⟨some exponent, fun n hn => by rw [Number.exponentBytes, hn]⟩
    exact ⟨⟨minus, ds, f, e, hleading⟩, rfl, by rw [hf _ rfl, he _ rfl]⟩
  refine .copyIf layout (fun b hb => ?_) ?_
  · obtain rfl := List.mem_singleton.mp hb
    refine (hparts true).mono ?_
    rintro - bytes ⟨n, hminus, rfl⟩
    exact ⟨n, by rw [Number.render, Number.minusBytes, hminus]; rfl⟩
  · refine (hparts false).weaken.mono ?_
    rintro - bytes ⟨n, hminus, rfl⟩
    exact ⟨n, by rw [Number.render, Number.minusBytes, hminus]; rfl⟩

/-! ## §2 Completeness -/

/-- The bytes that would go on with a number. -/
def continues (b : UInt8) : Bool := isDigit b || b == 0x2E || b == 0x65 || b == 0x45

theorem Stops.mono {test test' : UInt8 → Bool} {rest : Bytes} (h : Stops test rest)
    (hmono : ∀ b, test b = false → test' b = false) : Stops test' rest :=
  fun b hb => hmono b (h b hb)

/-- The first byte of some that follow decides. -/
theorem Stops.append {test : UInt8 → Bool} {bytes rest : Bytes}
    (hbytes : ∀ b ∈ bytes.head?, test b = false) (hrest : bytes = [] → Stops test rest) :
    Stops test (bytes ++ rest) := by
  cases bytes with
  | nil => exact hrest rfl
  | cons b bytes => exact hbytes

theorem digits_complete (ds : Digits) :
    Complete (digits layout) ds.bytes (written layout ds.bytes) (Stops isDigit) () := by
  obtain ⟨b, bytes, hbytes⟩ := List.exists_cons_of_ne_nil ds.nonempty
  have hb : isDigit b = true := ds.digits b (hbytes ▸ List.mem_cons_self)
  refine .peek (o := some b) ?_ fun _ _ => by rw [hbytes]; rfl
  dsimp only
  rw [if_pos hb]
  intro s hs rest hrest hstops
  have hleft : ds.bytes.length ≤ s.rest.length := by
    rw [hrest, List.length_append]
    exact Nat.le_add_right ..
  have hloop := whileNext_complete (copy_complete layout) ds.digits hleft
  rw [flatMap_written] at hloop
  exact hloop s hs rest hrest hstops

theorem copyIf_complete {bytes : Bytes} {b : UInt8} (h : b ∈ bytes) :
    Complete (copyIf layout bytes) [b] (written layout [b]) Any true := by
  refine .peek (o := some b) ?_ fun _ _ => rfl
  dsimp only
  rw [if_pos h]
  have hcopy := (copy_complete layout b).bind (g := fun _ => pure true) (.pure true)
    fun _ _ => trivial
  simp only [List.append_nil] at hcopy
  exact hcopy

/-- None of the bytes is next. -/
theorem copyIf_stops (bytes : Bytes) :
    Complete (copyIf layout bytes) [] [] (Stops fun b => decide (b ∈ bytes)) false := by
  intro s hs rest hrest hstops
  refine ⟨s, ?_, .refl hs⟩
  rw [copyIf, bind_run (peek_run hs), hrest, List.nil_append]
  cases hhead : rest.head? with
  | none => rfl
  | some b => exact congrFun (if_neg (of_decide_eq_false (hstops b hhead))) s

theorem whole_complete (ds : Digits) (hleading : ds.bytes = [0x30] ∨ ds.bytes.head? ≠ some 0x30) :
    Complete (whole layout) ds.bytes (written layout ds.bytes) (Stops isDigit) () := by
  by_cases hzero : ds.bytes = [0x30]
  · have hrun := (copyIf_complete layout (List.mem_singleton_self 0x30)).bind
      (g := fun zero => if zero = true then pure () else digits layout) (.pure ())
      fun _ _ => trivial
    rw [List.append_nil, List.append_nil] at hrun
    rw [hzero]
    exact hrun.mono fun _ _ => trivial
  · have hhead := hleading.resolve_left hzero
    refine (copyIf_stops layout [0x30]).bind
      (g := fun zero => if zero = true then pure () else digits layout) (digits_complete layout ds)
      fun rest _ => .append (fun b hb => ?_) fun hnil => absurd hnil ds.nonempty
    refine decide_eq_false fun hmem => hhead ?_
    rw [← List.mem_singleton.mp hmem]
    exact hb

theorem fraction_complete (n : Number) :
    Complete (fraction layout) n.fractionBytes (written layout n.fractionBytes)
      (fun rest => Stops isDigit rest ∧ Stops (fun b => decide (b ∈ [0x2E])) rest) () := by
  cases hfraction : n.fraction with
  | none =>
    rw [Number.fractionBytes, hfraction, written_nil]
    exact (copyIf_stops layout [0x2E]).bind
      (g := fun point => if point = true then digits layout else pure ())
      ((Complete.pure ()).mono fun _ _ => trivial) fun _ h => h.2
  | some ds =>
    rw [Number.fractionBytes, hfraction]
    show Complete _ ([0x2E] ++ ds.bytes) (written layout ([0x2E] ++ ds.bytes)) _ _
    rw [written_append]
    exact ((copyIf_complete layout (List.mem_singleton_self 0x2E)).bind
      (g := fun point => if point = true then digits layout else pure ())
      (digits_complete layout ds) fun _ _ => trivial).mono fun rest h => h.1

theorem exponent_complete (n : Number) :
    Complete (exponent layout) n.exponentBytes (written layout n.exponentBytes)
      (fun rest => Stops isDigit rest ∧ Stops (fun b => decide (b ∈ [0x65, 0x45])) rest) () := by
  cases hexponent : n.exponent with
  | none =>
    rw [Number.exponentBytes, hexponent, written_nil]
    exact (copyIf_stops layout [0x65, 0x45]).bind
      (g := fun letter => if letter = true then copyIf layout [0x2B, 0x2D] >>= fun _ =>
        digits layout else pure ()) ((Complete.pure ()).mono fun _ _ => trivial) fun _ h => h.2
  | some e =>
    have hletter : e.letter ∈ ([0x65, 0x45] : Bytes) := by simpa using e.letter_eq
    have hsigned : Complete (copyIf layout [0x2B, 0x2D] >>= fun _ => digits layout)
        (e.sign ++ e.digits.bytes) (written layout (e.sign ++ e.digits.bytes)) (Stops isDigit)
        () := by
      have hcopied : ∀ b ∈ ([0x2B, 0x2D] : Bytes), Complete
          (copyIf layout [0x2B, 0x2D] >>= fun _ => digits layout) ([b] ++ e.digits.bytes)
          (written layout ([b] ++ e.digits.bytes)) (Stops isDigit) () := by
        intro b hb
        rw [written_append]
        exact (copyIf_complete layout hb).bind (digits_complete layout e.digits) fun _ _ => trivial
      rcases e.sign_eq with hsign | hsign | hsign <;> rw [hsign]
      · refine (copyIf_stops layout [0x2B, 0x2D]).bind (digits_complete layout e.digits)
          fun rest _ => .append (fun b hb => ?_) fun hnil => absurd hnil e.digits.nonempty
        have hdigit := e.digits.digits b (List.mem_of_mem_head? hb)
        have hno : ∀ b : UInt8, isDigit b = true → decide (b ∈ ([0x2B, 0x2D] : Bytes)) = false := by
          grind [isDigit]
        exact hno b hdigit
      · exact hcopied _ List.mem_cons_self
      · exact hcopied _ (List.mem_cons_of_mem _ List.mem_cons_self)
    rw [Number.exponentBytes, hexponent]
    show Complete _ ([e.letter] ++ (e.sign ++ e.digits.bytes))
      (written layout ([e.letter] ++ (e.sign ++ e.digits.bytes))) _ _
    rw [written_append]
    exact ((copyIf_complete layout hletter).bind
      (g := fun letter => if letter = true then copyIf layout [0x2B, 0x2D] >>= fun _ =>
        digits layout else pure ()) hsigned fun _ _ => trivial).mono fun rest h => h.1

/-- A number is read up to a byte that does not go on with it. -/
theorem number_complete (n : Number) :
    Complete (number layout) n.render (written layout n.render) (Stops continues) () := by
  have hdigit : ∀ b, continues b = false → isDigit b = false := by
    intro b hb
    simp only [continues, Bool.or_eq_false_iff] at hb
    exact hb.1.1.1
  have hpoint : ∀ b, continues b = false → decide (b ∈ ([0x2E] : Bytes)) = false := by
    intro b hb
    simp only [continues, Bool.or_eq_false_iff, beq_eq_false_iff_ne] at hb
    simpa using hb.1.1.2
  have hletter : ∀ b, continues b = false → decide (b ∈ ([0x65, 0x45] : Bytes)) = false := by
    intro b hb
    simp only [continues, Bool.or_eq_false_iff, beq_eq_false_iff_ne] at hb
    simpa using ⟨hb.1.2, hb.2⟩
  have hexponent : ∀ b ∈ n.exponentBytes.head?, b = 0x65 ∨ b = 0x45 := by
    intro b hb
    rw [Number.exponentBytes] at hb
    split at hb
    · exact nomatch hb
    · obtain rfl := Option.some.inj hb
      exact Exponent.letter_eq _
  have hfraction : ∀ b ∈ n.fractionBytes.head?, b = 0x2E := by
    intro b hb
    rw [Number.fractionBytes] at hb
    split at hb
    · exact nomatch hb
    · exact (Option.some.inj hb).symm
  have hparts : Complete (whole layout >>= fun _ => fraction layout >>= fun _ => exponent layout)
      (n.whole.bytes ++ (n.fractionBytes ++ n.exponentBytes))
      (written layout (n.whole.bytes ++ (n.fractionBytes ++ n.exponentBytes))) (Stops continues)
      () := by
    rw [written_append, written_append]
    refine (whole_complete layout n.whole n.leading).bind ((fraction_complete layout n).bind
      ((exponent_complete layout n).mono fun rest h => ⟨h.mono hdigit, h.mono hletter⟩)
        fun rest h => ?_) fun rest h => ?_
    · refine ⟨.append (fun b hb => ?_) fun _ => h.mono hdigit,
        .append (fun b hb => ?_) fun _ => h.mono hpoint⟩ <;>
      rcases hexponent b hb with rfl | rfl <;> decide
    · rw [List.append_assoc]
      refine .append (fun b hb => ?_) fun _ => .append (fun b hb => ?_) fun _ => h.mono hdigit
      · obtain rfl := hfraction b hb
        decide
      · rcases hexponent b hb with rfl | rfl <;> decide
  cases hminus : n.minus with
  | true =>
    rw [Number.render, Number.minusBytes, hminus, written_append]
    exact (copyIf_complete layout (List.mem_singleton_self 0x2D)).bind hparts fun _ _ => trivial
  | false =>
    rw [Number.render, Number.minusBytes, hminus, written_append]
    show Complete _ _ (written layout [] ++ _) _ _
    rw [written_nil]
    refine (copyIf_stops layout [0x2D]).bind hparts fun rest _ => ?_
    rw [List.append_assoc]
    refine .append (fun b hb => ?_) fun hnil => absurd hnil n.whole.nonempty
    have hno : ∀ b : UInt8, isDigit b = true → decide (b ∈ ([0x2D] : Bytes)) = false := by
      grind [isDigit]
    exact hno b (n.whole.digits b (List.mem_of_mem_head? hb))

end BareLine.JsonTools.Process
