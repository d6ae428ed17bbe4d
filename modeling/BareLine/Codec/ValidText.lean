import BareLine.Codec.Utf8

/-!
# Valid UTF-8

What `str::from_utf8` accepts, stated as a sequence of whole scalars, and the facts about cutting
such a sequence that a reader of a byte window needs: a cut is clean exactly in front of a byte
that continues nothing, and no more than three bytes in a row continue a scalar.
-/

namespace BareLine.Codec

open Lib

/-! ## §1 Scanning is local -/

/-- Continuation bytes only. -/
def Continues (t : Bytes) : Prop := ∀ b ∈ t, isContinuation b = true

/-- The string is empty or starts with a byte that continues nothing. -/
def StartsClean (t : Bytes) : Prop := ∀ b ∈ t.head?, isContinuation b = false

@[simp] theorem startsClean_nil : StartsClean [] := fun _ h => nomatch h

theorem StartsClean.append {t u : Bytes} (h : StartsClean t) (hne : t ≠ []) :
    StartsClean (t ++ u) := by
  cases t with
  | nil => exact absurd rfl hne
  | cons a t => exact h

theorem StartsClean.not_continues {t : Bytes} (h : StartsClean t) (hall : Continues t) :
    t = [] := by
  cases t with
  | nil => rfl
  | cons a t =>
    have hclean : isContinuation a = false := h a rfl
    rw [hall a List.mem_cons_self] at hclean
    cases hclean

/-- The second byte of a longer scalar continues it. -/
theorem secondOk_continuation {lead second : UInt8} (h : secondOk lead second = true) :
    isContinuation second = true := by
  have hall : ∀ i : Fin 256, 0x80 ≤ UInt8.ofFin i → UInt8.ofFin i ≤ 0xBF →
      isContinuation (UInt8.ofFin i) = true := by decide +kernel
  have hbounds : 0x80 ≤ second ∧ second ≤ 0xBF := by
    unfold secondOk at h
    split_ifs at h <;> simp only [Bool.and_eq_true, decide_eq_true_eq] at h
    · exact ⟨UInt8.le_trans (by decide) h.1, h.2⟩
    · exact ⟨h.1, UInt8.le_trans h.2 (by decide)⟩
    · exact ⟨UInt8.le_trans (by decide) h.1, h.2⟩
    · exact ⟨h.1, UInt8.le_trans h.2 (by decide)⟩
    · exact h
  exact hall second.toFin hbounds.1 hbounds.2

/-- What `scanTail` finds, by what it reads. -/
theorem scanTail_cases (due n : Nat) (t : Bytes) :
    (scanTail due n t = .valid (n + due) ∧ due ≤ t.length ∧ Continues (t.take due)) ∨
    (scanTail due n t = .cut ∧ t.length < due ∧ Continues t) ∨
    (∃ k, scanTail due n t = .invalid k ∧ ∀ u, scanTail due n (t ++ u) = .invalid k) := by
  induction due generalizing n t with
  | zero => exact .inl ⟨rfl, Nat.zero_le _, fun b h => by simp at h⟩
  | succ due ih =>
    cases t with
    | nil => exact .inr (.inl ⟨rfl, Nat.succ_pos _, fun b h => nomatch h⟩)
    | cons b t =>
      simp only [scanTail, List.cons_append]
      by_cases hb : isContinuation b = true
      · simp only [if_pos hb, List.length_cons, List.take_succ_cons]
        have hcons : ∀ u : Bytes, Continues u → Continues (b :: u) := fun u hu a ha => by
          rcases List.mem_cons.mp ha with rfl | ha
          · exact hb
          · exact hu a ha
        rcases ih (n + 1) t with ⟨hscan, hlen, hall⟩ | ⟨hscan, hlen, hall⟩ | hinvalid
        · exact .inl ⟨by rw [hscan]; congr 1; omega, Nat.succ_le_succ hlen, hcons _ hall⟩
        · exact .inr (.inl ⟨hscan, Nat.succ_lt_succ hlen, hcons _ hall⟩)
        · exact .inr (.inr hinvalid)
      · simp only [if_neg hb]
        exact .inr (.inr ⟨n, rfl, fun _ => rfl⟩)

/-- `scanTail` reads the bytes it is due and no more. -/
theorem scanTail_valid_of {due n : Nat} {t : Bytes} (hlen : due ≤ t.length)
    (hall : Continues (t.take due)) : scanTail due n t = .valid (n + due) := by
  induction due generalizing n t with
  | zero => rfl
  | succ due ih =>
    cases t with
    | nil => exact absurd hlen (Nat.not_succ_le_zero _)
    | cons b t =>
      rw [List.take_succ_cons] at hall
      rw [scanTail, if_pos (hall b List.mem_cons_self),
        ih (Nat.le_of_succ_le_succ hlen) fun a ha => hall a (List.mem_cons_of_mem _ ha)]
      congr 1
      omega

/-- What `scan` finds: a scalar, whose further bytes continue it and decide the scan; a front
of a scalar, at most three bytes that continue its first; or an error that further bytes do not
mend. -/
inductive Scanned (t : Bytes) : Scan → Prop where
  | valid (k : Nat) (pos : 1 ≤ k) (le : k ≤ t.length) (four : k ≤ 4)
      (clean : StartsClean t) (tail : Continues ((t.take k).drop 1))
      (local' : ∀ u, scan (t.take k ++ u) = .valid k) : Scanned t (.valid k)
  | cut (three : t.length ≤ 3) (clean : StartsClean t) (tail : Continues (t.drop 1)) :
      Scanned t .cut
  | invalid (k : Nat) (local' : ∀ u, scan (t ++ u) = .invalid k) : Scanned t (.invalid k)

private theorem ascii_clean (b : UInt8) (h : b < 0x80) : isContinuation b = false := by
  have hall : ∀ i : Fin 256, UInt8.ofFin i < 0x80 → isContinuation (UInt8.ofFin i) = false := by
    decide +kernel
  exact hall b.toFin h

private theorem lead_clean (b : UInt8) (h : 0xC2 ≤ b) : isContinuation b = false := by
  have hall : ∀ i : Fin 256, 0xC2 ≤ UInt8.ofFin i → isContinuation (UInt8.ofFin i) = false := by
    decide +kernel
  exact hall b.toFin h

private theorem clean_cons {a : UInt8} (h : isContinuation a = false) (t : Bytes) :
    StartsClean (a :: t) := fun b hb => by cases hb; exact h

/-- A scan that takes `n` bytes for granted, up to two in front of the rest. -/
private theorem scanned_tail {due : Nat} (front rest : Bytes) (hdue : due + front.length ≤ 4)
    (hpos : 0 < due) (hclean : StartsClean front) (hne : front ≠ [])
    (hfront : Continues (front.drop 1))
    (hscan : ∀ u, scan (front ++ u) = scanTail due front.length u) :
    Scanned (front ++ rest) (scanTail due front.length rest) := by
  have hstart := hclean.append (u := rest) hne
  have hone : 1 ≤ front.length := List.length_pos_iff.mpr hne
  have htail : ∀ u : Bytes, Continues u → Continues ((front ++ u).drop 1) := fun u hu b hb => by
    rw [List.drop_append_of_le_length hone, List.mem_append] at hb
    exact hb.elim (hfront b) (hu b)
  rcases scanTail_cases due front.length rest with
    ⟨hvalid, hlen, hall⟩ | ⟨hcut, hlen, hall⟩ | ⟨k, hinvalid, hmore⟩
  · rw [hvalid]
    have htake : (front ++ rest).take (front.length + due) = front ++ rest.take due :=
      List.take_length_add_append _
    refine .valid _ (by omega) ?_ (by omega) hstart ?_ ?_
    · rw [List.length_append]
      omega
    · rw [htake]
      exact htail _ hall
    · intro u
      rw [htake, List.append_assoc, hscan, scanTail_valid_of]
      · rw [List.length_append, List.length_take]
        omega
      · rw [List.take_append_of_le_length (by rw [List.length_take]; omega), List.take_take,
          Nat.min_self]
        exact hall
  · rw [hcut]
    refine .cut ?_ hstart (htail _ hall)
    rw [List.length_append]
    omega
  · rw [hinvalid]
    refine .invalid k fun u => ?_
    rw [List.append_assoc, hscan, hmore u]

theorem scan_scanned {t : Bytes} : Scanned t (scan t) := by
  cases t with
  | nil => exact .cut (Nat.zero_le _) startsClean_nil fun b h => nomatch h
  | cons lead rest =>
    by_cases hascii : lead < 0x80
    · have hscan : ∀ u, scan (lead :: u) = .valid 1 := fun u => by
        unfold scan
        simp only [if_pos hascii]
      rw [hscan]
      exact .valid 1 (Nat.le_refl _) (Nat.succ_le_succ (Nat.zero_le _)) (by decide)
        (clean_cons (ascii_clean lead hascii) rest) (fun b h => by simp at h) hscan
    by_cases htwo : 0xC2 ≤ lead ∧ lead ≤ 0xDF
    · have hscan : ∀ u, scan ([lead] ++ u) = scanTail 1 1 u := fun u => by
        rw [List.singleton_append]
        unfold scan
        simp only [if_neg hascii, if_pos htwo]
      have hrest : Scanned ([lead] ++ rest) (scanTail 1 1 rest) :=
        scanned_tail [lead] rest (Nat.le_of_ble_eq_true rfl) Nat.one_pos
          (clean_cons (lead_clean lead htwo.1) []) (List.cons_ne_nil _ _) (fun b h => nomatch h)
          hscan
      rwa [← hscan] at hrest
    by_cases hmore : 0xE0 ≤ lead ∧ lead ≤ 0xF4
    · have hclean := lead_clean lead (UInt8.le_trans (by decide) hmore.1)
      cases rest with
      | nil =>
        have hscan : scan [lead] = .cut := by
          unfold scan
          simp only [if_neg hascii, if_neg htwo, if_pos hmore]
        rw [hscan]
        exact .cut (Nat.le_of_ble_eq_true rfl) (clean_cons hclean []) fun b h => nomatch h
      | cons second rest =>
        have hscan : ∀ u, scan (lead :: second :: u) =
            if secondOk lead second then scanTail (if lead ≤ 0xEF then 1 else 2) 2 u
            else .invalid 1 := fun u => by
          unfold scan
          simp only [if_neg hascii, if_neg htwo, if_pos hmore]
        by_cases hsecond : secondOk lead second = true
        · simp only [if_pos hsecond] at hscan
          have hdue : 0 < (if lead ≤ 0xEF then 1 else 2) ∧
              (if lead ≤ 0xEF then 1 else 2) + 2 ≤ 4 := by
            split_ifs <;> decide
          have := scanned_tail [lead, second] rest hdue.2 hdue.1
            (clean_cons hclean _) (List.cons_ne_nil _ _)
            (fun b h => by
              rw [List.drop_succ_cons, List.drop_zero, List.mem_singleton] at h
              exact h ▸ secondOk_continuation hsecond)
            (fun u => by rw [List.cons_append, List.singleton_append]; exact hscan u)
          have heq := hscan rest
          rw [show lead :: second :: rest = [lead, second] ++ rest from rfl] at heq ⊢
          rwa [heq]
        · simp only [if_neg hsecond] at hscan
          rw [hscan]
          exact .invalid 1 fun u => hscan _
    · have hscan : ∀ u, scan (lead :: u) = .invalid 1 := fun u => by
        unfold scan
        simp only [if_neg hascii, if_neg htwo, if_neg hmore]
      rw [hscan]
      exact .invalid 1 fun u => hscan _

theorem scan_valid_four {t : Bytes} {k : Nat} (h : scan t = .valid k) : k ≤ 4 := by
  have := scan_scanned (t := t)
  rw [h] at this
  cases this with
  | valid k pos le four clean tail local' => exact four

/-! ## §2 Texts -/

/-- The bytes of one scalar. -/
def Scalar (c : Bytes) : Prop := scan c = .valid c.length

/-- A sequence of whole scalars. -/
inductive IsText : Bytes → Prop where
  | nil : IsText []
  | cons {c u : Bytes} (scalar : Scalar c) (rest : IsText u) : IsText (c ++ u)

namespace Scalar

variable {c : Bytes}

theorem scan_append (h : Scalar c) (u : Bytes) : scan (c ++ u) = .valid c.length := by
  have := scan_scanned (t := c)
  rw [show scan c = .valid c.length from h] at this
  cases this with
  | valid k pos le four clean tail local' => rw [← local' u, List.take_length]

theorem ne_nil (h : Scalar c) : c ≠ [] := by
  rintro rfl
  exact nomatch h

theorem length_le (h : Scalar c) : c.length ≤ 4 := scan_valid_four h

theorem clean (h : Scalar c) : StartsClean c := by
  have := scan_scanned (t := c)
  rw [show scan c = .valid c.length from h] at this
  cases this with
  | valid k pos le four clean tail local' => exact clean

theorem tail (h : Scalar c) : Continues (c.drop 1) := by
  have := scan_scanned (t := c)
  rw [show scan c = .valid c.length from h] at this
  cases this with
  | valid k pos le four clean tail local' => rwa [List.take_length] at tail

/-- A cut inside a scalar is not clean. -/
theorem not_clean {p m : Bytes} (h : Scalar (p ++ m)) (hp : p ≠ []) (hm : StartsClean m) :
    m = [] := by
  refine hm.not_continues fun b hb => h.tail b ?_
  rw [List.drop_append_of_le_length (List.length_pos_iff.mpr hp)]
  exact List.mem_append_right _ hb

end Scalar

theorem scalar_take {t : Bytes} {k : Nat} (h : scan t = .valid k) : Scalar (t.take k) := by
  have := scan_scanned (t := t)
  rw [h] at this
  cases this with
  | valid k pos le four clean tail local' =>
    have hlocal := local' []
    rw [List.append_nil] at hlocal
    rw [Scalar, hlocal, List.length_take, Nat.min_eq_left le]

namespace IsText

/-- A text starts with the scalar its scan finds. -/
theorem cases_scan {t : Bytes} (h : IsText t) (hne : t ≠ []) :
    ∃ c u, t = c ++ u ∧ Scalar c ∧ IsText u := by
  cases h with
  | nil => exact absurd rfl hne
  | cons scalar rest => exact ⟨_, _, rfl, scalar, rest⟩

theorem clean {t : Bytes} (h : IsText t) : StartsClean t := by
  cases h with
  | nil => exact startsClean_nil
  | cons scalar rest => exact scalar.clean.append scalar.ne_nil

/-- A text minus a front that is a scalar. -/
theorem of_scalar_append {c u : Bytes} (hc : Scalar c) (h : IsText (c ++ u)) : IsText u := by
  obtain ⟨d, v, heq, hd, hv⟩ := h.cases_scan (List.append_ne_nil_of_left_ne_nil hc.ne_nil u)
  have hlen : c.length = d.length := by
    have hscan := hc.scan_append u
    rw [heq, hd.scan_append v] at hscan
    exact (Scan.valid.inj hscan).symm
  rw [(List.append_inj heq hlen).2]
  exact hv

/-- A text minus a front that is a text. -/
theorem of_append {p q : Bytes} (hp : IsText p) (h : IsText (p ++ q)) : IsText q := by
  induction hp with
  | nil => exact h
  | cons scalar rest ih =>
    rw [List.append_assoc] at h
    exact ih (of_scalar_append scalar h)

/-- Both sides of a clean cut are texts. -/
theorem of_clean {p q : Bytes} (h : IsText (p ++ q)) (hq : StartsClean q) :
    IsText p ∧ IsText q := by
  generalize ht : p ++ q = t at h
  induction h generalizing p with
  | nil =>
    obtain ⟨rfl, rfl⟩ := List.append_eq_nil_iff.mp ht
    exact ⟨.nil, .nil⟩
  | @cons c u scalar rest ih =>
    rcases List.append_eq_append_iff.mp ht with ⟨m, hc, hm⟩ | ⟨m, hp, hm⟩
    · by_cases hempty : p = []
      · subst hempty
        rw [List.nil_append] at ht
        exact ⟨.nil, by rw [ht]; exact .cons scalar rest⟩
      -- the cut is inside the first scalar, or right after it
      have hclean : StartsClean m := by
        cases m with
        | nil => exact startsClean_nil
        | cons b m => exact fun a ha => hq a (by rw [hm]; exact ha)
      obtain rfl := (hc ▸ scalar : Scalar (p ++ m)).not_clean hempty hclean
      rw [List.append_nil] at hc
      rw [List.nil_append] at hm
      subst hc hm
      exact ⟨by simpa using IsText.cons scalar .nil, rest⟩
    · obtain ⟨hm', hq'⟩ := ih hm.symm
      rw [hp]
      exact ⟨.cons scalar hm', hq'⟩

/-- At most three bytes in a row continue a scalar. -/
theorem continues_three {x k y : Bytes} (h : IsText (x ++ (k ++ y))) (hk : Continues k) :
    k.length ≤ 3 := by
  generalize ht : x ++ (k ++ y) = t at h
  induction h generalizing x with
  | nil =>
    obtain ⟨-, hky⟩ := List.append_eq_nil_iff.mp ht
    rw [(List.append_eq_nil_iff.mp hky).1]
    exact Nat.zero_le _
  | @cons c u scalar rest ih =>
    rcases List.append_eq_append_iff.mp ht with ⟨m, hc, hm⟩ | ⟨m, hx, hm⟩
    · by_cases hempty : k = []
      · rw [hempty]
        exact Nat.zero_le _
      -- the bytes start inside the first scalar, and end in it
      have hx : x ≠ [] ∨ m = [] := by
        by_contra hno
        rw [not_or, not_not] at hno
        obtain ⟨rfl, hne⟩ := hno
        obtain ⟨b, k, rfl⟩ := List.exists_cons_of_ne_nil hempty
        rw [List.nil_append] at hc
        subst hc
        obtain ⟨a, c, rfl⟩ := List.exists_cons_of_ne_nil hne
        rw [List.cons_append, List.cons_append] at hm
        have hclean : isContinuation a = false := scalar.clean a rfl
        rw [← (List.cons.inj hm).1, hk b List.mem_cons_self] at hclean
        cases hclean
      by_cases hmempty : m = []
      · subst hmempty
        exact ih (x := []) hm
      have hxlen := List.length_pos_iff.mpr (hx.resolve_right hmempty)
      have hclen := scalar.length_le
      rw [hc, List.length_append] at hclen
      rcases List.append_eq_append_iff.mp hm with ⟨m', hm', -⟩ | ⟨k', hk', hu⟩
      · have := congrArg List.length hm'
        rw [List.length_append] at this
        omega
      · have hnil : k' = [] := by
          have hclean : StartsClean k' := by
            cases k' with
            | nil => exact startsClean_nil
            | cons b k' => exact fun a ha => rest.clean a (by rw [hu]; exact ha)
          refine hclean.not_continues fun b hb => hk b ?_
          rw [hk']
          exact List.mem_append_right _ hb
        rw [hk', hnil, List.append_nil]
        omega
    · exact ih hm.symm

end IsText

/-! ## §3 `str::from_utf8` -/

/-- `Utf8Error` -/
structure Utf8Error where
  validUpTo : Nat
  errorLen : Option Nat
  deriving DecidableEq, Repr

/-- `str::from_utf8` -/
def fromUtf8 (t : Bytes) : Except Utf8Error Bytes :=
  if validUpTo t = t.length then .ok t
  else .error ⟨validUpTo t, match scan (t.drop (validUpTo t)) with
    | .invalid n => some n
    | _ => none⟩

/-- The front of whole scalars is a text, and no scalar follows it. -/
theorem validUpTo_spec (t : Bytes) :
    IsText (t.take (validUpTo t)) ∧ ∀ k, scan (t.drop (validUpTo t)) ≠ .valid k := by
  fun_induction validUpTo t with
  | case1 t n h ih =>
    have hlen := (scan_valid h).2
    rw [List.drop_drop] at ih
    refine ⟨?_, ih.2⟩
    rw [List.take_add]
    exact .cons (scalar_take h) ih.1
  | case2 t hno =>
    rw [List.take_zero, List.drop_zero]
    exact ⟨.nil, fun k hk => hno k hk⟩

theorem isText_iff {t : Bytes} : IsText t ↔ validUpTo t = t.length := by
  obtain ⟨htext, hstop⟩ := validUpTo_spec t
  constructor
  · intro h
    by_contra hne
    have hlt := Nat.lt_of_le_of_ne (validUpTo_le t) hne
    have hrest : IsText (t.drop (validUpTo t)) :=
      htext.of_append (by rwa [List.take_append_drop])
    obtain ⟨c, u, heq, hc, -⟩ := hrest.cases_scan (by
      rw [Ne, List.drop_eq_nil_iff]
      omega)
    rw [heq] at hstop
    exact hstop _ (hc.scan_append u)
  · intro h
    rwa [h, List.take_length] at htext

theorem fromUtf8_ok {t : Bytes} (h : IsText t) : fromUtf8 t = .ok t := if_pos (isText_iff.mp h)

theorem fromUtf8_eq_ok {t text : Bytes} (h : fromUtf8 t = .ok text) : text = t ∧ IsText t := by
  rw [fromUtf8] at h
  split_ifs at h with hvalid
  exact ⟨(Except.ok.inj h).symm, isText_iff.mpr hvalid⟩

/-- An error splits the bytes into a text and what cannot continue it. -/
theorem fromUtf8_error {t : Bytes} {e : Utf8Error} (h : fromUtf8 t = .error e) :
    ∃ text rest, t = text ++ rest ∧ rest ≠ [] ∧ text.length = e.validUpTo ∧ IsText text ∧
      ((e.errorLen = none ∧ scan rest = .cut) ∨
        ∃ k, e.errorLen = some k ∧ ∀ u, scan (rest ++ u) = .invalid k) := by
  rw [fromUtf8] at h
  split_ifs at h with hvalid
  obtain rfl := Except.error.inj h
  obtain ⟨htext, hstop⟩ := validUpTo_spec t
  have hle := validUpTo_le t
  refine ⟨t.take (validUpTo t), t.drop (validUpTo t), (List.take_append_drop _ _).symm, ?_, ?_,
    htext, ?_⟩
  · rw [Ne, List.drop_eq_nil_iff]
    omega
  · rw [List.length_take, Nat.min_eq_left hle]
  · have hscanned := scan_scanned (t := t.drop (validUpTo t))
    generalize scan (t.drop (validUpTo t)) = found at hscanned hstop
    cases hscanned with
    | valid k pos le four clean tail local' => exact absurd rfl (hstop k)
    | cut three clean tail => exact .inl ⟨rfl, rfl⟩
    | invalid k local' => exact .inr ⟨k, rfl, local'⟩

end BareLine.Codec
