import BareLine.Basic

/-!
# Streaming UTF-8 decoding

Raw bytes become spans: whole valid scalars in bulk, and one U+FFFD for each unit that is
not valid.  Only what the decoder does for UTF-8 is here.
-/

namespace BareLine.Codec

open Lib

/-! ## §1 Scalars -/

/-- What starts a byte string, as `str::from_utf8` reports it. -/
inductive Scan where
  /-- A scalar of that many bytes. -/
  | valid (n : Nat)
  /-- `error_len` is that many bytes. -/
  | invalid (n : Nat)
  /-- The string ends inside a scalar. -/
  | cut
  deriving DecidableEq, Repr

/-- The bytes that may follow a lead byte of a scalar of three or four bytes. -/
def secondOk (lead second : UInt8) : Bool :=
  if lead = 0xE0 then 0xA0 ≤ second && second ≤ 0xBF
  else if lead = 0xED then 0x80 ≤ second && second ≤ 0x9F
  else if lead = 0xF0 then 0x90 ≤ second && second ≤ 0xBF
  else if lead = 0xF4 then 0x80 ≤ second && second ≤ 0x8F
  else 0x80 ≤ second && second ≤ 0xBF

/-- The continuation bytes still due after `n` bytes of a scalar. -/
def scanTail : Nat → Nat → Bytes → Scan
  | 0, n, _ => .valid n
  | _ + 1, _, [] => .cut
  | due + 1, n, byte :: rest =>
    if isContinuation byte then scanTail due (n + 1) rest else .invalid n

/-- `run_utf8_validation` at one scalar. -/
def scan : Bytes → Scan
  | [] => .cut
  | lead :: rest =>
    if lead < 0x80 then .valid 1
    else if 0xC2 ≤ lead ∧ lead ≤ 0xDF then scanTail 1 1 rest
    else if 0xE0 ≤ lead ∧ lead ≤ 0xF4 then
      match rest with
      | [] => .cut
      | second :: rest =>
        if secondOk lead second then scanTail (if lead ≤ 0xEF then 1 else 2) 2 rest
        else .invalid 1
    else .invalid 1

/-- The bytes of a unit, valid or not. -/
def Scan.width : Scan → Option Nat
  | .valid n | .invalid n => some n
  | .cut => none

theorem scanTail_width {due n k : Nat} {t : Bytes} (h : (scanTail due n t).width = some k) :
    n ≤ k ∧ k ≤ n + t.length := by
  induction due generalizing n t with
  | zero =>
    obtain rfl := Option.some.inj h
    exact ⟨Nat.le_refl _, Nat.le_add_right _ _⟩
  | succ due ih =>
    cases t with
    | nil => cases h
    | cons b t =>
      rw [scanTail] at h
      rw [List.length_cons]
      split_ifs at h with hb
      · have := ih h
        omega
      · obtain rfl := Option.some.inj h
        exact ⟨Nat.le_refl _, Nat.le_add_right _ _⟩

/-- A unit is a nonempty front of the bytes. -/
theorem scan_width {t : Bytes} {k : Nat} (h : (scan t).width = some k) : 1 ≤ k ∧ k ≤ t.length := by
  cases t with
  | nil => cases h
  | cons lead rest =>
    unfold scan at h
    dsimp only at h
    have hone : 1 ≤ (lead :: rest).length := Nat.succ_le_succ (Nat.zero_le _)
    by_cases hascii : lead < 0x80
    · rw [if_pos hascii] at h
      obtain rfl := Option.some.inj h
      exact ⟨Nat.le_refl _, hone⟩
    rw [if_neg hascii] at h
    by_cases htwo : 0xC2 ≤ lead ∧ lead ≤ 0xDF
    · rw [if_pos htwo] at h
      have := scanTail_width h
      rw [List.length_cons]
      omega
    rw [if_neg htwo] at h
    by_cases hmore : 0xE0 ≤ lead ∧ lead ≤ 0xF4
    · rw [if_pos hmore] at h
      cases rest with
      | nil => cases h
      | cons second rest =>
        dsimp only at h
        by_cases hsecond : secondOk lead second = true
        · rw [if_pos hsecond] at h
          have := scanTail_width h
          simp only [List.length_cons]
          omega
        · rw [if_neg hsecond] at h
          obtain rfl := Option.some.inj h
          exact ⟨Nat.le_refl _, hone⟩
    · rw [if_neg hmore] at h
      obtain rfl := Option.some.inj h
      exact ⟨Nat.le_refl _, hone⟩

theorem scan_valid {t : Bytes} {k : Nat} (h : scan t = .valid k) : 1 ≤ k ∧ k ≤ t.length :=
  scan_width (by rw [h]; rfl)

private theorem continuation_no_lead (b : UInt8) (h : isContinuation b = true) :
    ¬b < 0x80 ∧ ¬(0xC2 ≤ b ∧ b ≤ 0xDF) ∧ ¬(0xE0 ≤ b ∧ b ≤ 0xF4) := by
  have hall : ∀ i : Fin 256, isContinuation (UInt8.ofFin i) = true →
      ¬UInt8.ofFin i < 0x80 ∧ ¬(0xC2 ≤ UInt8.ofFin i ∧ UInt8.ofFin i ≤ 0xDF) ∧
        ¬(0xE0 ≤ UInt8.ofFin i ∧ UInt8.ofFin i ≤ 0xF4) := by decide +kernel
  exact hall b.toFin h

/-- A scalar does not start with a continuation byte. -/
theorem scan_head {b : UInt8} {t : Bytes} {k : Nat} (h : scan (b :: t) = .valid k) :
    isContinuation b = false := by
  by_contra hcontinuation
  obtain ⟨hascii, htwo, hmore⟩ := continuation_no_lead b (by simpa using hcontinuation)
  unfold scan at h
  dsimp only at h
  rw [if_neg hascii, if_neg htwo, if_neg hmore] at h
  cases h

/-! ## §2 Units -/

/-- `valid_up_to`: the length of the longest front made of whole scalars. -/
def validUpTo (t : Bytes) : Nat :=
  match _h : scan t with
  | .valid n => n + validUpTo (t.drop n)
  | _ => 0
termination_by t.length
decreasing_by
  have := scan_valid _h
  rw [List.length_drop]
  omega

theorem validUpTo_le (t : Bytes) : validUpTo t ≤ t.length := by
  fun_induction validUpTo t with
  | case1 t n h ih =>
    have := scan_valid h
    rw [List.length_drop] at ih
    omega
  | case2 t hno => exact Nat.zero_le _

theorem validUpTo_head {t : Bytes} (h : 0 < validUpTo t) :
    ∀ b ∈ t.head?, isContinuation b = false := by
  rw [validUpTo] at h
  split at h
  · rename_i n hscan
    intro b hb
    cases t with
    | nil => cases hb
    | cons a t =>
      cases hb
      exact scan_head hscan
  · exact absurd h (Nat.lt_irrefl 0)

/-- The length a lead byte announces. -/
def leadWidth (byte : UInt8) : Nat :=
  if 0xC0 ≤ byte ∧ byte ≤ 0xDF then 2
  else if 0xE0 ≤ byte ∧ byte ≤ 0xEF then 3
  else if 0xF0 ≤ byte ∧ byte ≤ 0xF7 then 4
  else 1

/-- `utf8_complete_len`: the length without a trailing sequence that is only cut short. -/
def utf8CompleteLen (raw : Bytes) : Nat :=
  go (min raw.length 4) 1
where
  go : Nat → Nat → Nat
    | 0, _ => raw.length
    | left + 1, back =>
      let byte := raw.getD (raw.length - back) 0
      if ¬isContinuation byte then
        if leadWidth byte > back then raw.length - back else raw.length
      else go left (back + 1)

/-- The bytes `bulk` decodes as one span. -/
def bulkLen (raw : Bytes) : Nat := validUpTo (raw.take (utf8CompleteLen raw))

theorem bulkLen_le (raw : Bytes) : bulkLen raw ≤ raw.length := by
  refine Nat.le_trans (validUpTo_le _) ?_
  rw [List.length_take]
  exact Nat.min_le_right _ _

theorem bulkLen_head {raw : Bytes} (h : 0 < bulkLen raw) :
    ∀ b ∈ raw.head?, isContinuation b = false := by
  have hhead := validUpTo_head h
  rw [List.head?_take] at hhead
  split_ifs at hhead with hzero
  · unfold bulkLen at h
    rw [hzero, List.take_zero] at h
    exact absurd (validUpTo_le []) (Nat.not_le.mpr h)
  · exact hhead

/-- U+FFFD -/
def REPLACEMENT : Bytes := [0xEF, 0xBF, 0xBD]

/-- `unit`: the raw bytes of the unit that starts `p`, its text, and whether it is invalid;
`none` when one more byte is needed. -/
def unit (p : Bytes) (last : Bool) : Option (Nat × Bytes × Bool) :=
  if p = [] then none
  else match scan p with
    | .valid n => some (n, p.take n, false)
    | .invalid n => some (n, REPLACEMENT, true)
    | .cut => if last then some (p.length, REPLACEMENT, true) else none

theorem unit_bounds {p : Bytes} {last : Bool} {n : Nat} {text : Bytes} {invalid : Bool}
    (h : unit p last = some (n, text, invalid)) : 1 ≤ n ∧ n ≤ p.length := by
  unfold unit at h
  by_cases hne : p = []
  · rw [if_pos hne] at h
    cases h
  rw [if_neg hne] at h
  cases hscan : scan p with
  | valid k =>
    simp only [hscan] at h
    cases h
    exact scan_valid hscan
  | invalid k =>
    simp only [hscan] at h
    cases h
    exact scan_width (by rw [hscan]; rfl)
  | cut =>
    simp only [hscan] at h
    split_ifs at h
    cases h
    exact ⟨List.length_pos_iff.mpr hne, Nat.le_refl _⟩

/-- The last unit takes whatever is left. -/
theorem unit_last {p : Bytes} (h : unit p true = none) : p = [] := by
  unfold unit at h
  by_contra hne
  rw [if_neg hne] at h
  cases hscan : scan p <;> simp [hscan] at h

/-- The text of a valid unit is its bytes, that of an invalid one U+FFFD. -/
theorem unit_text {p : Bytes} {last : Bool} {n : Nat} {text : Bytes} {invalid : Bool}
    (h : unit p last = some (n, text, invalid)) :
    text = (if invalid then REPLACEMENT else p.take n) ∧
      ∀ b ∈ text.head?, isContinuation b = false := by
  have hreplacement : ∀ b ∈ REPLACEMENT.head?, isContinuation b = false := by
    rintro b ⟨⟩
    rfl
  unfold unit at h
  by_cases hne : p = []
  · rw [if_pos hne] at h
    cases h
  rw [if_neg hne] at h
  cases hscan : scan p with
  | valid k =>
    simp only [hscan] at h
    cases h
    refine ⟨rfl, fun b hb => ?_⟩
    cases p with
    | nil => exact absurd rfl hne
    | cons c p =>
      have hk := scan_valid hscan
      obtain ⟨k, rfl⟩ := Nat.exists_eq_add_of_le' hk.1
      cases hb
      exact scan_head hscan
  | invalid k =>
    simp only [hscan] at h
    cases h
    exact ⟨rfl, hreplacement⟩
  | cut =>
    simp only [hscan] at h
    split_ifs at h
    cases h
    exact ⟨rfl, hreplacement⟩

end BareLine.Codec
