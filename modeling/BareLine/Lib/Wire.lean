import BareLine.Basic

/-!
# Wire formats

A codec writes a value as bytes and takes one from the front of some bytes.  It is lawful if it
takes back what it wrote, whatever follows, and never takes a value from less than it writes for
it.  A stream hands out its bytes in pieces.
-/

namespace BareLine.Lib

/-! ## §1 Codecs -/

/-- How values of a type are written and read; `holds` says which values of the model the type has. -/
structure Codec (α : Type) where
  holds : α → Prop
  encode : α → Bytes
  take : Bytes → Option (α × Bytes)

/-- The codec takes back what it wrote, and no value from less than it writes for it. -/
structure Codec.Lawful {α : Type} (c : Codec α) : Prop where
  take_encode : ∀ {a : α}, c.holds a → ∀ rest, c.take (c.encode a ++ rest) = some (a, rest)
  holds_of_take : ∀ {bytes rest : Bytes} {a : α}, c.take bytes = some (a, rest) → c.holds a
  length_le : ∀ {bytes rest : Bytes} {a : α}, c.take bytes = some (a, rest) →
    (c.encode a).length + rest.length ≤ bytes.length

namespace Codec

variable {α β : Type} {a : Codec α} {b : Codec β}

/-! ## §2 Codecs side by side -/

/-- One value behind another. -/
def seq (a : Codec α) (b : Codec β) : Codec (α × β) where
  holds v := a.holds v.1 ∧ b.holds v.2
  encode v := a.encode v.1 ++ b.encode v.2
  take bytes := do
    let (x, bytes) ← a.take bytes
    let (y, bytes) ← b.take bytes
    some ((x, y), bytes)

theorem seq_take {bytes rest : Bytes} {x : α} {y : β} :
    (a.seq b).take bytes = some ((x, y), rest) ↔
      ∃ mid, a.take bytes = some (x, mid) ∧ b.take mid = some (y, rest) := by
  simp only [seq, Option.bind_eq_bind, Option.bind_eq_some_iff, Option.some.injEq, Prod.mk.injEq]
  constructor
  · rintro ⟨⟨x, mid⟩, hx, ⟨y, rest⟩, hy, ⟨rfl, rfl⟩, rfl⟩
    exact ⟨mid, hx, hy⟩
  · rintro ⟨mid, hx, hy⟩
    exact ⟨(x, mid), hx, (y, rest), hy, ⟨rfl, rfl⟩, rfl⟩

/-- Behind a value that was written, the second codec decides. -/
theorem Lawful.seq_take_encode (ha : a.Lawful) {x : α} (hx : a.holds x) (bytes : Bytes) :
    (a.seq b).take (a.encode x ++ bytes) = (b.take bytes).map fun (y, rest) => ((x, y), rest) := by
  rw [Codec.seq]
  dsimp only
  rw [ha.take_encode hx, Option.bind_eq_bind, Option.bind_some]
  dsimp only
  rw [Option.map_eq_bind]
  rfl

theorem Lawful.seq (ha : a.Lawful) (hb : b.Lawful) : (a.seq b).Lawful where
  take_encode := by
    rintro ⟨x, y⟩ ⟨hx, hy⟩ rest
    rw [Codec.seq, List.append_assoc]
    exact seq_take.mpr ⟨_, ha.take_encode hx _, hb.take_encode hy _⟩
  holds_of_take := by
    rintro bytes rest ⟨x, y⟩ h
    obtain ⟨mid, hx, hy⟩ := seq_take.mp h
    exact ⟨ha.holds_of_take hx, hb.holds_of_take hy⟩
  length_le := by
    rintro bytes rest ⟨x, y⟩ h
    obtain ⟨mid, hx, hy⟩ := seq_take.mp h
    have hfirst := ha.length_le hx
    have hsecond := hb.length_le hy
    rw [Codec.seq]
    dsimp only
    rw [List.length_append]
    omega

/-- The same bytes for another type of values. -/
def map (a : Codec α) (f : α → β) (g : β → α) : Codec β where
  holds v := a.holds (g v)
  encode v := a.encode (g v)
  take bytes := (a.take bytes).map fun (x, rest) => (f x, rest)

theorem Lawful.map (ha : a.Lawful) {f : α → β} {g : β → α} (hfg : ∀ v, f (g v) = v)
    (hgf : ∀ x, g (f x) = x) : (a.map f g).Lawful where
  take_encode := by
    intro v hv rest
    rw [Codec.map]
    dsimp only
    rw [ha.take_encode hv, Option.map_some, hfg]
  holds_of_take := by
    intro bytes rest v h
    obtain ⟨⟨x, rest'⟩, hx, hv⟩ := Option.map_eq_some_iff.mp h
    obtain ⟨rfl, rfl⟩ := Prod.mk.inj hv
    show a.holds (g (f x))
    rw [hgf]
    exact ha.holds_of_take hx
  length_le := by
    intro bytes rest v h
    obtain ⟨⟨x, rest'⟩, hx, hv⟩ := Option.map_eq_some_iff.mp h
    obtain ⟨rfl, rfl⟩ := Prod.mk.inj hv
    show (a.encode (g (f x))).length + rest'.length ≤ bytes.length
    rw [hgf]
    exact ha.length_le hx

/-! ## §3 Numbers and bytes -/

/-- A number in groups of seven bits, the lowest first; the last one has no flag. -/
def encodeVarint (n : Nat) : Bytes :=
  if n < 128 then [UInt8.ofNat n] else UInt8.ofNat (n % 128 + 128) :: encodeVarint (n / 128)

def takeVarint : Bytes → Option (Nat × Bytes)
  | [] => none
  | b :: bytes =>
    if b.toNat < 128 then some (b.toNat, bytes)
    else (takeVarint bytes).map fun (n, rest) => (b.toNat - 128 + 128 * n, rest)

theorem takeVarint_encodeVarint (n : Nat) (rest : Bytes) :
    takeVarint (encodeVarint n ++ rest) = some (n, rest) := by
  fun_induction encodeVarint n with
  | case1 n hlt =>
    have hn : (UInt8.ofNat n).toNat = n := UInt8.toNat_ofNat_of_lt' (show n < 256 by omega)
    rw [List.singleton_append, takeVarint, hn, if_pos hlt]
  | case2 n hge ih =>
    have hn : (UInt8.ofNat (n % 128 + 128)).toNat = n % 128 + 128 :=
      UInt8.toNat_ofNat_of_lt' (show n % 128 + 128 < 256 by omega)
    rw [List.cons_append, takeVarint, hn, if_neg (by omega), ih, Option.map_some]
    dsimp only
    rw [Nat.add_sub_cancel, Nat.mod_add_div]

theorem encodeVarint_length_le (n : Nat) : (encodeVarint n).length ≤ n / 128 + 1 := by
  fun_induction encodeVarint n with
  | case1 n hlt =>
    rw [List.length_singleton]
    omega
  | case2 n hge ih =>
    rw [List.length_cons]
    omega

/-- A number is never read from less than it is written with. -/
theorem takeVarint_length {bytes rest : Bytes} {n : Nat} (h : takeVarint bytes = some (n, rest)) :
    (encodeVarint n).length + rest.length ≤ bytes.length := by
  induction bytes generalizing n with
  | nil => exact nomatch h
  | cons b bytes ih =>
    rw [takeVarint] at h
    split_ifs at h with hlt
    · obtain ⟨rfl, rfl⟩ := Prod.mk.inj (Option.some.inj h)
      rw [encodeVarint, if_pos hlt, List.length_singleton, List.length_cons]
      omega
    · obtain ⟨⟨m, rest'⟩, hm, hpair⟩ := Option.map_eq_some_iff.mp h
      obtain ⟨rfl, rfl⟩ := Prod.mk.inj hpair
      have hle := ih hm
      have hb := b.toNat_lt
      rw [List.length_cons, encodeVarint]
      split_ifs with hsmall
      · rw [List.length_singleton]
        omega
      · rw [List.length_cons, show (b.toNat - 128 + 128 * m) / 128 = m by omega]
        omega

/-- The numbers below a bound. -/
def varint (bound : Nat) : Codec Nat where
  holds n := n < bound
  encode := encodeVarint
  take bytes := (takeVarint bytes).filter fun (n, _) => decide (n < bound)

theorem varint_lawful (bound : Nat) : (varint bound).Lawful where
  take_encode := by
    intro n hn rest
    show (takeVarint (encodeVarint n ++ rest)).filter _ = _
    rw [takeVarint_encodeVarint, Option.filter_some]
    exact if_pos (@decide_eq_true (n < bound) _ hn)
  holds_of_take := by
    intro bytes rest n h
    show n < bound
    exact of_decide_eq_true (Option.filter_eq_some_iff.mp h).2
  length_le h := takeVarint_length (Option.filter_eq_some_iff.mp h).1

/-- Bytes behind their number; `valid` says which bytes the type has. -/
def counted (length : Codec Nat) (valid : Bytes → Bool) : Codec Bytes where
  holds v := length.holds v.length ∧ valid v = true
  encode v := length.encode v.length ++ v
  take bytes := do
    let (n, bytes) ← length.take bytes
    if n ≤ bytes.length ∧ valid (bytes.take n) = true then some (bytes.take n, bytes.drop n) else none

theorem counted_take {length : Codec Nat} {valid : Bytes → Bool} {bytes rest v : Bytes} :
    (counted length valid).take bytes = some (v, rest) ↔
      valid v = true ∧ length.take bytes = some (v.length, v ++ rest) := by
  simp only [counted, Option.bind_eq_bind, Option.bind_eq_some_iff, Option.ite_none_right_eq_some,
    Option.some.injEq, Prod.mk.injEq]
  constructor
  · rintro ⟨⟨n, bytes⟩, hn, ⟨hle, hvalid⟩, rfl, rfl⟩
    refine ⟨hvalid, ?_⟩
    rw [List.take_append_drop, List.length_take_of_le hle]
    exact hn
  · rintro ⟨hvalid, hn⟩
    refine ⟨_, hn, ⟨?_, ?_⟩, ?_, ?_⟩
    · rw [List.length_append]
      exact Nat.le_add_right ..
    · rwa [List.take_left]
    · exact List.take_left
    · exact List.drop_left

theorem counted_lawful {length : Codec Nat} (h : length.Lawful) (valid : Bytes → Bool) :
    (counted length valid).Lawful where
  take_encode := by
    rintro v ⟨hlength, hvalid⟩ rest
    refine counted_take.mpr ⟨hvalid, ?_⟩
    show length.take ((length.encode v.length ++ v) ++ rest) = _
    rw [List.append_assoc]
    exact h.take_encode hlength _
  holds_of_take htake := by
    obtain ⟨hvalid, hlength⟩ := counted_take.mp htake
    exact ⟨h.holds_of_take hlength, hvalid⟩
  length_le := by
    intro bytes rest v htake
    have hle := h.length_le (counted_take.mp htake).2
    rw [List.length_append] at hle
    show (length.encode v.length ++ v).length + rest.length ≤ bytes.length
    rw [List.length_append]
    omega

end Codec

/-! ## §4 Streams -/

/-- `read_exact`: some bytes of a stream that hands out its pieces one after the other; an empty
piece is taken for the end. -/
def readExactly : Nat → List Bytes → Option (Bytes × List Bytes)
  | 0, pieces => some ([], pieces)
  | _ + 1, [] => none
  | n + 1, piece :: pieces =>
    if piece.isEmpty then none
    else if piece.length ≤ n + 1 then
      (readExactly (n + 1 - piece.length) pieces).map fun (bytes, rest) => (piece ++ bytes, rest)
    else some (piece.take (n + 1), piece.drop (n + 1) :: pieces)

/-- The pieces of a stream hold something. -/
def Pieces (pieces : List Bytes) (stream : Bytes) : Prop :=
  pieces.flatten = stream ∧ ∀ piece ∈ pieces, piece ≠ []

/-- However a stream is cut, its first bytes are read. -/
theorem readExactly_append {pieces : List Bytes} {bytes stream : Bytes}
    (h : Pieces pieces (bytes ++ stream)) :
    ∃ rest, readExactly bytes.length pieces = some (bytes, rest) ∧ Pieces rest stream := by
  induction pieces generalizing bytes with
  | nil =>
    obtain ⟨rfl, rfl⟩ := List.append_eq_nil_iff.mp h.1.symm
    exact ⟨[], rfl, h⟩
  | cons piece pieces ih =>
    obtain ⟨hflatten, hne⟩ := h
    obtain ⟨hpiece, hpieces⟩ := List.forall_mem_cons.mp hne
    cases bytes with
    | nil => exact ⟨piece :: pieces, rfl, hflatten, hne⟩
    | cons b bytes =>
      rw [List.length_cons, readExactly, if_neg (by simpa using hpiece)]
      rw [List.flatten_cons] at hflatten
      by_cases hle : piece.length ≤ bytes.length + 1
      · rw [if_pos hle]
        obtain ⟨back, hback, hrest⟩ : ∃ back, b :: bytes = piece ++ back ∧
            pieces.flatten = back ++ stream := by
          refine ⟨(b :: bytes).drop piece.length, ?_, ?_⟩
          · have htake := congrArg (List.take piece.length) hflatten
            rw [List.take_left, List.take_append_of_le_length hle] at htake
            conv_lhs => rw [← List.take_append_drop piece.length (b :: bytes), ← htake]
          · have hdrop := congrArg (List.drop piece.length) hflatten
            rwa [List.drop_left, List.drop_append_of_le_length hle] at hdrop
        obtain ⟨rest, hread, hrest⟩ := ih ⟨hrest, hpieces⟩
        have hlength := congrArg List.length hback
        rw [List.length_cons, List.length_append] at hlength
        rw [show bytes.length + 1 - piece.length = back.length by omega, hread]
        exact ⟨rest, by rw [Option.map_some, hback], hrest⟩
      · rw [if_neg hle]
        have hlt : (b :: bytes).length ≤ piece.length := by
          rw [List.length_cons]
          omega
        have htake := congrArg (List.take (b :: bytes).length) hflatten
        have hdrop := congrArg (List.drop (b :: bytes).length) hflatten
        rw [List.take_left, List.take_append_of_le_length hlt] at htake
        rw [List.drop_left, List.drop_append_of_le_length hlt] at hdrop
        refine ⟨piece.drop (bytes.length + 1) :: pieces, ?_, hdrop, ?_⟩
        · rw [← List.length_cons, htake]
        · refine List.forall_mem_cons.mpr ⟨fun hnil => hle ?_, hpieces⟩
          have hlength := congrArg List.length hnil
          rw [List.length_drop, List.length_nil] at hlength
          omega

theorem readExactly_length {n : Nat} {pieces rest : List Bytes} {bytes : Bytes}
    (h : readExactly n pieces = some (bytes, rest)) : bytes.length = n := by
  fun_induction readExactly n pieces generalizing bytes rest with
  | case1 pieces =>
    obtain ⟨rfl, rfl⟩ := Prod.mk.inj (Option.some.inj h)
    rfl
  | case2 => exact nomatch h
  | case3 => exact nomatch h
  | case4 n piece pieces _ hle ih =>
    obtain ⟨⟨back, rest'⟩, hback, hpair⟩ := Option.map_eq_some_iff.mp h
    obtain ⟨rfl, rfl⟩ := Prod.mk.inj hpair
    rw [List.length_append, ih hback]
    omega
  | case5 n piece pieces _ hgt =>
    obtain ⟨rfl, rfl⟩ := Prod.mk.inj (Option.some.inj h)
    exact List.length_take_of_le (by omega)

/-- Behind the end of a stream nothing is read. -/
theorem readExactly_short {pieces : List Bytes} {stream : Bytes} (h : Pieces pieces stream) {n : Nat}
    (hlt : stream.length < n) : readExactly n pieces = none := by
  induction pieces generalizing n stream with
  | nil =>
    obtain ⟨n, rfl⟩ := Nat.exists_eq_succ_of_ne_zero (Nat.ne_zero_of_lt hlt)
    rfl
  | cons piece pieces ih =>
    obtain ⟨rfl, hne⟩ := h
    obtain ⟨hpiece, hpieces⟩ := List.forall_mem_cons.mp hne
    obtain ⟨n, rfl⟩ := Nat.exists_eq_succ_of_ne_zero (Nat.ne_zero_of_lt hlt)
    rw [List.flatten_cons, List.length_append] at hlt
    rw [readExactly, if_neg (by simpa using hpiece), if_pos (by omega)]
    rw [ih (n := n + 1 - piece.length) ⟨rfl, hpieces⟩ (by omega)]
    rfl

end BareLine.Lib
