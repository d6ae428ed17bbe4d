import BareLine.Lib.LineBreaks

/-!
# Shared vocabulary of the document crate

Errors, byte ranges, `usize` arithmetic and the byte budget.  A text is its UTF-8 bytes;
lengths and offsets are natural numbers, and the places where the source checks or
saturates `usize` arithmetic keep that check.
-/

namespace BareLine

open Lib

/-! ## §1 Errors and ranges -/

/-- `MAX_GROUP_DOCUMENTS` -/
def MAX_GROUP_DOCUMENTS : Nat := 100

/-- `document::Error` -/
inductive Error where
  | outOfBounds
  | invalidBoundary
  | overlappingEdits
  | staleRevision
  | budgetExceeded
  | emptyHistory
  | wrongDocument
  | revisionOverflow
  | incompleteSource
  | emptyTransaction
  | linkedUndoRequired
  | actorBusy
  deriving DecidableEq, Repr

/-- A computation after another one succeeds when both do. -/
theorem bind_ok {ε α β : Type} {x : Except ε α} {f : α → Except ε β} {b : β} :
    (x >>= f) = .ok b ↔ ∃ a, x = .ok a ∧ f a = .ok b := by
  cases x with
  | error e => exact ⟨fun h => (nomatch h), fun ⟨_, h, _⟩ => (nomatch h)⟩
  | ok a => exact ⟨fun h => ⟨a, rfl, h⟩, fun ⟨_, ha, h⟩ => by cases ha; exact h⟩

/-- Lists related element by element: each of the first has its partner. -/
theorem exists_of_forall₂ {α β : Type} {R : α → β → Prop} {as : List α} {bs : List β}
    (h : List.Forall₂ R as bs) : ∀ a ∈ as, ∃ b ∈ bs, R a b := by
  induction h with
  | nil => exact fun a ha => absurd ha List.not_mem_nil
  | cons hab _ ih =>
    intro a ha
    obtain rfl | ha := List.mem_cons.mp ha
    · exact ⟨_, List.mem_cons_self, hab⟩
    · obtain ⟨b, hb, hR⟩ := ih a ha
      exact ⟨b, List.mem_cons_of_mem _ hb, hR⟩

/-- A pair whose first part is known. -/
theorem pair_of_fst {α β : Type} {x : α × β} {a : α} (h : x.1 = a) : x = (a, x.2) :=
  Prod.ext h rfl

/-- `std::ops::Range` of offsets. -/
structure Range where
  start : Nat
  stop : Nat
  deriving DecidableEq, Repr

namespace Range

def len (r : Range) : Nat := r.stop - r.start

def isEmpty (r : Range) : Bool := decide (r.stop ≤ r.start)

/-- The bytes of `text` in the range. -/
def of (r : Range) (text : Bytes) : Bytes := (text.take r.stop).drop r.start

@[simp] theorem of_length (r : Range) (text : Bytes) :
    (r.of text).length = min r.stop text.length - r.start := by
  simp [of]

/-- Clamping a range to the text selects the same bytes. -/
theorem of_clamp (a b : Nat) (text : Bytes) :
    (⟨min a text.length, min b text.length⟩ : Range).of text = (⟨a, b⟩ : Range).of text := by
  simp only [of, List.take_eq_take_min (l := text) (i := b)]
  by_cases h : a ≤ text.length
  · rw [Nat.min_eq_left h]
  · rw [List.drop_eq_nil_of_le (by simp; omega), List.drop_eq_nil_of_le (by simp; omega)]

/-- An empty range selects nothing. -/
theorem of_eq_nil {r : Range} {t : Bytes} (h : min r.stop t.length ≤ r.start) :
    r.of t = [] :=
  List.drop_eq_nil_of_le (by simpa using h)

@[simp] theorem isEmpty_iff {r : Range} : r.isEmpty = true ↔ r.stop ≤ r.start := by
  rw [isEmpty, decide_eq_true_eq]

/-- The range that covers the text selects all of it. -/
theorem of_all {text : Bytes} {b : Nat} (h : text.length ≤ b) :
    (⟨0, b⟩ : Range).of text = text := by
  rw [of, List.drop_zero, List.take_of_length_le h]

/-- A range of a concatenation, side by side. -/
theorem of_append (a b : Nat) (s t : Bytes) :
    (⟨a, b⟩ : Range).of (s ++ t) =
      (⟨a, b⟩ : Range).of s ++ (⟨a - s.length, b - s.length⟩ : Range).of t := by
  simp only [of]
  rw [List.take_append, List.drop_append, List.length_take]
  by_cases h : b ≤ s.length
  · have hb : b - s.length = 0 := by omega
    simp [hb]
  · rw [Nat.min_eq_right (by omega)]

theorem of_of {text : Bytes} {a b i j : Nat} (h : a + j ≤ b) :
    (⟨i, j⟩ : Range).of ((⟨a, b⟩ : Range).of text) = (⟨a + i, a + j⟩ : Range).of text := by
  simp only [of]
  rw [List.take_drop, List.drop_drop, List.take_take, Nat.min_eq_left h]

/-- A range behind the front part of a text. -/
theorem of_append_right {s t : Bytes} {i j : Nat} :
    (⟨s.length + i, s.length + j⟩ : Range).of (s ++ t) = (⟨i, j⟩ : Range).of t := by
  rw [of_append, of_eq_nil (by simp), List.nil_append]
  simp

/-- The bytes of `p ++ k ++ q` from an offset at or behind `p` to the end of `k`. -/
theorem of_middle {p k q : Bytes} {a : Nat} (h : p.length ≤ a) :
    (⟨a, (p ++ k).length⟩ : Range).of (p ++ k ++ q) = k.drop (a - p.length) := by
  rw [of, List.take_left, List.drop_append, List.drop_of_length_le h, List.nil_append]

/-- The bytes from the end of `p` to `b`. -/
theorem of_tail {p q : Bytes} {b : Nat} :
    (⟨p.length, b⟩ : Range).of (p ++ q) = q.take (b - p.length) := by
  rw [of, List.take_append, List.drop_append]
  rcases Nat.le_total p.length b with h | h
  · rw [List.take_of_length_le h, List.drop_length, List.nil_append, Nat.sub_self, List.drop_zero]
  · rw [Nat.sub_eq_zero_of_le h, List.drop_of_length_le (List.length_take_le' b p),
      List.take_zero, List.drop_nil, List.append_nil]

end Range

/-! ## §2 `usize` arithmetic -/

/-- `usize::MAX` on the 64-bit targets. -/
def usizeMax : Nat := 2 ^ 64 - 1

/-- `isize::MAX`, the longest byte string that fits in memory or in a file. -/
def isizeMax : Nat := 2 ^ 63 - 1

def checkedAdd (a b : Nat) : Option Nat := if a + b ≤ usizeMax then some (a + b) else none

/-- `usize` subtraction; `none` where it underflows. -/
def checkedSub (a b : Nat) : Option Nat := if b ≤ a then some (a - b) else none

theorem checkedSub_eq {a b : Nat} (h : b ≤ a) : checkedSub a b = some (a - b) := if_pos h

def checkedMul (a b : Nat) : Option Nat := if a * b ≤ usizeMax then some (a * b) else none

def saturatingAdd (a b : Nat) : Nat := min (a + b) usizeMax

def saturatingMul (a b : Nat) : Nat := min (a * b) usizeMax

theorem checkedAdd_eq_some {a b c : Nat} :
    checkedAdd a b = some c ↔ a + b ≤ usizeMax ∧ c = a + b := by
  rw [checkedAdd, Option.ite_none_right_eq_some, Option.some.injEq]
  exact and_congr_right fun _ => eq_comm

/-! ## §3 UTF-8 boundaries -/

/-- `byte & 0xc0 == 0x80` -/
def isContinuation (byte : UInt8) : Bool := byte &&& 0xc0 == 0x80

/-- The end of the text, or a byte that starts a character. -/
def atBoundary (text : Bytes) (index : Nat) : Bool :=
  index == text.length ||
    match text[index]? with
    | some byte => !isContinuation byte
    | none => false

/-- `str::is_char_boundary` -/
def isCharBoundary (text : Bytes) (index : Nat) : Bool := index == 0 || atBoundary text index

/-- Nothing past the end is a boundary. -/
theorem atBoundary_le {text : Bytes} {index : Nat} (h : atBoundary text index = true) :
    index ≤ text.length := by
  rw [atBoundary, Bool.or_eq_true, beq_iff_eq] at h
  rcases h with h | h
  · exact Nat.le_of_eq h
  · by_contra hlt
    rw [List.getElem?_eq_none (by omega)] at h
    cases h

/-! ## §4 The byte budget -/

/-- What a document sees of the process while one call runs: its byte budget, with the
bytes all claims hold, and the allocator, whose next segment gets the address `next`. -/
structure Heap where
  limit : Nat
  used : Nat
  next : Nat
  deriving DecidableEq, Repr

namespace Heap

/-- `Budget::available` -/
def available (heap : Heap) : Nat := heap.limit - heap.used

/-- `Budget::reserve`; the claim is released by whoever drops it. -/
def reserve (heap : Heap) (bytes : Nat) : Except Error Heap :=
  if heap.used + bytes ≤ heap.limit then .ok { heap with used := heap.used + bytes }
  else .error .budgetExceeded

theorem reserve_ok {heap heap' : Heap} {bytes : Nat} (h : heap.reserve bytes = .ok heap') :
    heap.used + bytes ≤ heap.limit ∧ heap' = { heap with used := heap.used + bytes } := by
  rw [reserve] at h
  split_ifs at h with hle
  exact ⟨hle, (Except.ok.inj h).symm⟩

end Heap

end BareLine
