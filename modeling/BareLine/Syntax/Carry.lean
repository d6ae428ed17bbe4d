import BareLine.Lib.Relocation
import BareLine.Syntax.Guarantees

/-!
# Spans carried through an edit

While the fresh result for a new revision is pending, a view keeps the old one carried through
the receipt: one pass maps the offsets of all spans through all edits.
-/

namespace BareLine.Syntax

open Lib Lib.Relocation Codec

/-! ## §1 The code -/

/-- `Carry`, with the edits from `next` on. -/
structure Carry where
  edits : List CompactEdit
  delta : Int

/-- The loop of `Carry::after`: the edits that end at or in front of the offset are passed. -/
def passed : List CompactEdit → Int → Nat → Carry
  | [], delta, _ => ⟨[], delta⟩
  | edit :: edits, delta, offset =>
    if edit.before.stop ≤ offset then
      passed edits (delta + (edit.insertedLen - (edit.before.stop - edit.before.start : Nat))) offset
    else ⟨edit :: edits, delta⟩

/-- `usize::try_from` of an `i128` -/
def toUsize (x : Int) : Option Nat := if 0 ≤ x ∧ x ≤ usizeMax then some x.toNat else none

namespace Carry

/-- `Carry::after`, before the conversion to an offset. -/
def mapped (self : Carry) (offset : Nat) : Int :=
  (match self.edits.head? with
    | some edit =>
      if edit.before.start < offset then (edit.before.start + edit.insertedLen : Int) else offset
    | none => offset) + self.delta

/-- `Carry::after` -/
def after (self : Carry) (offset : Nat) : Nat × Carry :=
  let carry := passed self.edits self.delta offset
  ((toUsize (carry.mapped offset)).getD 0, carry)

/-- The states one pass goes through, each with the offset it is at. -/
inductive Reached (edits : List CompactEdit) : Nat → Carry → Prop where
  | start : Reached edits 0 ⟨edits, 0⟩
  | step {x y : Nat} {carry : Carry} (here : Reached edits x carry) (le : x ≤ y) :
      Reached edits y (passed carry.edits carry.delta y)

end Carry

/-- The loop of `SyntaxResult::rebase` over the spans. -/
def carrySpans : Carry → List StyleSpan → List StyleSpan × Carry
  | carry, [] => ([], carry)
  | carry, span :: spans =>
    let (start, carry) := carry.after span.range.start
    let (stop, carry) := carry.after span.range.stop
    let (rest, carry) := carrySpans carry spans
    ((if start < stop then [⟨⟨start, stop⟩, span.kind⟩] else []) ++ rest, carry)

/-- The loop of `SyntaxResult::rebase` over the edits that start in front of the range. -/
def widen (origin : Nat) : Int → List CompactEdit → Int
  | start, [] => start
  | start, edit :: edits =>
    if edit.before.start < origin then
      widen origin
        (if edit.before.stop < origin then
          start + (edit.insertedLen - (edit.before.stop - edit.before.start : Nat))
        else start - (origin - edit.before.start : Nat)) edits
    else start

/-- The edits of a step; there are none where `firstChange` found none. -/
def stepEdits (next : DocumentSnapshot) (first : Nat) : List CompactEdit :=
  match next.appliedChange with
  | some change => if first ≠ usizeMax then change.edits else []
  | none => []

namespace SyntaxResult

/-- The new range of `SyntaxResult::rebase`, where its ends are in order and in the text. -/
def carriedRange (self : SyntaxResult) (next : DocumentSnapshot) (edits : List CompactEdit)
    (carry : Carry) : Option Range :=
  (toUsize (widen self.range.start self.range.start edits)).bind fun start =>
    let stop := (carry.after self.range.stop).1
    if start > stop ∨ stop > next.len then none else some ⟨start, stop⟩

/-- `SyntaxResult::rebase`; `room` tells for which lengths memory can be had. -/
def rebase (room : Nat → Bool) (self : SyntaxResult) (next : DocumentSnapshot) :
    Option SyntaxResult :=
  (firstChange self.source next).bind fun first =>
    if room self.spans.length then
      let edits := stepEdits next first
      let carried := carrySpans ⟨edits, 0⟩ self.spans
      (self.carriedRange next edits carried.2).map fun range =>
        ⟨next, self.language, range, carried.1, .provisional,
          self.checkpoint.bind fun c => c.rebase next,
          self.checkpoints.filterMap fun c => c.rebase next⟩
    else none

/-- `SyntaxResult::is_current` -/
def isCurrent (self : SyntaxResult) (snapshot : DocumentSnapshot) : Bool :=
  sameDocument self.source snapshot && self.source.revision == snapshot.revision

/-- The spans of a stand-in in front of a range. -/
def spansBefore (spans : List StyleSpan) (start : Nat) : List StyleSpan :=
  (spans.filter fun span => span.range.start < start).map fun span =>
    ⟨⟨span.range.start, min span.range.stop start⟩, span.kind⟩

/-- The spans of a stand-in behind a range. -/
def spansAfter (spans : List StyleSpan) (stop : Nat) : List StyleSpan :=
  (spans.filter fun span => stop < span.range.stop).map fun span =>
    ⟨⟨max span.range.start stop, span.range.stop⟩, span.kind⟩

/-- `SyntaxResult::overlay` -/
def overlay (self standIn : SyntaxResult) : SyntaxResult :=
  if ¬standIn.isCurrent self.source ∨ standIn.language ≠ self.language then self
  else
    { self with
      spans := spansBefore standIn.spans self.range.start ++ self.spans ++
        spansAfter standIn.spans self.range.stop
      range := ⟨min self.range.start standIn.range.start, max self.range.stop standIn.range.stop⟩
      status := .provisional }

end SyntaxResult

/-! ## §2 A step to the next revision -/

/-- A splice as receipts list it. -/
def compact (e : Splice UInt8) : CompactEdit := ⟨⟨e.start, e.stop⟩, e.insert.length⟩

/-- The second snapshot directly follows the first one, and its receipt is truthful: the splices
are those it lists and lead from the one text to the other. -/
structure Follows (previous next : DocumentSnapshot) (es : List (Splice UInt8)) : Prop where
  same : next.documentId = previous.documentId
  later : previous.revision < next.revision
  receipt : ∃ change, next.appliedChange = some change ∧ matchesBefore change previous = true ∧
    change.edits = es.map compact
  ordered : Ordered 0 es previous.text.length
  text : splice es previous.text = next.text
  measured : previous.len = previous.text.length ∧ next.len = next.text.length
  fits : previous.len ≤ usizeMax ∧ next.len ≤ usizeMax

/-- Splices at the end that insert nothing. -/
def Idle (es : List (Splice UInt8)) (n : Nat) : Prop :=
  ∀ e ∈ es, e.start = n ∧ e.stop = n ∧ e.insert = []

namespace Follows

variable {previous next : DocumentSnapshot} {es : List (Splice UInt8)}

/-- The first edit is found. -/
theorem firstChange_eq (h : Follows previous next es) : firstChange previous next =
    some ((es.head?.map Splice.start).getD usizeMax) := by
  obtain ⟨change, hchange, hmatches, hedits⟩ := h.receipt
  have hsame : sameDocument previous next = true := by
    rw [sameDocument, h.same]
    exact beq_self_eq_true _
  rw [firstChange, if_neg (by simpa using hsame), if_neg h.later.ne, hchange, Option.filter_some,
    if_pos hmatches, Option.map_some, hedits, List.head?_map, Option.map_map]
  rfl

/-- An edit at the greatest offset is one at the end that inserts nothing. -/
theorem idle_of_last {n d : Nat} {es : List (Splice UInt8)} (h : Ordered n es n)
    (hlen : Relocation.after n d es n ≤ d) : Idle es n := by
  induction es generalizing d with
  | nil => exact nofun
  | cons e es ih =>
    obtain ⟨hstart, hse, hrest⟩ := h
    have hstop := hrest.le
    have hat : e.start = n ∧ e.stop = n := by omega
    rw [after_cons_behind hstop, hat.1, hat.2, Nat.sub_self, Nat.add_zero] at hlen
    have hroom : d + e.insert.length ≤ Relocation.after n (d + e.insert.length) es n :=
      le_after (Nat.le_refl n)
    have hnone : e.insert = [] := List.eq_nil_of_length_eq_zero (by omega)
    refine List.forall_mem_cons.mpr ⟨⟨hat.1, hat.2, hnone⟩, ih (d := d) (hat.2 ▸ hrest) ?_⟩
    rw [hnone] at hlen
    exact hlen

/-- The edits the pass runs over are those of the receipt, or those do nothing. -/
theorem stepEdits_eq (h : Follows previous next es) :
    stepEdits next ((es.head?.map Splice.start).getD usizeMax) = es.map compact ∨
    (stepEdits next ((es.head?.map Splice.start).getD usizeMax) = [] ∧
      Idle es previous.text.length) := by
  obtain ⟨change, hchange, -, hedits⟩ := h.receipt
  rw [stepEdits, hchange]
  by_cases hfirst : (es.head?.map Splice.start).getD usizeMax = usizeMax
  · cases es with
    | nil => exact .inl (if_neg (not_not.mpr hfirst))
    | cons e es =>
      refine .inr ⟨if_neg (not_not.mpr hfirst), ?_⟩
      have hstart : e.start = usizeMax := hfirst
      have hbound := h.ordered.mem List.mem_cons_self
      have hfits := h.measured.1 ▸ h.fits.1
      have hn : e.start = previous.text.length := by omega
      have hordered : Ordered previous.text.length (e :: es) previous.text.length :=
        ⟨hn.ge, h.ordered.2⟩
      -- the new text is no longer than the greatest offset
      have hlen : Relocation.after 0 0 (e :: es) (0 + previous.text.length) = 0 + next.text.length := by
        rw [after_length (by simpa using h.ordered)]
        exact congrArg (0 + ·) (congrArg List.length h.text)
      rw [Nat.zero_add, Nat.zero_add, after_cons_behind hbound.2.2] at hlen
      refine idle_of_last (d := e.start) hordered ?_
      rw [after_cons_behind hbound.2.2, ← hn, Nat.sub_self, Nat.add_zero]
      rw [Nat.sub_zero, Nat.zero_add, ← hn] at hlen
      rw [hlen, hstart, ← h.measured.2]
      exact h.fits.2
  · exact .inl ((if_pos hfirst).trans hedits)

end Follows

/-! ## §3 Where the pass stands -/

/-- The pass is at an offset: the edits behind it are left, and the images of the offsets from
here on are those of the rest. -/
def Carry.Stands (es : List (Splice UInt8)) (n : Nat) (carry : Carry) (x : Nat) : Prop :=
  ∃ (c d : Nat) (rest : List (Splice UInt8)), carry = ⟨rest.map compact, (d : Int) - c⟩ ∧ Ordered c rest n ∧ c ≤ x ∧
    ∀ y, x ≤ y → Relocation.after 0 0 es y = Relocation.after c d rest y

namespace Carry

variable {es : List (Splice UInt8)} {n x y : Nat} {carry : Carry}

theorem stands_start (h : Ordered 0 es n) : Stands es n ⟨es.map compact, 0⟩ 0 :=
  ⟨0, 0, es, rfl, h, Nat.le_refl 0, fun _ _ => rfl⟩

/-- Passing edits keeps the images of what is behind. -/
theorem passed_spec {c d : Nat} {rest : List (Splice UInt8)} (h : Ordered c rest n) (hc : c ≤ y) :
    ∃ (c₁ d₁ : Nat) (rest₁ : List (Splice UInt8)), passed (rest.map compact) ((d : Int) - c) y =
        ⟨rest₁.map compact, (d₁ : Int) - c₁⟩ ∧ Ordered c₁ rest₁ n ∧ c₁ ≤ y ∧
      (∀ e ∈ rest₁.head?, y < e.stop) ∧
      ∀ z, y ≤ z → Relocation.after c d rest z = Relocation.after c₁ d₁ rest₁ z := by
  induction rest generalizing c d with
  | nil => exact ⟨c, d, [], rfl, h, hc, nofun, fun _ _ => rfl⟩
  | cons e rest ih =>
    obtain ⟨hce, hse, hrest⟩ := h
    rw [List.map_cons, passed]
    by_cases hstop : e.stop ≤ y
    · rw [if_pos (show (compact e).before.stop ≤ y from hstop)]
      have hdelta : (d : Int) - c + ((compact e).insertedLen -
          ((compact e).before.stop - (compact e).before.start : Nat)) =
          ((d + (e.start - c) + e.insert.length : Nat) : Int) - e.stop := by
        simp only [compact]
        omega
      rw [hdelta]
      obtain ⟨c₁, d₁, rest₁, hpassed, hordered, hle, hhead, himage⟩ :=
        ih (d := d + (e.start - c) + e.insert.length) hrest hstop
      exact ⟨c₁, d₁, rest₁, hpassed, hordered, hle, hhead, fun z hz =>
        (after_cons_behind (hstop.trans hz)).trans (himage z hz)⟩
    · rw [if_neg (show ¬(compact e).before.stop ≤ y from hstop)]
      refine ⟨c, d, e :: rest, rfl, ⟨hce, hse, hrest⟩, hc, ?_, fun _ _ => rfl⟩
      intro e' he'
      obtain rfl := Option.some.inj he'
      omega

/-- Where the pass is, the offset is mapped to its image. -/
theorem mapped_eq {c d : Nat} {rest : List (Splice UInt8)} (h : Ordered c rest n) (hc : c ≤ y)
    (hhead : ∀ e ∈ rest.head?, y < e.stop) :
    mapped ⟨rest.map compact, (d : Int) - c⟩ y = Relocation.after c d rest y := by
  cases rest with
  | nil =>
    simp only [mapped, List.map_nil, List.head?_nil, Relocation.after]
    omega
  | cons e rest =>
    have hlt : y < e.stop := hhead e rfl
    have hce := h.1
    simp only [mapped, List.map_cons, List.head?_cons, compact, Relocation.after,
      if_neg (Nat.not_le.mpr hlt)]
    split_ifs <;> omega

/-- One offset: it is mapped to its image, and the pass stands there. -/
theorem step_spec (h : carry.Stands es n x) (hxy : x ≤ y) :
    (passed carry.edits carry.delta y).mapped y = Relocation.after 0 0 es y ∧
      (passed carry.edits carry.delta y).Stands es n y := by
  obtain ⟨c, d, rest, rfl, hordered, hc, himage⟩ := h
  obtain ⟨c₁, d₁, rest₁, hpassed, hordered₁, hle, hhead, himage₁⟩ :=
    passed_spec (d := d) hordered (hc.trans hxy)
  have hall : ∀ z, y ≤ z → Relocation.after 0 0 es z = Relocation.after c₁ d₁ rest₁ z :=
    fun z hz => (himage z (hxy.trans hz)).trans (himage₁ z hz)
  rw [hpassed, mapped_eq hordered₁ hle hhead, hall y (Nat.le_refl y)]
  exact ⟨rfl, c₁, d₁, rest₁, rfl, hordered₁, hle, hall⟩

/-- Everywhere in the pass. -/
theorem Reached.stands (hes : Ordered 0 es n) (h : Reached (es.map compact) x carry) :
    carry.Stands es n x := by
  induction h with
  | start => exact stands_start hes
  | step here le ih => exact (step_spec ih le).2

/-- The arithmetic on offsets never goes negative. -/
theorem Reached.mapped_nonneg (hes : Ordered 0 es n) (h : Reached (es.map compact) x carry)
    (hxy : x ≤ y) : 0 ≤ (passed carry.edits carry.delta y).mapped y := by
  rw [(step_spec (h.stands hes) hxy).1]
  exact Int.natCast_nonneg _

theorem toUsize_natCast {k : Nat} (h : k ≤ usizeMax) : toUsize k = some k := by
  rw [toUsize, if_pos ⟨Int.natCast_nonneg k, by exact_mod_cast h⟩]
  rfl

theorem after_spec (h : carry.Stands es n x) (hxy : x ≤ y)
    (hfits : Relocation.after 0 0 es y ≤ usizeMax) :
    (carry.after y).1 = Relocation.after 0 0 es y ∧ (carry.after y).2.Stands es n y := by
  obtain ⟨hmapped, hstands⟩ := step_spec h hxy
  refine ⟨?_, hstands⟩
  rw [after]
  dsimp only
  rw [hmapped, toUsize_natCast hfits]
  rfl

end Carry

/-! ## §4 The start of the range -/

section Range

variable {es : List (Splice UInt8)} {n x : Nat}

/-- Edits behind the range's start leave it where it is. -/
theorem widen_behind {c : Nat} {a : Int} (h : Ordered c es n) (hx : x ≤ c) :
    widen x a (es.map compact) = a := by
  cases es with
  | nil => rfl
  | cons e es =>
    have hce : c ≤ e.start := h.1
    rw [List.map_cons, widen, if_neg (show ¬(compact e).before.start < x from by
      simp only [compact]
      omega)]

/-- The start of the range is mapped in front of what is written there. -/
theorem widen_eq {c d : Nat} (h : Ordered c es n) (hc : c ≤ x) :
    widen x ((d : Int) + (x - c : Nat)) (es.map compact) = Relocation.before c d es x := by
  induction es generalizing c d with
  | nil =>
    rw [List.map_nil, widen, Relocation.before]
    omega
  | cons e es ih =>
    obtain ⟨hce, hse, hrest⟩ := h
    rw [List.map_cons, widen, Relocation.before]
    by_cases hstop : e.stop < x
    · rw [if_pos (show (compact e).before.start < x from hse.trans_lt hstop),
        if_pos (show (compact e).before.stop < x from hstop), if_pos hstop,
        ← ih (d := d + (e.start - c) + e.insert.length) hrest hstop.le]
      congr 1
      simp only [compact]
      omega
    · rw [if_neg hstop]
      by_cases hstart : e.start < x
      · rw [if_pos (show (compact e).before.start < x from hstart),
          if_neg (show ¬(compact e).before.stop < x from hstop), widen_behind hrest (by omega)]
        simp only [compact]
        omega
      · rw [if_neg (show ¬(compact e).before.start < x from hstart)]
        omega

theorem widen_start (h : Ordered 0 es n) :
    widen x x (es.map compact) = Relocation.before 0 0 es x := by
  simpa using widen_eq (d := 0) h (Nat.zero_le x)

end Range

end BareLine.Syntax
