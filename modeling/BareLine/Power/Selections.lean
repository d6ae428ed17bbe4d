import BareLine.Power.Types

/-!
# Normalizing selections

A command first snaps the ends of the selections to cluster boundaries, then merges what
overlaps.  The merge keeps the union and yields selections in order, disjoint, each with its
own start; touching ones stay apart.
-/

namespace BareLine.Power

open Lib
open Search (Text)

/-! ## §1 Snapping and merging -/

/-- `snap` -/
def snap (u : Unicode) (snapshot : DocumentSnapshot) (offset : Nat) (limits : Limits) :
    Except Error Nat :=
  if snapshot.len < offset then .error .outOfBounds
  else
    let boundary := Search.boundaryUpTo snapshot.toDocumentSnapshot offset
    if boundary = 0 ∨ boundary = snapshot.len then .ok boundary
    else u.seek snapshot.text boundary limits

/-- A selection in a merge: its range, whether it runs backwards, and its index. -/
structure Entry where
  range : Range
  backward : Bool
  index : Nat
  deriving DecidableEq, Repr

/-- The ranges merged so far, and which of them holds the primary selection. -/
structure Merged where
  ranges : List (Range × Bool)
  primary : Nat
  deriving DecidableEq, Repr

/-- One turn of the loop of `merge_directed`. -/
def absorb (primaryIndex : Nat) (m : Merged) (entry : Entry) : Merged :=
  let isPrimary := entry.index == primaryIndex
  let pushed : Merged :=
    ⟨m.ranges ++ [(entry.range, entry.backward)], if isPrimary then m.ranges.length else m.primary⟩
  match m.ranges.getLast? with
  | none => pushed
  | some (last, lastBackward) =>
    if entry.range.start < last.stop ∨ entry.range.start = last.start then
      ⟨m.ranges.dropLast ++ [(⟨last.start, max last.stop entry.range.stop⟩,
        if isPrimary then entry.backward else lastBackward)],
        if isPrimary then m.ranges.length - 1 else m.primary⟩
    else pushed

/-- The order of the sort: by start, then by end. -/
def Entry.le (a b : Entry) : Prop :=
  a.range.start < b.range.start ∨
    a.range.start = b.range.start ∧ a.range.stop ≤ b.range.stop

instance Entry.decidableLe (a b : Entry) : Decidable (a.le b) :=
  inferInstanceAs (Decidable (a.range.start < b.range.start ∨
    a.range.start = b.range.start ∧ a.range.stop ≤ b.range.stop))

/-- The selections with their indices, from an index on. -/
def entriesFrom : Nat → List Selection → List Entry
  | _, [] => []
  | index, s :: rest => ⟨s.range, decide (s.caret < s.anchor), index⟩ :: entriesFrom (index + 1) rest

/-- A range as a selection that runs forwards or backwards. -/
def directed (entry : Range × Bool) : Selection :=
  if entry.2 then ⟨entry.1.stop, entry.1.start⟩ else ⟨entry.1.start, entry.1.stop⟩

/-- `merge_directed`; the sort is stable. -/
def mergeDirected (selections : List Selection) (primaryIndex : Nat) : SelectionSet :=
  let merged :=
    ((entriesFrom 0 selections).insertionSort Entry.le).foldl (absorb primaryIndex) ⟨[], 0⟩
  ⟨merged.ranges.map directed, merged.primary⟩

/-- Both ends of a selection, snapped. -/
def snapSelection (u : Unicode) (snapshot : DocumentSnapshot) (limits : Limits) (s : Selection) :
    Except Error Selection := do
  let anchor ← snap u snapshot s.anchor limits
  let caret ← snap u snapshot s.caret limits
  pure ⟨anchor, caret⟩

/-- `normalize_directed` -/
def normalizeDirected (u : Unicode) (snapshot : DocumentSnapshot) (set : SelectionSet)
    (limits : Limits) : Except Error SelectionSet :=
  if limits.maxBytes < limits.tabWidth then .error .budgetExceeded
  else if !snapshot.complete then .error .incompleteSource
  else if set.selections.isEmpty ∨ set.selections.length ≤ set.primary then .error .outOfBounds
  else if limits.maxSelections < set.selections.length then .error .budgetExceeded
  else do
    let snapped ← set.selections.mapM (snapSelection u snapshot limits)
    pure (mergeDirected snapped set.primary)

/-! ## §2 What one turn of the merge gives -/

theorem Selection.range_le (s : Selection) : s.range.start ≤ s.range.stop := by
  simp only [Selection.range]
  omega

@[simp] theorem directed_range (entry : Range × Bool) (h : entry.1.start ≤ entry.1.stop) :
    (directed entry).range = entry.1 := by
  obtain ⟨⟨start, stop⟩, backward⟩ := entry
  cases backward <;> simp [directed, Selection.range] <;> omega

/-- A selection is its range, and the direction it runs in. -/
theorem directed_self (s : Selection) : directed (s.range, decide (s.caret < s.anchor)) = s := by
  obtain ⟨anchor, caret⟩ := s
  simp only [directed, Selection.range, decide_eq_true_eq]
  split <;> simp <;> omega

/-- One range ends at or before the other one starts, and starts before it. -/
def Before (a b : Range) : Prop := a.stop ≤ b.start ∧ a.start < b.start

/-- A range holds all of another one. -/
def Holds (a b : Range) : Prop := a.start ≤ b.start ∧ b.stop ≤ a.stop

/-- What the merge keeps over the entries it has seen. -/
structure MergeOf (primaryIndex : Nat) (entries : List Entry) (m : Merged) : Prop where
  ordered : ∀ r ∈ m.ranges, r.1.start ≤ r.1.stop
  apart : m.ranges.Pairwise fun a b => Before a.1 b.1
  starts : ∀ r ∈ m.ranges, ∃ e ∈ entries, e.range.start = r.1.start
  stops : ∀ r ∈ m.ranges, ∃ e ∈ entries, e.range.stop = r.1.stop
  held : ∀ e ∈ entries, ∃ r ∈ m.ranges, Holds r.1 e.range
  closed : ∀ r ∈ m.ranges, ∀ x, r.1.start ≤ x → x ≤ r.1.stop →
    ∃ e ∈ entries, e.range.start ≤ x ∧ x ≤ e.range.stop
  halfOpen : ∀ r ∈ m.ranges, ∀ x, r.1.start ≤ x → x < r.1.stop →
    ∃ e ∈ entries, e.range.start ≤ x ∧ x < e.range.stop
  primary : ∀ e ∈ entries, e.index = primaryIndex →
    ∃ r, m.ranges[m.primary]? = some r ∧ Holds r.1 e.range

/-- Nothing merged yet. -/
theorem MergeOf.nil (primaryIndex : Nat) : MergeOf primaryIndex [] ⟨[], 0⟩ where
  ordered := nofun
  apart := .nil
  starts := nofun
  stops := nofun
  held := nofun
  closed := nofun
  halfOpen := nofun
  primary := nofun

variable {primaryIndex : Nat}

/-- An entry behind all ranges is a range of its own. -/
theorem absorb_push {m : Merged} {e : Entry} (h : ∀ r ∈ m.ranges, Before r.1 e.range) :
    absorb primaryIndex m e = ⟨m.ranges ++ [(e.range, e.backward)],
      if e.index == primaryIndex then m.ranges.length else m.primary⟩ := by
  obtain ⟨ranges, primary⟩ := m
  rcases List.eq_nil_or_concat ranges with rfl | ⟨init, last, rfl⟩
  · rfl
  · rw [List.concat_eq_append] at h ⊢
    obtain ⟨hstop, hstart⟩ := h last (by simp)
    have hpush : ¬(e.range.start < last.1.stop ∨ e.range.start = last.1.start) := by omega
    simp only [absorb, List.getLast?_append, List.getLast?_singleton, Option.some_or, if_neg hpush]

/-- Any other entry joins the last range. -/
theorem absorb_join {init : List (Range × Bool)} {last : Range × Bool} {primary : Nat} {e : Entry}
    (hstart : last.1.start ≤ e.range.start) (h : ¬Before last.1 e.range) :
    absorb primaryIndex ⟨init ++ [last], primary⟩ e =
      ⟨init ++ [(⟨last.1.start, max last.1.stop e.range.stop⟩,
        if e.index == primaryIndex then e.backward else last.2)],
        if e.index == primaryIndex then init.length else primary⟩ := by
  have hjoin : e.range.start < last.1.stop ∨ e.range.start = last.1.start := by
    simp only [Before] at h
    omega
  simp only [absorb, List.getLast?_append, List.getLast?_singleton, Option.some_or, if_pos hjoin,
    List.dropLast_concat, List.length_append, List.length_singleton, Nat.add_sub_cancel]

/-- A range of its own is added. -/
theorem MergeOf.push {entries : List Entry} {m : Merged} {e : Entry}
    (h : MergeOf primaryIndex entries m) (he : e.range.start ≤ e.range.stop)
    (hindex : ∀ e' ∈ entries, e'.index ≠ e.index) (hpush : ∀ r ∈ m.ranges, Before r.1 e.range) :
    MergeOf primaryIndex (entries ++ [e]) (absorb primaryIndex m e) := by
  rw [absorb_push hpush]
  refine ⟨?_, ?_, ?_, ?_, ?_, ?_, ?_, ?_⟩ <;> simp only [List.mem_append, List.mem_singleton]
  · rintro r (hr | rfl)
    · exact h.ordered r hr
    · exact he
  · exact List.pairwise_append.mpr ⟨h.apart, List.pairwise_singleton .., fun r hr _ hlast =>
      List.mem_singleton.mp hlast ▸ hpush r hr⟩
  · rintro r (hr | rfl)
    · obtain ⟨e', he', hstart⟩ := h.starts r hr
      exact ⟨e', .inl he', hstart⟩
    · exact ⟨e, .inr rfl, rfl⟩
  · rintro r (hr | rfl)
    · obtain ⟨e', he', hstop⟩ := h.stops r hr
      exact ⟨e', .inl he', hstop⟩
    · exact ⟨e, .inr rfl, rfl⟩
  · rintro e' (he' | rfl)
    · obtain ⟨r, hr, hheld⟩ := h.held e' he'
      exact ⟨r, .inl hr, hheld⟩
    · exact ⟨_, .inr rfl, Nat.le_refl _, Nat.le_refl _⟩
  · rintro r (hr | rfl) x hlo hhi
    · obtain ⟨e', he', hx⟩ := h.closed r hr x hlo hhi
      exact ⟨e', .inl he', hx⟩
    · exact ⟨e, .inr rfl, hlo, hhi⟩
  · rintro r (hr | rfl) x hlo hhi
    · obtain ⟨e', he', hx⟩ := h.halfOpen r hr x hlo hhi
      exact ⟨e', .inl he', hx⟩
    · exact ⟨e, .inr rfl, hlo, hhi⟩
  · rintro e' (he' | rfl) hprimary
    · obtain ⟨r, hr, hheld⟩ := h.primary e' he' hprimary
      have hne : (e.index == primaryIndex) = false :=
        beq_eq_false_iff_ne.mpr fun hp => hindex e' he' (hprimary.trans hp.symm)
      refine ⟨r, ?_, hheld⟩
      simp only [hne, Bool.false_eq_true, if_false]
      rw [List.getElem?_append_left (List.getElem?_eq_some_iff.mp hr).1, hr]
    · refine ⟨(e'.range, e'.backward), ?_, Nat.le_refl _, Nat.le_refl _⟩
      simp [hprimary]

/-- The last range grows. -/
theorem MergeOf.join {entries : List Entry} {init : List (Range × Bool)} {last : Range × Bool}
    {primary : Nat} {e : Entry} (h : MergeOf primaryIndex entries ⟨init ++ [last], primary⟩)
    (he : e.range.start ≤ e.range.stop) (hindex : ∀ e' ∈ entries, e'.index ≠ e.index)
    (hstart : last.1.start ≤ e.range.start) (hjoin : ¬Before last.1 e.range) :
    MergeOf primaryIndex (entries ++ [e]) (absorb primaryIndex ⟨init ++ [last], primary⟩ e) := by
  rw [absorb_join hstart hjoin]
  have hlast : last.1.start ≤ last.1.stop := h.ordered last (by simp)
  have hinit : ∀ r ∈ init, r ∈ init ++ [last] := fun r hr => List.mem_append_left _ hr
  have hmem : last ∈ init ++ [last] := by simp
  -- the grown range holds what the last one held
  have hgrow : ∀ r b, Holds last.1 r → Holds (⟨last.1.start, max last.1.stop b⟩ : Range) r :=
    fun r b hr => ⟨hr.1, Nat.le_trans hr.2 (Nat.le_max_left _ _)⟩
  simp only [Before] at hjoin
  refine ⟨?_, ?_, ?_, ?_, ?_, ?_, ?_, ?_⟩ <;> simp only [List.mem_append, List.mem_singleton]
  · rintro r (hr | rfl)
    · exact h.ordered r (hinit r hr)
    · dsimp only
      omega
  · refine List.pairwise_append.mpr ⟨(List.pairwise_append.mp h.apart).1,
      List.pairwise_singleton .., fun r hr r' hr' => ?_⟩
    rw [List.mem_singleton.mp hr']
    exact (List.pairwise_append.mp h.apart).2.2 r hr last (by simp)
  · rintro r (hr | rfl)
    · obtain ⟨e', he', hs⟩ := h.starts r (hinit r hr)
      exact ⟨e', .inl he', hs⟩
    · obtain ⟨e', he', hs⟩ := h.starts last hmem
      exact ⟨e', .inl he', hs⟩
  · rintro r (hr | rfl)
    · obtain ⟨e', he', hs⟩ := h.stops r (hinit r hr)
      exact ⟨e', .inl he', hs⟩
    · obtain ⟨e', he', hs⟩ := h.stops last hmem
      rcases Nat.le_total last.1.stop e.range.stop with hle | hle
      · exact ⟨e, .inr rfl, (Nat.max_eq_right hle).symm⟩
      · exact ⟨e', .inl he', hs.trans (Nat.max_eq_left hle).symm⟩
  · rintro e' (he' | rfl)
    · obtain ⟨r, hr, hheld⟩ := h.held e' he'
      rcases List.mem_append.mp hr with hr | hr
      · exact ⟨r, .inl hr, hheld⟩
      · rw [List.mem_singleton.mp hr] at hheld
        exact ⟨_, .inr rfl, hgrow _ _ hheld⟩
    · exact ⟨_, .inr rfl, hstart, Nat.le_max_right _ _⟩
  · rintro r (hr | rfl) x hlo hhi
    · obtain ⟨e', he', hx⟩ := h.closed r (hinit r hr) x hlo hhi
      exact ⟨e', .inl he', hx⟩
    · dsimp only at hlo hhi
      rcases Nat.lt_or_ge last.1.stop x with hx | hx
      · exact ⟨e, .inr rfl, by omega, by omega⟩
      · obtain ⟨e', he', hx'⟩ := h.closed last hmem x hlo hx
        exact ⟨e', .inl he', hx'⟩
  · rintro r (hr | rfl) x hlo hhi
    · obtain ⟨e', he', hx⟩ := h.halfOpen r (hinit r hr) x hlo hhi
      exact ⟨e', .inl he', hx⟩
    · dsimp only at hlo hhi
      rcases Nat.lt_or_ge x last.1.stop with hx | hx
      · obtain ⟨e', he', hx'⟩ := h.halfOpen last hmem x hlo hx
        exact ⟨e', .inl he', hx'⟩
      · exact ⟨e, .inr rfl, by omega, by omega⟩
  · rintro e' (he' | rfl) hprimary
    · obtain ⟨r, hr, hheld⟩ := h.primary e' he' hprimary
      have hne : (e.index == primaryIndex) = false :=
        beq_eq_false_iff_ne.mpr fun hp => hindex e' he' (hprimary.trans hp.symm)
      simp only [hne, Bool.false_eq_true, if_false]
      dsimp only at hr
      rcases Nat.lt_or_ge primary init.length with hlt | hge
      · rw [List.getElem?_append_left hlt] at hr ⊢
        exact ⟨r, hr, hheld⟩
      · rw [List.getElem?_append_right hge] at hr ⊢
        rw [List.getElem?_singleton, Option.ite_none_right_eq_some, Option.some_inj] at hr
        obtain ⟨hzero, rfl⟩ := hr
        exact ⟨_, by rw [hzero]; rfl, hgrow _ _ hheld⟩
    · have hself : (e'.index == primaryIndex) = true := beq_iff_eq.mpr hprimary
      simp only [hself, if_true, List.getElem?_concat_length]
      exact ⟨_, rfl, hstart, Nat.le_max_right last.1.stop _⟩

/-- One turn: an entry is added that starts no earlier than those before it. -/
theorem MergeOf.absorb {entries : List Entry} {m : Merged} {e : Entry}
    (h : MergeOf primaryIndex entries m) (he : e.range.start ≤ e.range.stop)
    (hsorted : ∀ e' ∈ entries, e'.range.start ≤ e.range.start)
    (hindex : ∀ e' ∈ entries, e'.index ≠ e.index) :
    MergeOf primaryIndex (entries ++ [e]) (absorb primaryIndex m e) := by
  have hfront : ∀ r ∈ m.ranges, r.1.start ≤ e.range.start := fun r hr => by
    obtain ⟨e', he', hstart⟩ := h.starts r hr
    exact hstart ▸ hsorted e' he'
  obtain ⟨ranges, primary⟩ := m
  rcases List.eq_nil_or_concat ranges with rfl | ⟨init, last, rfl⟩
  · exact h.push he hindex nofun
  · rw [List.concat_eq_append] at h hfront ⊢
    by_cases hlast : Before last.1 e.range
    · refine h.push he hindex fun r hr => ?_
      rcases List.mem_append.mp hr with hr | hr
      · have hbefore := (List.pairwise_append.mp h.apart).2.2 r hr last (by simp)
        have hle := h.ordered last (by simp)
        exact ⟨by have := hbefore.1; have := hlast.1; omega, hbefore.2.trans hlast.2⟩
      · exact List.mem_singleton.mp hr ▸ hlast
    · exact h.join he hindex (hfront last (by simp)) hlast

/-! ## §3 What a merge gives -/

instance Entry.isTransLe : IsTrans Entry Entry.le where
  trans a b c hab hbc := by
    simp only [Entry.le] at hab hbc ⊢
    omega

instance Entry.totalLe : Std.Total Entry.le where
  total a b := by
    simp only [Entry.le]
    omega

/-- The entry of a selection. -/
def entryOf (index : Nat) (s : Selection) : Entry := ⟨s.range, decide (s.caret < s.anchor), index⟩

theorem entriesFrom_cons (index : Nat) (s : Selection) (rest : List Selection) :
    entriesFrom index (s :: rest) = entryOf index s :: entriesFrom (index + 1) rest := rfl

theorem mem_entriesFrom {e : Entry} {index : Nat} {selections : List Selection} :
    e ∈ entriesFrom index selections ↔
      ∃ i s, selections[i]? = some s ∧ e = entryOf (index + i) s := by
  induction selections generalizing index with
  | nil => simp [entriesFrom]
  | cons s rest ih =>
    rw [entriesFrom_cons, List.mem_cons, ih]
    constructor
    · rintro (rfl | ⟨i, t, ht, rfl⟩)
      · exact ⟨0, s, rfl, rfl⟩
      · exact ⟨i + 1, t, ht, by rw [Nat.add_right_comm, Nat.add_assoc]⟩
    · rintro ⟨i, t, ht, rfl⟩
      cases i with
      | zero =>
        obtain rfl : s = t := Option.some.inj ht
        exact .inl rfl
      | succ i => exact .inr ⟨i, t, ht, by rw [Nat.add_right_comm, Nat.add_assoc]⟩

/-- No two entries have one index. -/
theorem entriesFrom_pairwise (index : Nat) (selections : List Selection) :
    (entriesFrom index selections).Pairwise fun a b => a.index ≠ b.index := by
  induction selections generalizing index with
  | nil => exact .nil
  | cons s rest ih =>
    refine .cons (fun e he => ?_) (ih _)
    obtain ⟨i, t, -, rfl⟩ := mem_entriesFrom.mp he
    simp only [entryOf]
    omega

/-- A whole pass over sorted entries. -/
theorem MergeOf.foldl {seen entries : List Entry} {m : Merged} (h : MergeOf primaryIndex seen m)
    (hranges : ∀ e ∈ entries, e.range.start ≤ e.range.stop)
    (hsorted : (seen ++ entries).Pairwise fun a b => a.range.start ≤ b.range.start)
    (hindex : (seen ++ entries).Pairwise fun a b => a.index ≠ b.index) :
    MergeOf primaryIndex (seen ++ entries) (entries.foldl (Power.absorb primaryIndex) m) := by
  induction entries generalizing seen m with
  | nil => rwa [List.append_nil]
  | cons e entries ih =>
    have hstep := h.absorb (hranges e (by simp))
      (fun e' he' => (List.pairwise_append.mp hsorted).2.2 e' he' e (by simp))
      (fun e' he' => (List.pairwise_append.mp hindex).2.2 e' he' e (by simp))
    rw [List.append_cons] at hsorted hindex ⊢
    exact ih hstep (fun e' he' => hranges e' (List.mem_cons_of_mem _ he')) hsorted hindex

/-- The sorted entries of some selections. -/
def sortedEntries (selections : List Selection) : List Entry :=
  (entriesFrom 0 selections).insertionSort Entry.le

theorem sortedEntries_perm (selections : List Selection) :
    (sortedEntries selections).Perm (entriesFrom 0 selections) := List.perm_insertionSort ..

theorem sortedEntries_le (selections : List Selection) :
    (sortedEntries selections).Pairwise Entry.le := List.pairwise_insertionSort Entry.le _

theorem sortedEntries_index (selections : List Selection) :
    (sortedEntries selections).Pairwise fun a b => a.index ≠ b.index :=
  ((sortedEntries_perm selections).pairwise_iff fun h => h.symm).mpr
    (entriesFrom_pairwise 0 selections)

theorem sortedEntries_range {selections : List Selection} {e : Entry}
    (he : e ∈ sortedEntries selections) : e.range.start ≤ e.range.stop := by
  obtain ⟨i, s, -, rfl⟩ := mem_entriesFrom.mp ((sortedEntries_perm selections).mem_iff.mp he)
  exact s.range_le

/-- A part of the sorted entries, merged. -/
theorem mergeOf_front {selections : List Selection} {front rest : List Entry}
    (h : sortedEntries selections = front ++ rest) :
    MergeOf primaryIndex front (front.foldl (Power.absorb primaryIndex) ⟨[], 0⟩) := by
  have hle := h ▸ sortedEntries_le selections
  have hindex := h ▸ sortedEntries_index selections
  have hmem : ∀ e ∈ front, e ∈ sortedEntries selections :=
    fun e he => h ▸ List.mem_append_left rest he
  refine (MergeOf.nil primaryIndex).foldl (fun e he => sortedEntries_range (hmem e he)) ?_
    (List.pairwise_append.mp hindex).1
  refine (List.pairwise_append.mp hle).1.imp fun hab => ?_
  simp only [Entry.le] at hab
  omega

/-- What a merge gives: the same union, in order and apart. -/
structure MergedSet (given : List Selection) (primaryIndex : Nat) (set : SelectionSet) : Prop where
  apart : set.selections.Pairwise fun a b => Before a.range b.range
  starts : ∀ t ∈ set.selections, ∃ s ∈ given, s.range.start = t.range.start
  stops : ∀ t ∈ set.selections, ∃ s ∈ given, s.range.stop = t.range.stop
  held : ∀ s ∈ given, ∃ t ∈ set.selections, Holds t.range s.range
  closed : ∀ t ∈ set.selections, ∀ x, t.range.start ≤ x → x ≤ t.range.stop →
    ∃ s ∈ given, s.range.start ≤ x ∧ x ≤ s.range.stop
  halfOpen : ∀ t ∈ set.selections, ∀ x, t.range.start ≤ x → x < t.range.stop →
    ∃ s ∈ given, s.range.start ≤ x ∧ x < s.range.stop
  primary : ∀ s, given[primaryIndex]? = some s →
    ∃ t, set.selections[set.primary]? = some t ∧ Holds t.range s.range

theorem mergeDirected_merges (selections : List Selection) (primaryIndex : Nat) :
    MergedSet selections primaryIndex (mergeDirected selections primaryIndex) := by
  have hm : MergeOf primaryIndex (sortedEntries selections)
      ((sortedEntries selections).foldl (absorb primaryIndex) ⟨[], 0⟩) :=
    mergeOf_front (List.append_nil _).symm
  have hset : mergeDirected selections primaryIndex =
    ⟨((sortedEntries selections).foldl (absorb primaryIndex) ⟨[], 0⟩).ranges.map directed,
      ((sortedEntries selections).foldl (absorb primaryIndex) ⟨[], 0⟩).primary⟩ := rfl
  rw [hset]
  generalize (sortedEntries selections).foldl (absorb primaryIndex) ⟨[], 0⟩ = m at hm ⊢
  have hentry : ∀ e, e ∈ sortedEntries selections ↔
      ∃ i s, selections[i]? = some s ∧ e = entryOf (0 + i) s :=
    fun e => (sortedEntries_perm selections).mem_iff.trans mem_entriesFrom
  have hgiven : ∀ e ∈ sortedEntries selections, ∃ s ∈ selections, s.range = e.range := by
    intro e he
    obtain ⟨i, s, hs, rfl⟩ := (hentry e).mp he
    exact ⟨s, List.mem_of_getElem? hs, rfl⟩
  have hdirected : ∀ r ∈ m.ranges, (directed r).range = r.1 :=
    fun r hr => directed_range r (hm.ordered r hr)
  refine ⟨?_, ?_, ?_, ?_, ?_, ?_, ?_⟩
  · refine List.pairwise_map.mpr (hm.apart.imp_of_mem fun ha hb hab => ?_)
    rwa [hdirected _ ha, hdirected _ hb]
  · intro t ht
    obtain ⟨r, hr, rfl⟩ := List.mem_map.mp ht
    obtain ⟨e, he, hstart⟩ := hm.starts r hr
    obtain ⟨s, hs, hrange⟩ := hgiven e he
    exact ⟨s, hs, by rw [hdirected r hr, hrange, hstart]⟩
  · intro t ht
    obtain ⟨r, hr, rfl⟩ := List.mem_map.mp ht
    obtain ⟨e, he, hstop⟩ := hm.stops r hr
    obtain ⟨s, hs, hrange⟩ := hgiven e he
    exact ⟨s, hs, by rw [hdirected r hr, hrange, hstop]⟩
  · intro s hs
    obtain ⟨i, hi⟩ := List.mem_iff_getElem?.mp hs
    obtain ⟨r, hr, hheld⟩ := hm.held (entryOf (0 + i) s) ((hentry _).mpr ⟨i, s, hi, rfl⟩)
    exact ⟨_, List.mem_map_of_mem hr, by rwa [hdirected r hr]⟩
  · intro t ht x hlo hhi
    obtain ⟨r, hr, rfl⟩ := List.mem_map.mp ht
    rw [hdirected r hr] at hlo hhi
    obtain ⟨e, he, hx⟩ := hm.closed r hr x hlo hhi
    obtain ⟨s, hs, hrange⟩ := hgiven e he
    exact ⟨s, hs, hrange ▸ hx⟩
  · intro t ht x hlo hhi
    obtain ⟨r, hr, rfl⟩ := List.mem_map.mp ht
    rw [hdirected r hr] at hlo hhi
    obtain ⟨e, he, hx⟩ := hm.halfOpen r hr x hlo hhi
    obtain ⟨s, hs, hrange⟩ := hgiven e he
    exact ⟨s, hs, hrange ▸ hx⟩
  · intro s hs
    obtain ⟨r, hr, hheld⟩ := hm.primary (entryOf (0 + primaryIndex) s)
      ((hentry _).mpr ⟨primaryIndex, s, hs, rfl⟩) (Nat.zero_add _)
    refine ⟨directed r, by rw [List.getElem?_map, hr]; rfl, ?_⟩
    rwa [hdirected r (List.mem_of_getElem? hr)]

/-! ## §4 Selections that stay apart -/

/-- Entries in order and apart are ranges of their own. -/
theorem foldl_absorb_apart {selections : List Selection} {index : Nat} {m : Merged}
    (hfront : ∀ r ∈ m.ranges, ∀ s ∈ selections, Before r.1 s.range)
    (hapart : selections.Pairwise fun a b => Before a.range b.range) :
    (entriesFrom index selections).foldl (absorb primaryIndex) m =
      ⟨m.ranges ++ selections.map fun s => (s.range, decide (s.caret < s.anchor)),
        if index ≤ primaryIndex ∧ primaryIndex < index + selections.length then
          m.ranges.length + (primaryIndex - index) else m.primary⟩ := by
  induction selections generalizing index m with
  | nil =>
    have hno : ¬(index ≤ primaryIndex ∧ primaryIndex < index + 0) := by omega
    rw [List.length_nil, if_neg hno, List.map_nil, List.append_nil]
    rfl
  | cons s rest ih =>
    obtain ⟨hs, hrest⟩ := List.pairwise_cons.mp hapart
    have hpush := @absorb_push primaryIndex m (entryOf index s)
      fun r hr => hfront r hr s (by simp)
    rw [entriesFrom_cons, List.foldl_cons, hpush, ih ?_ hrest]
    · simp only [List.append_assoc, List.length_append, List.length_cons, List.length_nil,
        List.map_cons, entryOf, beq_iff_eq, List.singleton_append]
      congr 1
      split_ifs <;> omega
    · intro r hr t ht
      rcases List.mem_append.mp hr with hr | hr
      · exact hfront r hr t (List.mem_cons_of_mem _ ht)
      · exact List.mem_singleton.mp hr ▸ hs t ht

/-- The entries of selections in order and apart are sorted. -/
theorem entriesFrom_sorted {selections : List Selection} (index : Nat)
    (hapart : selections.Pairwise fun a b => Before a.range b.range) :
    (entriesFrom index selections).Pairwise Entry.le := by
  induction hapart generalizing index with
  | nil => exact .nil
  | cons hs _ ih =>
    refine .cons (fun e he => ?_) (ih _)
    obtain ⟨i, t, ht, rfl⟩ := mem_entriesFrom.mp he
    exact .inl (hs t (List.mem_of_getElem? ht)).2

/-- A merge leaves selections alone that are in order and apart. -/
theorem mergeDirected_self {selections : List Selection} {primary : Nat}
    (hapart : selections.Pairwise fun a b => Before a.range b.range)
    (hprimary : primary < selections.length ∨ primary = 0) :
    mergeDirected selections primary = ⟨selections, primary⟩ := by
  have hfront : ∀ r ∈ (⟨[], 0⟩ : Merged).ranges, ∀ s ∈ selections, Before r.1 s.range := nofun
  rw [mergeDirected, (entriesFrom_sorted 0 hapart).insertionSort_eq,
    foldl_absorb_apart hfront hapart]
  have hdirected : (directed ∘ fun s : Selection => (s.range, decide (s.caret < s.anchor))) = id :=
    funext fun s => directed_self s
  simp only [List.nil_append, List.map_map, hdirected, List.map_id, List.length_nil]
  congr 1
  split_ifs <;> omega

/-- Only the primary entry says which range is the primary one. -/
theorem foldl_absorb_primary {entries : List Entry} {m : Merged}
    (h : ∀ e ∈ entries, e.index ≠ primaryIndex) :
    (entries.foldl (absorb primaryIndex) m).primary = m.primary := by
  induction entries generalizing m with
  | nil => rfl
  | cons e entries ih =>
    have hne : (e.index == primaryIndex) = false := beq_eq_false_iff_ne.mpr (h e (by simp))
    rw [List.foldl_cons, ih fun e' he' => h e' (List.mem_cons_of_mem _ he'), absorb]
    simp only [hne, Bool.false_eq_true, if_false]
    split
    · rfl
    · split <;> rfl

/-- The primary of a merge is one of its selections, or the first. -/
theorem mergeDirected_primary (selections : List Selection) (primaryIndex : Nat) :
    (mergeDirected selections primaryIndex).primary <
      (mergeDirected selections primaryIndex).selections.length ∨
      (mergeDirected selections primaryIndex).primary = 0 := by
  rcases Nat.lt_or_ge primaryIndex selections.length with hlt | hge
  · obtain ⟨t, ht, -⟩ := (mergeDirected_merges selections primaryIndex).primary _
      (List.getElem?_eq_getElem hlt)
    exact .inl (List.getElem?_eq_some_iff.mp ht).1
  · refine .inr (foldl_absorb_primary fun e he => ?_)
    obtain ⟨i, s, hs, rfl⟩ := mem_entriesFrom.mp ((List.mem_insertionSort _).mp he)
    have hi := (List.getElem?_eq_some_iff.mp hs).1
    simp only [entryOf]
    omega

/-- What a merge gives stays as it is in another one. -/
theorem mergeDirected_idempotent (selections : List Selection) (primaryIndex : Nat) :
    mergeDirected (mergeDirected selections primaryIndex).selections
      (mergeDirected selections primaryIndex).primary = mergeDirected selections primaryIndex := by
  exact mergeDirected_self (mergeDirected_merges selections primaryIndex).apart
    (mergeDirected_primary selections primaryIndex)

/-! ## §5 What a normalized set is -/

/-- A snapped end lies on a boundary, and no later than it did. -/
theorem snap_spec {u : Unicode} {snapshot : DocumentSnapshot} {offset found : Nat}
    {limits : Limits} (h : snap u snapshot offset limits = .ok found) :
    found ≤ offset ∧ snapshot.isBoundary found = true := by
  rw [snap] at h
  split at h
  · exact nomatch h
  obtain ⟨-, hle, hboundary⟩ := Search.boundaryUpTo_spec
    (show snapshot.isBoundary 0 = true from isScalarBoundary_zero _) (Nat.zero_le offset)
  dsimp only at h
  split at h
  · obtain rfl := Except.ok.inj h
    exact ⟨hle, hboundary⟩
  · obtain ⟨hfound, hscalar⟩ := u.seek_boundary _ _ _ _ h
    exact ⟨hfound.trans hle, hscalar⟩

/-- A computation over a list succeeds on each of its elements. -/
theorem mapM_ok {α β : Type} {f : α → Except Error β} {as : List α} {bs : List β}
    (h : as.mapM f = .ok bs) : List.Forall₂ (fun a b => f a = .ok b) as bs := by
  induction as generalizing bs with
  | nil =>
    obtain rfl := Except.ok.inj h
    exact .nil
  | cons a as ih =>
    rw [List.mapM_cons, bind_ok] at h
    obtain ⟨b, hb, h⟩ := h
    obtain ⟨bs, hbs, h⟩ := bind_ok.mp h
    obtain rfl := Except.ok.inj h
    exact .cons hb (ih hbs)

/-- What a snapped selection ends at are boundaries. -/
theorem snapSelection_boundary {u : Unicode} {snapshot : DocumentSnapshot} {limits : Limits}
    {selections snapped : List Selection}
    (h : List.Forall₂ (fun s t => snapSelection u snapshot limits s = .ok t) selections snapped) :
    ∀ t ∈ snapped,
      snapshot.isBoundary t.anchor = true ∧ snapshot.isBoundary t.caret = true := by
  induction h with
  | nil => exact fun t ht => nomatch ht
  | cons hs _ ih =>
    obtain ⟨anchor, hanchor, hs⟩ := bind_ok.mp hs
    obtain ⟨caret, hcaret, hs⟩ := bind_ok.mp hs
    obtain rfl := Except.ok.inj hs
    exact List.forall_mem_cons.mpr ⟨⟨(snap_spec hanchor).2, (snap_spec hcaret).2⟩, ih⟩

/-- The selections a command works on. -/
structure Normalized (snapshot : DocumentSnapshot) (set : SelectionSet) : Prop where
  apart : set.selections.Pairwise fun a b => Before a.range b.range
  boundary : ∀ s ∈ set.selections,
    snapshot.isBoundary s.range.start = true ∧ snapshot.isBoundary s.range.stop = true
  primary : set.primary < set.selections.length

/-- The range of a selection ends where the selection does. -/
theorem Selection.range_ends (s : Selection) :
    (s.range.start = s.anchor ∧ s.range.stop = s.caret) ∨
      (s.range.start = s.caret ∧ s.range.stop = s.anchor) := by
  simp only [Selection.range]
  omega

theorem normalizeDirected_spec {u : Unicode} {snapshot : DocumentSnapshot}
    {set normalized : SelectionSet} {limits : Limits}
    (h : normalizeDirected u snapshot set limits = .ok normalized) :
    Normalized snapshot normalized ∧ ∃ snapped,
      List.Forall₂ (fun s t => snapSelection u snapshot limits s = .ok t) set.selections snapped ∧
      normalized = mergeDirected snapped set.primary := by
  rw [normalizeDirected] at h
  split_ifs at h with htab hcomplete hbounds hmany
  obtain ⟨snapped, hsnapped, h⟩ := bind_ok.mp h
  obtain rfl := Except.ok.inj h
  have hall := mapM_ok hsnapped
  have hmerged := mergeDirected_merges snapped set.primary
  have hboundary : ∀ t ∈ snapped,
      snapshot.isBoundary t.range.start = true ∧ snapshot.isBoundary t.range.stop = true := by
    intro t ht
    obtain ⟨hanchor, hcaret⟩ := snapSelection_boundary hall t ht
    rcases t.range_ends with ⟨hstart, hstop⟩ | ⟨hstart, hstop⟩ <;> rw [hstart, hstop]
    · exact ⟨hanchor, hcaret⟩
    · exact ⟨hcaret, hanchor⟩
  refine ⟨⟨hmerged.apart, fun t ht => ⟨?_, ?_⟩, ?_⟩, snapped, hall, rfl⟩
  · obtain ⟨s, hs, hstart⟩ := hmerged.starts t ht
    exact hstart ▸ (hboundary s hs).1
  · obtain ⟨s, hs, hstop⟩ := hmerged.stops t ht
    exact hstop ▸ (hboundary s hs).2
  · have hlength := hall.length_eq
    have hlt : set.primary < snapped.length := by omega
    obtain ⟨t, ht, -⟩ := hmerged.primary _ (List.getElem?_eq_getElem hlt)
    exact (List.getElem?_eq_some_iff.mp ht).1

end BareLine.Power
