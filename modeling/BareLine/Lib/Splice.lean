import Mathlib

/-!
# Splicing lists

A `Splice` replaces one range of a list; a sorted batch of them, all addressed in the
list before the batch, is a transaction.  A `Change` also names the elements it removes,
so a batch of changes can be checked against the list and run backwards.

- `splice`: the reference meaning of a batch, read left to right.
- `Patch`: the same meaning as a relation between the list before and the list after.
  It carries order, range and removed elements at once, and every other module reasons
  with it.
- `Patch.inverse`: swapping removed and inserted elements and moving the offsets turns a
  patch around.
-/

namespace BareLine.Lib

variable {α : Type*}

/-! ## §1 Batches of splices -/

/-- Replace the elements at `start ≤ i < stop` by `insert`. -/
structure Splice (α : Type*) where
  start : Nat
  stop : Nat
  insert : List α
  deriving DecidableEq, Repr

/-- `es` is sorted and disjoint, starts at or after `c` and ends within `n`. -/
def Ordered : Nat → List (Splice α) → Nat → Prop
  | c, [], n => c ≤ n
  | c, e :: es, n => c ≤ e.start ∧ e.start ≤ e.stop ∧ Ordered e.stop es n

instance instDecidableOrdered : (c : Nat) → (es : List (Splice α)) → (n : Nat) →
    Decidable (Ordered c es n)
  | c, [], n => inferInstanceAs (Decidable (c ≤ n))
  | c, e :: es, n =>
    have := instDecidableOrdered e.stop es n
    inferInstanceAs (Decidable (c ≤ e.start ∧ e.start ≤ e.stop ∧ Ordered e.stop es n))

/-- Apply a batch to the list `t` that starts at offset `c` of the whole. -/
def spliceFrom : Nat → List (Splice α) → List α → List α
  | _, [], t => t
  | c, e :: es, t =>
    t.take (e.start - c) ++ e.insert ++ spliceFrom e.stop es (t.drop (e.stop - c))

/-- Reference meaning of a sorted batch: all offsets address the list before it. -/
def splice (es : List (Splice α)) (t : List α) : List α := spliceFrom 0 es t

/-- One splice on its own. -/
def Splice.apply (e : Splice α) (t : List α) : List α :=
  t.take e.start ++ e.insert ++ t.drop e.stop

theorem Ordered.le {c n : Nat} {es : List (Splice α)} (h : Ordered c es n) : c ≤ n := by
  induction es generalizing c with
  | nil => exact h
  | cons e es ih =>
    rcases h with ⟨hc, hse, hrest⟩
    exact Nat.le_trans hc (Nat.le_trans hse (ih hrest))

theorem Ordered.mono {c c' n : Nat} {es : List (Splice α)} (h : Ordered c es n)
    (hle : c' ≤ c) : Ordered c' es n := by
  cases es with
  | nil => exact Nat.le_trans hle h
  | cons e es => exact ⟨Nat.le_trans hle h.1, h.2⟩

/-- Members of an ordered batch lie in range. -/
theorem Ordered.mem {c n : Nat} {es : List (Splice α)} (h : Ordered c es n)
    {e : Splice α} (he : e ∈ es) : c ≤ e.start ∧ e.start ≤ e.stop ∧ e.stop ≤ n := by
  induction es generalizing c with
  | nil => cases he
  | cons e' es ih =>
    rcases h with ⟨hc, hse, hrest⟩
    rcases List.mem_cons.mp he with rfl | hmem
    · exact ⟨hc, hse, hrest.le⟩
    · rcases ih hrest hmem with ⟨h1, h2, h3⟩
      exact ⟨Nat.le_trans hc (Nat.le_trans hse h1), h2, h3⟩

/-- An ordered batch is sorted and disjoint. -/
theorem Ordered.pairwise {c n : Nat} {es : List (Splice α)} (h : Ordered c es n) :
    es.Pairwise fun a b => a.stop ≤ b.start := by
  induction es generalizing c with
  | nil => exact List.Pairwise.nil
  | cons e es ih =>
    rcases h with ⟨-, -, hrest⟩
    exact List.Pairwise.cons (fun b hb => (hrest.mem hb).1) (ih hrest)

/-! ## §2 Changes and patches -/

/-- A splice that names the elements it removes. -/
structure Change (α : Type*) where
  offset : Nat
  removed : List α
  inserted : List α
  deriving DecidableEq, Repr

namespace Change

/-- Offset just past the removed elements. -/
def stop (e : Change α) : Nat := e.offset + e.removed.length

def toSplice (e : Change α) : Splice α := ⟨e.offset, e.stop, e.inserted⟩

end Change

/-- `Patch c es t u`: the batch `es`, whose offsets count from `c` at the start of `t`,
removes exactly elements of `t` and turns `t` into `u`. -/
def Patch : Nat → List (Change α) → List α → List α → Prop
  | _, [], t, u => t = u
  | c, e :: es, t, u => ∃ k t' u', t = k ++ e.removed ++ t' ∧ u = k ++ e.inserted ++ u' ∧
      e.offset = c + k.length ∧ Patch e.stop es t' u'

/-- The change a splice makes in the list `t` that starts at offset `c`. -/
def Splice.toChange (c : Nat) (t : List α) (e : Splice α) : Change α :=
  ⟨e.start, (t.take (e.stop - c)).drop (e.start - c), e.insert⟩

@[simp] theorem patch_nil {c : Nat} {t u : List α} : Patch c [] t u ↔ t = u := Iff.rfl

/-- Unchanged elements in front of the cursor may be added to both sides. -/
theorem Patch.prepend {c : Nat} {es : List (Change α)} {t u : List α}
    (k : List α) (h : Patch (c + k.length) es t u) : Patch c es (k ++ t) (k ++ u) := by
  cases es with
  | nil => exact congrArg (k ++ ·) h
  | cons e es =>
    rcases h with ⟨k', t', u', rfl, rfl, hoff, hrest⟩
    exact ⟨k ++ k', t', u', by simp, by simp, by simp [hoff, Nat.add_assoc], hrest⟩

/-- A patch is the splice of its changes, and these are ordered. -/
theorem Patch.spliceFrom_eq {c : Nat} {es : List (Change α)} {t u : List α}
    (h : Patch c es t u) : spliceFrom c (es.map Change.toSplice) t = u := by
  induction es generalizing c t u with
  | nil => exact h
  | cons e es ih =>
    rcases h with ⟨k, t', u', rfl, rfl, hoff, hrest⟩
    have hdrop : (k ++ e.removed ++ t').drop (e.stop - c) = t' := by
      have : e.stop - c = (k ++ e.removed).length := by
        simp [Change.stop, hoff]; omega
      rw [this, List.drop_left]
    have htake : (k ++ e.removed ++ t').take (e.offset - c) = k := by
      have : e.offset - c = k.length := by omega
      rw [this, List.append_assoc, List.take_left]
    simp only [List.map_cons, spliceFrom, Change.toSplice, hdrop, htake]
    rw [← ih hrest]

theorem Patch.ordered {c : Nat} {es : List (Change α)} {t u : List α}
    (h : Patch c es t u) : Ordered c (es.map Change.toSplice) (c + t.length) := by
  induction es generalizing c t u with
  | nil => exact Nat.le_add_right _ _
  | cons e es ih =>
    rcases h with ⟨k, t', u', rfl, rfl, hoff, hrest⟩
    refine ⟨by simp [Change.toSplice, hoff], by simp [Change.toSplice, Change.stop], ?_⟩
    have hlen : c + (k ++ e.removed ++ t').length = e.stop + t'.length := by
      simp [Change.stop, hoff]; omega
    rw [hlen]
    exact ih hrest

/-- An ordered batch patches every list it fits in. -/
theorem patch_spliceFrom {c : Nat} {es : List (Splice α)} {t : List α}
    (h : Ordered c es (c + t.length)) :
    Patch c (es.map (Splice.toChange c t)) t (spliceFrom c es t) := by
  suffices hgen : ∀ (p t : List α) (es : List (Splice α)), Ordered (c + p.length) es
      (c + (p ++ t).length) →
      Patch (c + p.length) (es.map (Splice.toChange c (p ++ t))) t
        (spliceFrom (c + p.length) es t) by
    simpa using hgen [] t es (by simpa using h)
  clear h t es
  intro p t es h
  induction es generalizing p t with
  | nil => rfl
  | cons e es ih =>
    rcases h with ⟨hc, hse, hrest⟩
    have hstop : e.stop ≤ c + (p ++ t).length := hrest.le
    simp only [List.length_append] at hstop
    let k := t.take (e.start - (c + p.length))
    let r := (t.take (e.stop - (c + p.length))).drop (e.start - (c + p.length))
    let t' := t.drop (e.stop - (c + p.length))
    have hk : k.length = e.start - (c + p.length) := by simp [k]; omega
    have hr : r.length = e.stop - e.start := by simp [r]; omega
    have ht : t = k ++ r ++ t' := by
      have h1 : t.take (e.stop - (c + p.length)) = k ++ r := by
        have : k = (t.take (e.stop - (c + p.length))).take (e.start - (c + p.length)) := by
          simp [k, List.take_take]; omega
        rw [this, List.take_append_drop]
      rw [← h1, List.take_append_drop]
    have hremoved : (Splice.toChange c (p ++ t) e).removed = r := by
      simp only [Splice.toChange]
      have hp1 : e.stop - c = p.length + (e.stop - (c + p.length)) := by omega
      have hp2 : e.start - c = p.length + (e.start - (c + p.length)) := by omega
      rw [hp1, hp2, List.take_length_add_append, List.drop_length_add_append]
    refine ⟨k, t', _, ?_, rfl, ?_, ?_⟩
    · rw [hremoved]; exact ht
    · simp [Splice.toChange, hk]; omega
    · have hcur : (Splice.toChange c (p ++ t) e).stop = c + (p ++ k ++ r).length := by
        simp only [Change.stop, hremoved, hr]
        simp [Splice.toChange, hk, hr]; omega
      have hst : e.stop = c + (p ++ k ++ r).length := by simp [hk, hr]; omega
      have hfull : p ++ t = (p ++ k ++ r) ++ t' := by rw [ht]; simp
      have hord : Ordered (c + (p ++ k ++ r).length) es (c + (p ++ k ++ r ++ t').length) := by
        rw [← hst, ← hfull]
        exact hrest
      rw [hcur, hfull]
      have hih := ih (p ++ k ++ r) t' hord
      rw [← hst] at hih ⊢
      exact hih

/-- Each change of a patch names the elements the list has there. -/
theorem Patch.removed_eq {c : Nat} {es : List (Change α)} {t u : List α} (h : Patch c es t u)
    {e : Change α} (he : e ∈ es) : e.removed = (t.take (e.stop - c)).drop (e.offset - c) := by
  induction es generalizing c t u with
  | nil => cases he
  | cons first es ih =>
    rcases h with ⟨k, t', u', rfl, rfl, hoff, hrest⟩
    have hcursor : first.stop - c = (k ++ first.removed).length := by
      simp [Change.stop, hoff]; omega
    rcases List.mem_cons.mp he with rfl | he
    · rw [hcursor, List.take_left, show e.offset - c = k.length by omega, List.drop_left]
    · have hplace := hrest.ordered.mem (List.mem_map_of_mem he)
      have hstart : first.stop ≤ e.offset := hplace.1
      have hstop : e.offset ≤ e.stop := hplace.2.1
      have hle : c ≤ first.stop := by
        rw [Change.stop, hoff]
        omega
      rw [ih hrest he, show e.stop - c = (k ++ first.removed).length + (e.stop - first.stop) by omega,
        show e.offset - c = (k ++ first.removed).length + (e.offset - first.stop) by omega,
        List.take_length_add_append, List.drop_length_add_append]

/-- In plain terms: a patch is an ordered batch that names the elements it removes, and the
list after it is the splice. -/
theorem patch_iff {es : List (Change α)} {t u : List α} :
    Patch 0 es t u ↔ Ordered 0 (es.map Change.toSplice) t.length ∧
      (∀ e ∈ es, e.removed = (t.take e.stop).drop e.offset) ∧
      splice (es.map Change.toSplice) t = u := by
  constructor
  · intro h
    refine ⟨?_, fun e he => h.removed_eq he, h.spliceFrom_eq⟩
    have hord := h.ordered
    rwa [Nat.zero_add] at hord
  · rintro ⟨hord, hremoved, rfl⟩
    have h := patch_spliceFrom (c := 0) (t := t) (by rwa [Nat.zero_add])
    have hsame : (es.map Change.toSplice).map (Splice.toChange 0 t) = es := by
      rw [List.map_map]
      apply (List.map_congr_left (g := id) _).trans (List.map_id es)
      intro e he
      show (⟨e.offset, (t.take e.stop).drop e.offset, e.inserted⟩ : Change α) = e
      rw [← hremoved e he]
    rwa [hsame] at h

/-- A batch in two parts patches a text in two parts. -/
theorem Patch.append {c : Nat} {es fs : List (Change α)} {t t' u u' : List α}
    (h : Patch c es t u) (h' : Patch (c + t.length) fs t' u') :
    Patch c (es ++ fs) (t ++ t') (u ++ u') := by
  induction es generalizing c t u with
  | nil =>
    obtain rfl : t = u := h
    exact Patch.prepend t h'
  | cons e es ih =>
    rcases h with ⟨k, s, v, rfl, rfl, hoff, hrest⟩
    have hcursor : c + (k ++ e.removed ++ s).length = e.stop + s.length := by
      simp [Change.stop, hoff]; omega
    rw [hcursor] at h'
    exact ⟨k, s ++ t', v ++ u', by simp, by simp, hoff, ih hrest h'⟩

/-- Elements in front of the first change are the same on both sides, and the cursor may
move past them. -/
theorem Patch.advance {c m : Nat} {es : List (Change α)} {t u : List α} (h : Patch c es t u)
    (hfirst : ∀ e ∈ es.head?, m ≤ e.offset - c) :
    t.take m = u.take m ∧ Patch (c + m) es (t.drop m) (u.drop m) := by
  cases es with
  | nil =>
    obtain rfl : t = u := h
    exact ⟨rfl, rfl⟩
  | cons e es =>
    rcases h with ⟨k, t', u', rfl, rfl, hoff, hrest⟩
    have hm : m ≤ k.length := by
      have := hfirst e rfl
      omega
    simp only [List.append_assoc]
    rw [List.take_append_of_le_length hm, List.take_append_of_le_length hm,
      List.drop_append_of_le_length hm, List.drop_append_of_le_length hm]
    refine ⟨rfl, k.drop m, t', u', by simp, by simp, ?_, hrest⟩
    rw [List.length_drop]
    omega

/-- A change that restores the elements it removes may be left out. -/
theorem Patch.drop_idle {c : Nat} {e : Change α} {es : List (Change α)} {t u : List α}
    (h : Patch c (e :: es) t u) (he : e.removed = e.inserted) : Patch c es t u := by
  obtain ⟨k, t', u', rfl, rfl, hoff, hrest⟩ := h
  rw [← he]
  apply Patch.prepend (k ++ e.removed)
  rwa [List.length_append, ← Nat.add_assoc, ← hoff]

/-! ## §3 Running a patch backwards -/

/-- The changes that undo `es`: removed and inserted elements swap, and every offset moves
to its place in the list after the patch, where the cursor `c` has become `c'`. -/
def inverseFrom : Nat → Nat → List (Change α) → List (Change α)
  | _, _, [] => []
  | c, c', e :: es =>
    let at' := c' + (e.offset - c)
    ⟨at', e.inserted, e.removed⟩ :: inverseFrom e.stop (at' + e.inserted.length) es

/-- Swapping a patch around turns the list after it back into the list before it. -/
theorem Patch.inverse {c c' : Nat} {es : List (Change α)} {t u : List α}
    (h : Patch c es t u) : Patch c' (inverseFrom c c' es) u t := by
  induction es generalizing c c' t u with
  | nil => exact Eq.symm h
  | cons e es ih =>
    rcases h with ⟨k, t', u', rfl, rfl, hoff, hrest⟩
    refine ⟨k, u', t', rfl, rfl, by simp only; omega, ?_⟩
    simpa [Change.stop] using ih hrest

/-! ## §4 Growing an insertion -/

/-- An insertion right behind another one makes both a single insertion. -/
theorem Patch.extend_insertion {p : Nat} {i j t u v : List α}
    (h : Patch 0 [⟨p, [], i⟩] t u) (h' : Patch 0 [⟨p + i.length, [], j⟩] u v) :
    Patch 0 [⟨p, [], i ++ j⟩] t v := by
  obtain ⟨k, t', u', rfl, rfl, hp, rfl⟩ := h
  obtain ⟨k', t'', u'', hu, rfl, hq, rfl⟩ := h'
  simp only [List.append_nil, Nat.zero_add] at *
  obtain ⟨rfl, rfl⟩ := List.append_inj hu (by simp; omega)
  exact ⟨k, t', t', by simp, by simp, by simp [hp], rfl⟩

/-! ## §5 Applying a batch right to left -/

/-- Right to left, one splice at a time: an edit never moves the offsets of the edits
before it, so this is the reference splice. -/
theorem foldr_apply_eq_splice {es : List (Splice α)} {t : List α}
    (h : Ordered 0 es t.length) : es.foldr Splice.apply t = splice es t := by
  suffices hgen : ∀ (p t : List α) (es : List (Splice α)),
      Ordered p.length es (p ++ t).length →
      es.foldr Splice.apply (p ++ t) = p ++ spliceFrom p.length es t by
    simpa [splice] using hgen [] t es (by simpa using h)
  clear h t es
  intro p t es h
  induction es generalizing p t with
  | nil => rfl
  | cons e es ih =>
    rcases h with ⟨hc, hse, hrest⟩
    have hstop : e.stop ≤ p.length + t.length := by simpa using hrest.le
    let q := p ++ t.take (e.stop - p.length)
    have hq : q.length = e.stop := by simp [q]; omega
    have hfull : p ++ t = q ++ t.drop (e.stop - p.length) := by simp [q]
    have hord : Ordered q.length es (q ++ t.drop (e.stop - p.length)).length := by
      rw [← hfull, hq]
      exact hrest
    have hinner : es.foldr Splice.apply (p ++ t) =
        q ++ spliceFrom e.stop es (t.drop (e.stop - p.length)) := by
      have hih := ih q _ hord
      rw [← hfull, hq] at hih
      exact hih
    have htake : (q ++ spliceFrom e.stop es (t.drop (e.stop - p.length))).take e.start =
        p ++ t.take (e.start - p.length) := by
      rw [List.take_append_of_le_length (by omega)]
      simp only [q]
      rw [List.take_append, List.take_of_length_le hc, List.take_take]
      congr 2
      omega
    simp only [List.foldr_cons, hinner, Splice.apply, htake, spliceFrom]
    rw [← hq, List.drop_left]
    simp [hq]

/-- A batch applied right to left keeps what is in front of it, and grows the list by no more
than it inserts. -/
theorem foldr_apply_length {c : Nat} {es : List (Splice α)} {t : List α}
    (h : Ordered c es t.length) : c ≤ (es.foldr Splice.apply t).length ∧
      (es.foldr Splice.apply t).length ≤
        t.length + (es.map fun e => e.insert.length).sum := by
  induction es generalizing c with
  | nil => exact ⟨h, Nat.le_refl _⟩
  | cons e es ih =>
    rcases h with ⟨hc, hse, hrest⟩
    obtain ⟨hlow, hhigh⟩ := ih hrest
    simp only [List.foldr_cons, Splice.apply, List.length_append, List.length_take,
      List.length_drop, List.map_cons, List.sum_cons]
    omega

end BareLine.Lib
