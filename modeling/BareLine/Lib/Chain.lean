import Mathlib

/-!
# Undo chains

A history entry leads from the state before it to the state after it.  `Linked` says that a
list of entries leads from one state to another; `Threaded` says that an undo stack ends in
the present state and a redo stack starts from it.

Both stacks are listed oldest slot first: the last undo entry is undone next, the last redo
entry is redone next, and eviction drops entries at the front.  `Returns` counts how many
redo steps lead back to a given state, and survives eviction.
-/

namespace BareLine.Lib

variable {ε σ : Type*} (before after : ε → σ)

/-! ## §1 Linked entries -/

/-- The entries lead from `s` to `t`, one after the other. -/
def Linked : σ → List ε → σ → Prop
  | s, [], t => s = t
  | s, e :: es, t => before e = s ∧ Linked (after e) es t

variable {before after}

theorem linked_append {s t : σ} {es fs : List ε} :
    Linked before after s (es ++ fs) t ↔
      ∃ m, Linked before after s es m ∧ Linked before after m fs t := by
  induction es generalizing s with
  | nil => exact ⟨fun h => ⟨s, rfl, h⟩, fun ⟨_, hm, h⟩ => by cases hm; exact h⟩
  | cons e es ih =>
    simp only [List.cons_append, Linked, ih]
    exact ⟨fun ⟨he, m, h1, h2⟩ => ⟨m, ⟨he, h1⟩, h2⟩, fun ⟨m, ⟨he, h1⟩, h2⟩ => ⟨he, m, h1, h2⟩⟩

theorem linked_concat {s t : σ} {es : List ε} {e : ε} :
    Linked before after s (es ++ [e]) t ↔
      Linked before after s es (before e) ∧ after e = t := by
  rw [linked_append]
  exact ⟨fun ⟨_, h1, h2, h3⟩ => ⟨h2 ▸ h1, h3⟩, fun ⟨h1, h2⟩ => ⟨_, h1, rfl, h2⟩⟩

/-- What is left of a chain when its first entries are dropped. -/
theorem Linked.drop {s t : σ} {es : List ε} (h : Linked before after s es t) (n : Nat) :
    ∃ s', Linked before after s' (es.drop n) t := by
  rw [← List.take_append_drop n es] at h
  obtain ⟨m, -, h2⟩ := linked_append.mp h
  exact ⟨m, h2⟩

theorem Linked.of_isPrefix {s t : σ} {es fs : List ε} (h : Linked before after s fs t)
    (hp : es <+: fs) : ∃ t', Linked before after s es t' := by
  obtain ⟨rest, rfl⟩ := hp
  obtain ⟨m, h1, -⟩ := linked_append.mp h
  exact ⟨m, h1⟩

/-- A map that keeps both ends of every entry keeps the chain. -/
theorem Linked.map {f : ε → ε} (hb : ∀ e, before (f e) = before e) (ha : ∀ e, after (f e) = after e)
    {s t : σ} {es : List ε} (h : Linked before after s es t) :
    Linked before after s (es.map f) t := by
  induction es generalizing s with
  | nil => exact h
  | cons e es ih => exact ⟨(hb e).trans h.1, (ha e).symm ▸ ih h.2⟩

/-! ## §2 Both stacks around the present -/

variable (before after)

/-- The undo entries lead to `now` and the redo entries, next one first, lead on from it. -/
structure Threaded (us rs : List ε) (now : σ) : Prop where
  past : ∃ s, Linked before after s us now
  future : ∃ t, Linked before after now rs.reverse t

variable {before after}

theorem reverse_drop_isPrefix (es : List ε) (n : Nat) : (es.drop n).reverse <+: es.reverse := by
  refine ⟨(es.take n).reverse, ?_⟩
  rw [← List.reverse_append, List.take_append_drop]

namespace Threaded

variable {us rs : List ε} {now : σ} {e e' : ε}

theorem empty (now : σ) : Threaded before after [] [] now := ⟨⟨now, rfl⟩, ⟨now, rfl⟩⟩

/-- Eviction at the old ends. -/
theorem drop (h : Threaded before after us rs now) (n m : Nat) :
    Threaded before after (us.drop n) (rs.drop m) now := by
  obtain ⟨⟨s, hs⟩, ⟨t, ht⟩⟩ := h
  exact ⟨hs.drop n, ht.of_isPrefix (reverse_drop_isPrefix rs m)⟩

/-- A new entry discards the future. -/
theorem push (h : Threaded before after us rs now) (he : before e = now) :
    Threaded before after (us ++ [e]) [] (after e) := by
  obtain ⟨⟨s, hs⟩, -⟩ := h
  exact ⟨⟨s, linked_concat.mpr ⟨he ▸ hs, rfl⟩⟩, ⟨_, rfl⟩⟩

/-- The last entry is replaced by one that starts in the same state. -/
theorem replace (h : Threaded before after (us ++ [e]) rs now) (he : before e' = before e) :
    Threaded before after (us ++ [e']) [] (after e') := by
  obtain ⟨⟨s, hs⟩, -⟩ := h
  exact ⟨⟨s, linked_concat.mpr ⟨he ▸ (linked_concat.mp hs).1, rfl⟩⟩, ⟨_, rfl⟩⟩

/-- The last undo entry ends in the present. -/
theorem after_last (h : Threaded before after (us ++ [e]) rs now) : after e = now := by
  obtain ⟨⟨s, hs⟩, -⟩ := h
  exact (linked_concat.mp hs).2

/-- The last redo entry starts in the present. -/
theorem before_last (h : Threaded before after us (rs ++ [e]) now) : before e = now := by
  obtain ⟨-, ⟨t, ht⟩⟩ := h
  rw [List.reverse_append] at ht
  exact ht.1

theorem undo (h : Threaded before after (us ++ [e]) rs now) (e' : ε) (hb : before e' = before e)
    (ha : after e' = after e) : Threaded before after us (rs ++ [e']) (before e) := by
  have hnow := h.after_last
  obtain ⟨⟨s, hs⟩, ⟨t, ht⟩⟩ := h
  refine ⟨⟨s, (linked_concat.mp hs).1⟩, ⟨t, ?_⟩⟩
  rw [List.reverse_append]
  exact ⟨hb, by rw [ha, hnow]; exact ht⟩

theorem redo (h : Threaded before after us (rs ++ [e]) now) (e' : ε) (hb : before e' = before e)
    (ha : after e' = after e) : Threaded before after (us ++ [e']) rs (after e) := by
  have hnow := h.before_last
  obtain ⟨⟨s, hs⟩, ⟨t, ht⟩⟩ := h
  rw [List.reverse_append] at ht
  exact ⟨⟨s, linked_concat.mpr ⟨by rw [hb, hnow]; exact hs, ha⟩⟩, ⟨t, ht.2⟩⟩

/-- Entries may change in everything but their two ends. -/
theorem map {f : ε → ε} (hb : ∀ e, before (f e) = before e) (ha : ∀ e, after (f e) = after e)
    (h : Threaded before after us rs now) :
    Threaded before after (us.map f) (rs.map f) now := by
  obtain ⟨⟨s, hs⟩, ⟨t, ht⟩⟩ := h
  refine ⟨⟨s, hs.map hb ha⟩, ⟨t, ?_⟩⟩
  rw [← List.map_reverse]
  exact ht.map hb ha

/-- The last entry may change in everything but its two ends. -/
theorem relabel (h : Threaded before after (us ++ [e]) rs now) (hb : before e' = before e)
    (ha : after e' = after e) : Threaded before after (us ++ [e']) rs now := by
  obtain ⟨⟨s, hs⟩, hfuture⟩ := h
  rw [linked_concat, ← hb, ← ha] at hs
  exact ⟨⟨s, linked_concat.mpr hs⟩, hfuture⟩

end Threaded

/-! ## §3 Redoing what was undone -/

variable (before after)

/-- While the redo stack holds out, its next `k` steps lead from `now` to `origin`. -/
def Returns (rs : List ε) (now : σ) (k : Nat) (origin : σ) : Prop :=
  ∃ next rest : List ε, rs.reverse <+: next ++ rest ∧ next.length = k ∧
    Linked before after now next origin

variable {before after}

namespace Returns

variable {rs rs' : List ε} {now origin : σ} {k : Nat} {e : ε}

theorem zero (rs : List ε) (now : σ) : Returns before after rs now 0 now :=
  ⟨[], rs.reverse, List.prefix_refl _, rfl, rfl⟩

theorem eq_of_zero (h : Returns before after rs now 0 origin) : now = origin := by
  obtain ⟨next, rest, -, hlen, hlink⟩ := h
  obtain rfl := List.length_eq_zero_iff.mp hlen
  exact hlink

/-- Eviction drops only the furthest steps. -/
theorem drop (h : Returns before after rs now k origin) (n : Nat) :
    Returns before after (rs.drop n) now k origin := by
  obtain ⟨next, rest, hp, hlen, hlink⟩ := h
  exact ⟨next, rest, (reverse_drop_isPrefix rs n).trans hp, hlen, hlink⟩

/-- An undo step adds one step to the way back. -/
theorem undo (h : Returns before after rs now k origin) (ha : after e = now) :
    Returns before after (rs ++ [e]) (before e) (k + 1) origin := by
  obtain ⟨next, rest, hp, hlen, hlink⟩ := h
  refine ⟨e :: next, rest, ?_, by simp [hlen], rfl, ha ▸ hlink⟩
  rw [List.reverse_append]
  exact (List.prefix_append_right_inj [e]).mpr hp

/-- A redo step takes one step of it. -/
theorem redo (h : Returns before after (rs ++ [e]) now (k + 1) origin) :
    Returns before after rs (after e) k origin := by
  obtain ⟨next, rest, hp, hlen, hlink⟩ := h
  cases next with
  | nil => cases hlen
  | cons e' next =>
    rw [List.reverse_append] at hp
    obtain ⟨rfl, hp'⟩ := List.cons_prefix_cons.mp hp
    exact ⟨next, rest, hp', Nat.succ.inj hlen, hlink.2⟩

end Returns

end BareLine.Lib
