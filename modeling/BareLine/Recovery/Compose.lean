import BareLine.Recovery.Types

/-!
# Composing recovery edits

`compose_edits` folds a transaction over the text a batch produces into the batch, so one
journal record can stand for several transactions.
-/

namespace BareLine

open Lib

/-! ## §1 The code -/

/-- `produced`: where the entry's inserted text starts in the produced text, its original
offset moved by the length change of the batch edits before it. -/
def produced (entry : RecoveryEdit) (shift : Int) : Except IoError Nat :=
  match u64TryFrom (entry.offset + shift) with
  | some position => .ok position
  | none => .error (invalid "recovery edit outside source")

/-- `delta` -/
def delta (entry : RecoveryEdit) : Int := (entry.inserted.length : Int) - entry.removed.length

/-- The first loop of `compose_edit`: the batch edits wholly before `start`, the others, and
the shift between them. -/
def splitBefore (start : Nat) : List RecoveryEdit → Int →
    Except IoError (List RecoveryEdit × List RecoveryEdit × Int)
  | [], shift => .ok ([], [], shift)
  | earlier :: rest, shift => do
    let position ← produced earlier shift
    if wrappingAdd position earlier.inserted.length ≥ start then
      .ok ([], earlier :: rest, shift)
    else
      let (before, rest, shift) ← splitBefore start rest (shift + delta earlier)
      .ok (earlier :: before, rest, shift)

/-- The second loop: the batch edits that start at or before `stop`, each with its position
in the produced text, and the others. -/
def splitTouched (stop : Nat) : List RecoveryEdit → Int →
    Except IoError (List (RecoveryEdit × Nat) × List RecoveryEdit)
  | [], _ => .ok ([], [])
  | next :: rest, shift => do
    let position ← produced next shift
    if position > stop then .ok ([], next :: rest)
    else
      let (touched, after) ← splitTouched stop rest (shift + delta next)
      .ok ((next, position) :: touched, after)

/-- `removed_between`: the bytes `edit` removes from text offsets `from..to`. -/
def removedBetween (edit : RecoveryEdit) (r : Range) : Except IoError Bytes :=
  if edit.offset ≤ r.start ∧ r.start ≤ r.stop ∧ r.stop - edit.offset ≤ edit.removed.length then
    .ok ((⟨r.start - edit.offset, r.stop - edit.offset⟩ : Range).of edit.removed)
  else .error (invalid "recovery edit outside source")

/-- `removed_between` where the caller asks only for a nonempty range. -/
def removedWithin (edit : RecoveryEdit) (r : Range) : Except IoError Bytes :=
  if r.start < r.stop then removedBetween edit r else .ok []

/-- The third loop: original bytes the merged edit removes, from `cursor` on. -/
def mergedRemoved (edit : RecoveryEdit) : Nat → List (RecoveryEdit × Nat) → Except IoError Bytes
  | cursor, [] => removedWithin edit ⟨cursor, edit.stop⟩
  | cursor, (entry, position) :: rest => do
    let entryEnd := wrappingAdd position entry.inserted.length
    let gap ← removedWithin edit ⟨cursor, position⟩
    -- Text the new edit removes from this batch edit's insertion must be that text.
    let overlap : Range := ⟨max position edit.offset, min entryEnd edit.stop⟩
    let seen ← removedWithin edit overlap
    if seen ≠ (⟨overlap.start - position, overlap.stop - position⟩ : Range).of entry.inserted then
      .error (invalid "recovery edit removes text it did not see")
    else
      let tail ← mergedRemoved edit (max cursor entryEnd) rest
      .ok (gap ++ entry.removed ++ tail)

/-- The merged edit's offset: the head's, or the new edit's where that starts first. -/
def mergedOffset (edit head : RecoveryEdit) (headAt : Nat) : Except IoError Nat :=
  if edit.offset < headAt then
    if headAt - edit.offset ≤ head.offset then .ok (head.offset - (headAt - edit.offset))
    else .error (invalid "recovery edit outside source")
  else .ok head.offset

/-- `compose_edit`: fold one edit at an offset in the text `batch` produces into `batch`.
`compose_edits` has checked that the edit's end fits in `u64`. -/
def composeEdit (batch : List RecoveryEdit) (edit : RecoveryEdit) :
    Except IoError (List RecoveryEdit) :=
  if edit.removed = edit.inserted then .ok batch
  else do
    let (before, rest, shift) ← splitBefore edit.offset batch 0
    let (touched, after) ← splitTouched edit.stop rest shift
    match touched with
    | [] =>
      -- Only original text: the edit keeps its bytes at its original offset.
      match u64TryFrom (edit.offset - shift) with
      | some offset => .ok (before ++ { edit with offset } :: after)
      | none => .error (invalid "recovery edit outside source")
    | (head, headAt) :: more =>
      let (tail, tailAt) := ((head, headAt) :: more).getLast (List.cons_ne_nil _ _)
      let tailEnd := wrappingAdd tailAt tail.inserted.length
      let removed ← mergedRemoved edit edit.offset ((head, headAt) :: more)
      let kept := if headAt < edit.offset then head.inserted.take (edit.offset - headAt) else []
      let left := if tailEnd > edit.stop then tail.inserted.drop (edit.stop - tailAt) else []
      let inserted := kept ++ edit.inserted ++ left
      let offset ← mergedOffset edit head headAt
      -- A batch that restored the original text there needs no edit at all.
      if removed = inserted then .ok (before ++ after)
      else .ok (before ++ ⟨offset, removed, inserted⟩ :: after)

/-- One round of the loop in `compose_edits`, over the composed batch and the offset of the
edit that follows. -/
def composeRound (state : List RecoveryEdit × Nat) (edit : RecoveryEdit) :
    Except IoError (List RecoveryEdit × Nat) := do
  let (composed, following) := state
  match checkedAdd edit.offset edit.removed.length with
  | none => .error (invalid "recovery edit overflow")
  | some stop =>
    if stop > following then .error (invalid "overlapping recovery edits")
    else
      let composed ← composeEdit composed edit
      .ok (composed, edit.offset)

/-- `compose_edits`: the result, and the batch the caller is left with.  Last edit first: an
edit never moves the offsets of the edits before it. -/
def composeEdits (batch next : List RecoveryEdit) : Except IoError Unit × List RecoveryEdit :=
  match next.reverse.foldlM composeRound (batch, u64Max) with
  | .ok (composed, _) => (.ok (), composed)
  | .error error => (.error error, batch)

/-! ## §2 Where the loops stop -/

variable {c d start stop : Nat} {es : List RecoveryEdit} {t u : Bytes}

theorem produced_eq {entry : RecoveryEdit} {position : Nat} {shift : Int}
    (h : (entry.offset : Int) + shift = position) (hle : position ≤ u64Max) :
    produced entry shift = .ok position := by
  rw [produced, h, u64TryFrom_natCast hle]

/-- The loop over the edits wholly before `start`: it cuts both texts right behind the last
insertion it passes, and the next one reaches `start`. -/
theorem splitBefore_spec (h : Patch c es t u) (hd : d ≤ start)
    (hu : d + u.length ≤ u64Max) :
    ∃ before rest t₁ t₂ u₁ u₂,
      splitBefore start es ((d : Int) - c) =
        .ok (before, rest, ((d + u₁.length : Nat) : Int) - (c + t₁.length : Nat)) ∧
      t = t₁ ++ t₂ ∧ u = u₁ ++ u₂ ∧ Patch c before t₁ u₁ ∧
      Patch (c + t₁.length) rest t₂ u₂ ∧ d + u₁.length ≤ start ∧
      ∀ e ∈ rest.head?,
        start + (c + t₁.length) ≤ e.offset + (d + u₁.length) + e.inserted.length := by
  induction es generalizing c d t u with
  | nil => exact ⟨[], [], [], t, [], u, by simp [splitBefore], rfl, rfl, rfl, h, hd, by simp⟩
  | cons e es ih =>
    rcases h with ⟨k, t', u', rfl, rfl, hoff, hrest⟩
    simp only [List.length_append] at hu
    have hpos : produced e ((d : Int) - c) = .ok (d + k.length) :=
      produced_eq (by omega) (by omega)
    have hend : wrappingAdd (d + k.length) e.inserted.length =
        d + k.length + e.inserted.length := wrappingAdd_eq (by omega)
    by_cases hreach : d + k.length + e.inserted.length ≥ start
    · refine ⟨[], e :: es, [], _, [], _, ?_, rfl, rfl, rfl, ⟨k, t', u', rfl, rfl, hoff, hrest⟩,
        hd, ?_⟩
      · show (do let position ← produced e ((d : Int) - c); _) = _
        rw [hpos]
        show (if wrappingAdd (d + k.length) e.inserted.length ≥ start then _ else _) = _
        rw [hend, if_pos hreach]
        rfl
      · intro e' he'
        obtain rfl := Option.some.inj he'
        show start + (c + 0) ≤ e.offset + (d + 0) + e.inserted.length
        omega
    · -- The edit stays in front: both cursors move past it.
      have hshift : (d : Int) - c + delta e =
          ((d + k.length + e.inserted.length : Nat) : Int) - e.stop := by
        simp only [delta, Change.stop, hoff]
        omega
      obtain ⟨before, rest, t₁, t₂, u₁, u₂, hsplit, rfl, rfl, hbefore, hafter, hle, hhead⟩ :=
        ih (d := d + k.length + e.inserted.length) hrest (by omega) (by omega)
      have hc : c + (k ++ e.removed ++ t₁).length = e.stop + t₁.length := by
        simp [Change.stop, hoff]; omega
      have hd' : d + (k ++ e.inserted ++ u₁).length =
          d + k.length + e.inserted.length + u₁.length := by
        simp; omega
      refine ⟨e :: before, rest, k ++ e.removed ++ t₁, t₂, k ++ e.inserted ++ u₁, u₂, ?_,
        by simp, by simp, ⟨k, t₁, u₁, rfl, rfl, hoff, hbefore⟩, ?_, ?_, ?_⟩
      · show (do let position ← produced e ((d : Int) - c); _) = _
        rw [hpos]
        show (if wrappingAdd (d + k.length) e.inserted.length ≥ start then _ else _) = _
        rw [hend, if_neg hreach, hshift, hsplit, hc, hd']
        rfl
      · rw [hc]; exact hafter
      · rw [hd']; exact hle
      · rw [hc, hd']; exact hhead

/-- `Placed c d es t u`: the edits `es`, each with its position in the produced text, turn
`t` into `u`, and the last of them ends both. -/
def Placed : Nat → Nat → List (RecoveryEdit × Nat) → Bytes → Bytes → Prop
  | _, _, [], t, u => t = [] ∧ u = []
  | c, d, (e, position) :: es, t, u => ∃ k t' u', t = k ++ e.removed ++ t' ∧
      u = k ++ e.inserted ++ u' ∧ e.offset = c + k.length ∧ position = d + k.length ∧
      Placed e.stop (position + e.inserted.length) es t' u'

/-- The loop over the touched edits: it stops in front of the first edit past `stop`. -/
theorem splitTouched_spec (stop : Nat) (h : Patch c es t u) (hu : d + u.length ≤ u64Max) :
    ∃ touched after t₁ t₂ u₁ u₂,
      splitTouched stop es ((d : Int) - c) = .ok (touched, after) ∧
      es = touched.map Prod.fst ++ after ∧ t = t₁ ++ t₂ ∧ u = u₁ ++ u₂ ∧
      Placed c d touched t₁ u₁ ∧ (∀ e ∈ touched, e.2 ≤ stop) ∧
      Patch (c + t₁.length) after t₂ u₂ ∧
      ∀ e ∈ after.head?, stop + (c + t₁.length) < e.offset + (d + u₁.length) := by
  induction es generalizing c d t u with
  | nil =>
    exact ⟨[], [], [], t, [], u, rfl, rfl, rfl, rfl, ⟨rfl, rfl⟩, by simp, h, by simp⟩
  | cons e es ih =>
    rcases h with ⟨k, t', u', rfl, rfl, hoff, hrest⟩
    simp only [List.length_append] at hu
    have hpos : produced e ((d : Int) - c) = .ok (d + k.length) :=
      produced_eq (by omega) (by omega)
    by_cases hpast : d + k.length > stop
    · refine ⟨[], e :: es, [], _, [], _, ?_, rfl, rfl, rfl, ⟨rfl, rfl⟩, by simp,
        ⟨k, t', u', rfl, rfl, hoff, hrest⟩, ?_⟩
      · show (do let position ← produced e ((d : Int) - c); _) = _
        rw [hpos]
        show (if d + k.length > stop then _ else _) = _
        rw [if_pos hpast]
      · intro e' he'
        obtain rfl := Option.some.inj he'
        show stop + (c + 0) < e.offset + (d + 0)
        omega
    · have hshift : (d : Int) - c + delta e =
          ((d + k.length + e.inserted.length : Nat) : Int) - e.stop := by
        simp only [delta, Change.stop, hoff]
        omega
      obtain ⟨touched, after, t₁, t₂, u₁, u₂, hsplit, rfl, rfl, rfl, hplaced, hle, hafter,
        hhead⟩ := ih (d := d + k.length + e.inserted.length) hrest (by omega)
      have hc : c + (k ++ e.removed ++ t₁).length = e.stop + t₁.length := by
        simp [Change.stop, hoff]; omega
      have hd' : d + (k ++ e.inserted ++ u₁).length =
          d + k.length + e.inserted.length + u₁.length := by
        simp; omega
      refine ⟨(e, d + k.length) :: touched, after, k ++ e.removed ++ t₁, t₂,
        k ++ e.inserted ++ u₁, u₂, ?_, rfl, by simp, by simp,
        ⟨k, t₁, u₁, rfl, rfl, hoff, rfl, hplaced⟩, ?_, ?_, ?_⟩
      · show (do let position ← produced e ((d : Int) - c); _) = _
        rw [hpos]
        show (if d + k.length > stop then _ else _) = _
        rw [if_neg hpast, hshift, hsplit]
        rfl
      · intro e' he'
        rcases List.mem_cons.mp he' with rfl | he'
        · exact Nat.le_of_not_lt hpast
        · exact hle e' he'
      · rw [hc]; exact hafter
      · rw [hc, hd']; exact hhead

/-! ## §3 What the merged edit removes -/

variable {edit : RecoveryEdit} {text : Bytes}

/-- The edit removes exactly the bytes of `text` at its offset. -/
def Sees (edit : RecoveryEdit) (text : Bytes) : Prop :=
  edit.stop ≤ text.length ∧ edit.removed = (⟨edit.offset, edit.stop⟩ : Range).of text

theorem removedBetween_ok (h : Sees edit text) {a b : Nat} (ha : edit.offset ≤ a)
    (hab : a ≤ b) (hb : b ≤ edit.stop) :
    removedBetween edit ⟨a, b⟩ = .ok ((⟨a, b⟩ : Range).of text) := by
  have hlen : b - edit.offset ≤ edit.removed.length := by
    have : edit.stop = edit.offset + edit.removed.length := rfl
    omega
  rw [removedBetween, if_pos ⟨ha, hab, hlen⟩]
  show Except.ok ((⟨a - edit.offset, b - edit.offset⟩ : Range).of edit.removed) = _
  rw [h.2, Range.of_of (by omega), Nat.add_sub_cancel' ha,
    Nat.add_sub_cancel' (Nat.le_trans ha hab)]

theorem removedWithin_ok (h : Sees edit text) {a b : Nat} (ha : edit.offset ≤ a)
    (hb : b ≤ edit.stop) : removedWithin edit ⟨a, b⟩ = .ok ((⟨a, b⟩ : Range).of text) := by
  rw [removedWithin]
  split
  · next hab => exact removedBetween_ok h ha (Nat.le_of_lt hab) hb
  · next hab =>
    have hle : b ≤ a := Nat.le_of_not_lt hab
    rw [Range.of_eq_nil (Nat.le_trans (Nat.min_le_left b text.length) hle)]

/-- One touched edit: the gap in front of it, then its own removed bytes. -/
theorem mergedRemoved_cons (h : Sees edit text) {e : RecoveryEdit} {p q : Bytes} {cursor : Nat}
    (htext : text = p ++ e.inserted ++ q) (hbound : text.length ≤ u64Max)
    (hcursor : edit.offset ≤ cursor) (hpos : p.length ≤ edit.stop)
    (es : List (RecoveryEdit × Nat)) :
    mergedRemoved edit cursor ((e, p.length) :: es) =
      (mergedRemoved edit (max cursor (p.length + e.inserted.length)) es).map
        ((⟨cursor, p.length⟩ : Range).of text ++ e.removed ++ ·) := by
  have hlen : p.length + e.inserted.length ≤ text.length := by
    rw [htext]; simp
  have hend : wrappingAdd p.length e.inserted.length = p.length + e.inserted.length :=
    wrappingAdd_eq (Nat.le_trans hlen hbound)
  have hgap := removedWithin_ok h hcursor hpos
  have hover := removedWithin_ok h (Nat.le_max_right p.length edit.offset)
    (Nat.min_le_right (p.length + e.inserted.length) edit.stop)
  -- The batch wrote the text the edit removes there.
  have hseen : (⟨max p.length edit.offset, min (p.length + e.inserted.length) edit.stop⟩ :
        Range).of text =
      (⟨max p.length edit.offset - p.length,
        min (p.length + e.inserted.length) edit.stop - p.length⟩ : Range).of e.inserted := by
    have hsplit := @Range.of_append_right p (e.inserted ++ q)
      (max p.length edit.offset - p.length)
      (min (p.length + e.inserted.length) edit.stop - p.length)
    rw [← List.append_assoc, ← htext, Nat.add_sub_cancel' (Nat.le_max_left _ _),
      Nat.add_sub_cancel' (Nat.le_min.mpr ⟨Nat.le_add_right _ _, hpos⟩)] at hsplit
    rw [hsplit, Range.of_append, Range.of_eq_nil (t := q) (by simp only; omega),
      List.append_nil]
  simp only [mergedRemoved, hend, hgap, hover, bind, Except.bind]
  rw [if_neg (not_not.mpr hseen)]
  cases mergedRemoved edit (max cursor (p.length + e.inserted.length)) es <;> rfl

/-- The loop from a cursor at the end of the last insertion it passed. -/
theorem mergedRemoved_spec (h : Sees edit text) (hbound : text.length ≤ u64Max)
    {es : List (RecoveryEdit × Nat)} {p q : Bytes} (hplaced : Placed c p.length es t u)
    (htext : text = p ++ u ++ q) (hcursor : edit.offset ≤ p.length)
    (hle : ∀ e ∈ es, e.2 ≤ edit.stop) :
    mergedRemoved edit p.length es =
      .ok (t ++ (⟨(p ++ u).length, edit.stop⟩ : Range).of text) := by
  induction es generalizing c p t u with
  | nil =>
    obtain ⟨rfl, rfl⟩ := hplaced
    rw [mergedRemoved, removedWithin_ok h hcursor (Nat.le_refl _)]
    simp
  | cons e es ih =>
    obtain ⟨e, position⟩ := e
    obtain ⟨k, t', u', rfl, rfl, hoff, hpos, hrest⟩ := hplaced
    have hstep := mergedRemoved_cons h (e := e) (p := p ++ k) (q := u' ++ q)
      (by rw [htext]; simp) hbound hcursor
      (by simpa [← hpos] using hle _ List.mem_cons_self) es
    have hplen : position = (p ++ k).length := by simp [hpos]
    have hmax : max p.length ((p ++ k).length + e.inserted.length) =
        (p ++ k ++ e.inserted).length := by simp; omega
    have hgap : (⟨p.length, (p ++ k).length⟩ : Range).of text = k := by
      have hsplit := @Range.of_append_right p (k ++ (e.inserted ++ u' ++ q)) 0 k.length
      rw [show text = p ++ (k ++ (e.inserted ++ u' ++ q)) by rw [htext]; simp,
        List.length_append]
      rw [Nat.add_zero] at hsplit
      rw [hsplit, Range.of_append, Range.of_all (Nat.le_refl _), Range.of_eq_nil (by simp),
        List.append_nil]
    have hih := ih (p := p ++ k ++ e.inserted) (by rwa [List.length_append, ← hplen])
      (by rw [htext]; simp) (by simp; omega) fun e' he' => hle e' (List.mem_cons_of_mem _ he')
    rw [hplen, hstep, hmax, hih, hgap]
    simp [Except.map]

/-! ## §4 One edit -/

/-- The last placed edit ends the produced text. -/
theorem Placed.last {es : List (RecoveryEdit × Nat)} (h : Placed c d es t u) (hne : es ≠ []) :
    ∃ y, u = y ++ (es.getLast hne).1.inserted ∧ (es.getLast hne).2 = d + y.length := by
  induction es generalizing c d t u with
  | nil => exact absurd rfl hne
  | cons e es ih =>
    obtain ⟨e, position⟩ := e
    obtain ⟨k, t', u', rfl, rfl, -, rfl, hrest⟩ := h
    cases es with
    | nil =>
      obtain ⟨-, rfl⟩ := hrest
      exact ⟨k, by simp, rfl⟩
    | cons e' es =>
      obtain ⟨y, rfl, hat⟩ := ih hrest (List.cons_ne_nil _ _)
      refine ⟨k ++ e.inserted ++ y, ?_, ?_⟩
      · rw [List.getLast_cons (List.cons_ne_nil _ _)]
        simp
      · rw [List.getLast_cons (List.cons_ne_nil _ _), hat]
        simp
        omega

/-- Between the batch edits: the edit keeps its bytes at its original offset. -/
theorem between_patch (h : Patch c es t u) (hstart : d ≤ edit.offset)
    (hsees : edit.removed = (⟨edit.offset - d, edit.stop - d⟩ : Range).of u)
    (hstop : edit.stop ≤ d + u.length)
    (hafter : ∀ e ∈ es.head?, edit.stop + c < e.offset + d) :
    Patch c (⟨c + (edit.offset - d), edit.removed, edit.inserted⟩ :: es) t
      (u.take (edit.offset - d) ++ edit.inserted ++ u.drop (edit.stop - d)) := by
  have hlen : edit.stop = edit.offset + edit.removed.length := rfl
  obtain ⟨htake, hrest⟩ := h.advance (m := edit.stop - d) fun e he => by
    have := hafter e he
    omega
  refine ⟨u.take (edit.offset - d), t.drop (edit.stop - d), u.drop (edit.stop - d), ?_, rfl,
    ?_, ?_⟩
  · have hcut : u.take (edit.offset - d) ++ edit.removed = t.take (edit.stop - d) := by
      have hmin : u.take (edit.offset - d) =
          (u.take (edit.stop - d)).take (edit.offset - d) := by
        rw [List.take_take, Nat.min_eq_left (by omega)]
      rw [hsees, htake, Range.of, hmin, List.take_append_drop]
    rw [hcut, List.take_append_drop]
  · show c + (edit.offset - d) = c + (u.take (edit.offset - d)).length
    rw [List.length_take, Nat.min_eq_left (by omega)]
  · show Patch (c + (edit.offset - d) + edit.removed.length) es _ _
    rwa [show c + (edit.offset - d) + edit.removed.length = c + (edit.stop - d) by omega]

variable {p t₁ t₂ u₁ u₂ : Bytes} {head : RecoveryEdit} {headAt : Nat}
  {more : List (RecoveryEdit × Nat)} {after : List RecoveryEdit}

/-- What the third loop collects over the touched edits. -/
theorem mergedRemoved_touched (hplaced : Placed c p.length ((head, headAt) :: more) t₁ u₁)
    (h : Sees edit (p ++ (u₁ ++ u₂))) (hbound : (p ++ (u₁ ++ u₂)).length ≤ u64Max)
    (hstart : p.length ≤ edit.offset) (hreach : edit.offset ≤ headAt + head.inserted.length)
    (hle : ∀ e ∈ (head, headAt) :: more, e.2 ≤ edit.stop) :
    mergedRemoved edit edit.offset ((head, headAt) :: more) =
      .ok (t₁.drop (min (edit.offset - p.length) (headAt - p.length)) ++
        u₂.take (edit.stop - (p ++ u₁).length)) := by
  obtain ⟨k, t', u', rfl, rfl, -, rfl, hrest⟩ := hplaced
  have hat : p.length + k.length = (p ++ k).length := (List.length_append).symm
  have htext : p ++ (k ++ head.inserted ++ u' ++ u₂) =
      p ++ k ++ head.inserted ++ (u' ++ u₂) := by simp
  have hstep := mergedRemoved_cons h htext hbound (Nat.le_refl _)
    (by rw [← hat]; exact hle _ List.mem_cons_self) more
  have hmax : max edit.offset ((p ++ k).length + head.inserted.length) =
      (p ++ k ++ head.inserted).length := by
    have hsplit : (p ++ k ++ head.inserted).length = (p ++ k).length + head.inserted.length :=
      List.length_append
    rw [hsplit, ← hat]
    exact Nat.max_eq_right hreach
  have hrestSpec := mergedRemoved_spec h hbound
    (by rwa [List.length_append, ← hat] : Placed _ (p ++ k ++ head.inserted).length _ _ _)
    (q := u₂) (by simp) (by rw [List.length_append, ← hat]; exact hreach)
    fun e he => hle e (List.mem_cons_of_mem _ he)
  have hgap : (⟨edit.offset, (p ++ k).length⟩ : Range).of (p ++ (k ++ head.inserted ++ u' ++ u₂)) =
      k.drop (edit.offset - p.length) := by
    rw [show p ++ (k ++ head.inserted ++ u' ++ u₂) =
      p ++ k ++ (head.inserted ++ u' ++ u₂) by simp]
    exact Range.of_middle hstart
  have htail : (⟨(p ++ k ++ head.inserted ++ u').length, edit.stop⟩ : Range).of
      (p ++ (k ++ head.inserted ++ u' ++ u₂)) =
      u₂.take (edit.stop - (p ++ (k ++ head.inserted ++ u')).length) := by
    rw [show p ++ (k ++ head.inserted ++ u' ++ u₂) =
      p ++ k ++ head.inserted ++ u' ++ u₂ by simp, Range.of_tail]
    simp
  have hkept : (k ++ head.removed ++ t').drop
      (min (edit.offset - p.length) (p.length + k.length - p.length)) =
      k.drop (edit.offset - p.length) ++ head.removed ++ t' := by
    rw [Nat.add_sub_cancel_left, List.append_assoc,
      List.drop_append_of_le_length (Nat.min_le_right _ _), List.append_assoc]
    congr 1
    rcases Nat.le_total (edit.offset - p.length) k.length with hk | hk
    · rw [Nat.min_eq_left hk]
    · rw [Nat.min_eq_right hk, List.drop_length, List.drop_of_length_le hk]
  rw [hat] at *
  rw [hstep, hmax, hrestSpec, hgap, htail, hkept]
  simp [Except.map]

/-- The merged edit in the place of the touched ones, between what stays around it. -/
theorem merged_patch (hplaced : Placed c p.length ((head, headAt) :: more) t₁ u₁)
    (hafter : Patch (c + t₁.length) after t₂ u₂)
    (hpast : ∀ e ∈ after.head?, edit.stop + (c + t₁.length) < e.offset + (p.length + u₁.length))
    (hstop : edit.stop ≤ p.length + u₁.length + u₂.length)
    (hstart : p.length ≤ edit.offset) (hreach : edit.offset ≤ headAt + head.inserted.length)
    {tail : RecoveryEdit} {tailAt : Nat}
    (htail : ((head, headAt) :: more).getLast (List.cons_ne_nil _ _) = (tail, tailAt))
    (hle : tailAt ≤ edit.stop) :
    ∃ offset, mergedOffset edit head headAt = .ok offset ∧
      Patch c (⟨offset, t₁.drop (min (edit.offset - p.length) (headAt - p.length)) ++
            u₂.take (edit.stop - (p ++ u₁).length),
          head.inserted.take (edit.offset - headAt) ++ edit.inserted ++
            tail.inserted.drop (edit.stop - tailAt)⟩ :: after) (t₁ ++ t₂)
        ((u₁ ++ u₂).take (edit.offset - p.length) ++ edit.inserted ++
          (u₁ ++ u₂).drop (edit.stop - p.length)) := by
  obtain ⟨y, hy, hyat⟩ : ∃ y, u₁ = y ++ tail.inserted ∧ tailAt = p.length + y.length := by
    have hlast := hplaced.last (List.cons_ne_nil _ _)
    rwa [htail] at hlast
  obtain ⟨k, t', u', rfl, hu₁, hoff, rfl, -⟩ := hplaced
  have hulen := congrArg List.length hu₁
  have hylen := congrArg List.length hy
  simp only [List.length_append] at hulen hylen
  simp only [List.length_append] at hafter hpast
  obtain ⟨htake, hrest⟩ := hafter.advance (m := edit.stop - (p.length + u₁.length)) fun e he => by
    have := hpast e he
    omega
  -- The bytes that stay in front of the merged edit are those in front of the new one.
  have hfront : k.take (edit.offset - p.length) ++
        head.inserted.take (edit.offset - (p.length + k.length)) =
      (u₁ ++ u₂).take (edit.offset - p.length) := by
    rw [hu₁, List.append_assoc, List.append_assoc k, List.take_append,
      List.take_append_of_le_length (by omega)]
    rw [show edit.offset - (p.length + k.length) = edit.offset - p.length - k.length by omega]
  have hback : tail.inserted.drop (edit.stop - tailAt) ++
        u₂.drop (edit.stop - (p.length + u₁.length)) =
      (u₁ ++ u₂).drop (edit.stop - p.length) := by
    rw [show edit.stop - (p.length + u₁.length) =
        edit.stop - p.length - y.length - tail.inserted.length by omega,
      show edit.stop - tailAt = edit.stop - p.length - y.length by omega, hy, List.append_assoc,
      List.drop_append, List.drop_of_length_le (l := y) (by omega), List.nil_append,
      List.drop_append]
  have hkept : (k.take (edit.offset - p.length)).length =
      min (edit.offset - p.length) (p.length + k.length - p.length) := by
    rw [List.length_take, Nat.add_sub_cancel_left]
  have hsplit : k.take (edit.offset - p.length) ++ (k ++ head.removed ++ t').drop
      (min (edit.offset - p.length) (p.length + k.length - p.length)) =
      k ++ head.removed ++ t' := by
    rw [← hkept, List.append_assoc k, List.drop_append_of_le_length
      (List.length_take_le' _ k), ← List.append_assoc]
    congr 1
    rw [List.length_take]
    rcases Nat.le_total (edit.offset - p.length) k.length with hk | hk
    · rw [Nat.min_eq_left hk, List.take_append_drop]
    · rw [Nat.min_eq_right hk, List.take_of_length_le hk, List.drop_length, List.append_nil]
  have hoffset : mergedOffset edit head (p.length + k.length) =
      .ok (c + (k.take (edit.offset - p.length)).length) := by
    rw [mergedOffset, List.length_take]
    split
    · next hlt =>
      rw [if_pos (by omega)]
      congr 1
      omega
    · next hge =>
      congr 1
      omega
  refine ⟨_, hoffset, k.take (edit.offset - p.length),
    t₂.drop (edit.stop - (p.length + u₁.length)), u₂.drop (edit.stop - (p.length + u₁.length)),
    ?_, ?_, rfl, ?_⟩
  · show _ = _ ++ (_ ++ _) ++ _
    rw [← List.append_assoc, hsplit, List.length_append, ← htake, List.append_assoc _ _ (t₂.drop _),
      List.take_append_drop]
  · show _ = _ ++ (_ ++ _ ++ _) ++ _
    rw [← hfront, ← hback]
    simp only [List.append_assoc]
  · have hremoved := congrArg List.length hsplit
    simp only [List.length_append] at hremoved
    have hm : (u₂.take (edit.stop - (p ++ u₁).length)).length =
        edit.stop - (p.length + u₁.length) := by
      simp only [List.length_take, List.length_append]
      omega
    have hcursor : c + (k.take (edit.offset - p.length)).length +
        ((k ++ head.removed ++ t').drop
            (min (edit.offset - p.length) (p.length + k.length - p.length)) ++
          u₂.take (edit.stop - (p ++ u₁).length)).length =
        c + (k.length + head.removed.length + t'.length) +
          (edit.stop - (p.length + u₁.length)) := by
      rw [List.length_append, hm]
      omega
    show Patch (_ + _) after _ _
    rw [hcursor]
    exact hrest

/-- The last of the touched edits starts at or before the end of the new edit. -/
theorem getLast_touched {e : RecoveryEdit × Nat}
    (hle : ∀ x ∈ e :: more, x.2 ≤ stop) :
    ((e :: more).getLast (List.cons_ne_nil _ _)).2 ≤ stop :=
  hle _ (List.getLast_mem _)

/-- Folding one edit keeps the batch a patch of the original text. -/
theorem composeEdit_spec {batch : List RecoveryEdit} {original text final : Bytes}
    (hbatch : Patch 0 batch original text) (hedit : Patch 0 [edit] text final)
    (horiginal : original.length ≤ u64Max) (hbound : text.length ≤ u64Max) :
    ∃ batch', composeEdit batch edit = .ok batch' ∧ Patch 0 batch' original final := by
  by_cases hidle : edit.removed = edit.inserted
  · refine ⟨batch, if_pos hidle, ?_⟩
    have hsame : text = final := Patch.drop_idle hedit hidle
    rwa [← hsame]
  obtain ⟨k, s, s', htext, rfl, hoff, rfl⟩ := hedit
  rw [Nat.zero_add] at hoff
  have hstop : edit.stop = (k ++ edit.removed).length := by
    rw [List.length_append, ← hoff]
    rfl
  have hsees : Sees edit text := by
    refine ⟨by rw [hstop, htext]; simp, ?_⟩
    rw [hstop, htext, Range.of_middle (by omega), hoff, Nat.sub_self, List.drop_zero]
  have hfront : text.take edit.offset = k := by
    rw [htext, hoff, List.append_assoc, List.take_left]
  have hback : text.drop edit.stop = s := by
    rw [htext, hstop, List.drop_left]
  rw [← hfront, ← hback]
  clear htext hfront hback hstop hoff
  have hlen : edit.offset ≤ edit.stop := Nat.le_add_right _ _
  -- Cut the batch: `before` stays, the loop over the touched edits takes what it reaches.
  obtain ⟨before, rest, p', t, p, u, hsplit, rfl, rfl, hbefore, hrest, hle, hreach⟩ :=
    splitBefore_spec hbatch (Nat.zero_le edit.offset) (by rwa [Nat.zero_add])
  simp only [Nat.zero_add] at hsplit hrest hle hreach
  rw [show ((0 : Nat) : Int) - ((0 : Nat) : Int) = 0 from rfl] at hsplit
  obtain ⟨touched, after, t₁, t₂, u₁, u₂, htouch, rfl, rfl, rfl, hplaced, hpos, hafter, hpast⟩ :=
    splitTouched_spec edit.stop (d := p.length) hrest
      (by rwa [← List.length_append])
  have hcut : (p ++ (u₁ ++ u₂)).take edit.offset = p ++ (u₁ ++ u₂).take (edit.offset - p.length) := by
    rw [List.take_append, List.take_of_length_le hle]
  have hcut' : (p ++ (u₁ ++ u₂)).drop edit.stop = (u₁ ++ u₂).drop (edit.stop - p.length) := by
    rw [List.drop_append, List.drop_of_length_le (by omega), List.nil_append]
  have hstop := hsees.1
  rw [List.length_append] at hstop
  rw [hcut, hcut', List.append_assoc p, List.append_assoc p]
  cases touched with
  | nil =>
    obtain ⟨rfl, rfl⟩ := hplaced
    simp only [List.map_nil, List.nil_append, List.length_nil, Nat.add_zero] at *
    have hremoved : edit.removed =
        (⟨edit.offset - p.length, edit.stop - p.length⟩ : Range).of u₂ := by
      rw [← Range.of_append_right (s := p), Nat.add_sub_cancel' hle,
        Nat.add_sub_cancel' (Nat.le_trans hle hlen)]
      exact hsees.2
    have hpatch := between_patch hafter hle hremoved hstop hpast
    have hplace := (hpatch.ordered.mem (List.mem_cons_self)).2.2
    have hfits : p'.length + (edit.offset - p.length) ≤ u64Max := by
      have : (⟨p'.length + (edit.offset - p.length), edit.removed, edit.inserted⟩ :
          RecoveryEdit).stop ≤ p'.length + t₂.length := hplace
      rw [List.length_append] at horiginal
      exact Nat.le_trans (Nat.le_add_right _ _) (Nat.le_trans this horiginal)
    have hoffset : u64TryFrom ((edit.offset : Int) - ((p.length : Int) - p'.length)) =
        some (p'.length + (edit.offset - p.length)) := by
      rw [← u64TryFrom_natCast hfits]
      congr 1
      omega
    refine ⟨_, ?_, hbefore.append (by rw [Nat.zero_add]; exact hpatch)⟩
    simp only [composeEdit, if_neg hidle, hsplit, htouch, hoffset, bind, Except.bind]
  | cons e more =>
    obtain ⟨head, headAt⟩ := e
    have hreach' : edit.offset ≤ headAt + head.inserted.length := by
      obtain ⟨k, -, -, -, -, hoff, rfl, -⟩ := hplaced
      have := hreach head rfl
      omega
    have hremoved := mergedRemoved_touched hplaced hsees hbound hle hreach' hpos
    obtain ⟨y, hy, hyat⟩ := hplaced.last (List.cons_ne_nil _ _)
    have htailLe := getLast_touched hpos
    cases hlast : ((head, headAt) :: more).getLast (List.cons_ne_nil _ _) with
    | mk tail tailAt =>
    rw [hlast] at hy hyat htailLe
    obtain ⟨offset, hoffset, hpatch⟩ := merged_patch hplaced hafter hpast
      (by rwa [List.length_append, ← Nat.add_assoc] at hstop) hle hreach' hlast htailLe
    have hend : wrappingAdd tailAt tail.inserted.length = tailAt + tail.inserted.length := by
      apply wrappingAdd_eq
      have hylen := congrArg List.length hy
      simp only [List.length_append] at hylen hbound
      omega
    have hkept : (if headAt < edit.offset then head.inserted.take (edit.offset - headAt)
        else []) = head.inserted.take (edit.offset - headAt) := by
      split
      · rfl
      · next h => rw [Nat.sub_eq_zero_of_le (Nat.le_of_not_lt h), List.take_zero]
    have hleft : (if tailAt + tail.inserted.length > edit.stop then
        tail.inserted.drop (edit.stop - tailAt) else []) =
        tail.inserted.drop (edit.stop - tailAt) := by
      split
      · rfl
      · next h => rw [List.drop_of_length_le (by omega)]
    have happend {fs v} (h : Patch p'.length fs (t₁ ++ t₂) v) :
        Patch 0 (before ++ fs) (p' ++ (t₁ ++ t₂)) (p ++ v) := by
      apply hbefore.append
      rwa [Nat.zero_add]
    simp only [composeEdit, if_neg hidle, hsplit, htouch, hremoved, hoffset, hlast, hend, hkept,
      hleft, bind, Except.bind]
    split
    · next hsame => exact ⟨_, rfl, happend (hpatch.drop_idle hsame)⟩
    · exact ⟨_, rfl, happend hpatch⟩

/-! ## §5 Whole transactions -/

theorem u64Max_eq : u64Max = 2 * isizeMax + 1 := by decide

/-- The rounds over a transaction `es` on the text behind `p`: each leaves a batch for the
text with the later edits made, and the offset of the first edit. -/
theorem composeRounds_spec {batch : List RecoveryEdit} {original p : Bytes}
    (hes : Patch p.length es t u) (hbatch : Patch 0 batch original (p ++ t))
    (horiginal : original.length ≤ isizeMax) (ht : (p ++ t).length ≤ isizeMax)
    (hu : u.length ≤ isizeMax) :
    ∃ batch' following,
      es.reverse.foldlM composeRound (batch, u64Max) = .ok (batch', following) ∧
      Patch 0 batch' original (p ++ u) ∧
      (following = u64Max ∨ ∃ e ∈ es.head?, following = e.offset) := by
  induction es generalizing p t u with
  | nil =>
    obtain rfl : t = u := hes
    exact ⟨batch, u64Max, rfl, hbatch, Or.inl rfl⟩
  | cons e es ih =>
    obtain ⟨k, t', u', rfl, rfl, hoff, hrest⟩ := hes
    have hmax := u64Max_eq
    simp only [List.length_append] at ht hu
    have hcursor : e.stop = (p ++ k ++ e.removed).length := by
      simp [Change.stop, hoff]; omega
    obtain ⟨later, following, hfold, hlater, hfollowing⟩ :=
      ih (p := p ++ k ++ e.removed) (by rwa [← hcursor]) (by simpa using hbatch)
        (by simp only [List.length_append]; omega) (by omega)
    have hfits : e.offset + e.removed.length ≤ u64Max := by omega
    have hnext : ¬e.offset + e.removed.length > following := by
      rcases hfollowing with rfl | ⟨e', he', rfl⟩
      · omega
      · have hstart := hrest.ordered
        cases es with
        | nil => cases he'
        | cons e'' es =>
          obtain rfl := Option.some.inj he'
          exact Nat.not_lt.mpr hstart.1
    have hone : Patch 0 [e] (p ++ k ++ e.removed ++ u') (p ++ (k ++ e.inserted ++ u')) :=
      ⟨p ++ k, u', u', by simp, by simp, by simp [hoff], rfl⟩
    obtain ⟨batch', hcompose, hpatch⟩ := composeEdit_spec hlater hone (by omega)
      (by simp only [List.length_append]; omega)
    refine ⟨batch', e.offset, ?_, hpatch, Or.inr ⟨e, rfl, rfl⟩⟩
    rw [List.reverse_cons, List.foldlM_append, hfold]
    show composeRound (later, following) e >>= _ = _
    simp only [composeRound, checkedAdd_eq hfits, if_neg hnext, hcompose, bind, Except.bind]
    rfl

/-- Composing a transaction over the text of a batch into the batch. -/
theorem composeEdits_spec {batch next : List RecoveryEdit} {original text final : Bytes}
    (hbatch : Patch 0 batch original text) (hnext : Patch 0 next text final)
    (horiginal : original.length ≤ isizeMax) (htext : text.length ≤ isizeMax)
    (hfinal : final.length ≤ isizeMax) :
    ∃ batch', composeEdits batch next = (.ok (), batch') ∧ Patch 0 batch' original final := by
  obtain ⟨batch', following, hfold, hpatch, -⟩ :=
    composeRounds_spec (p := []) hnext hbatch horiginal htext hfinal
  refine ⟨batch', ?_, hpatch⟩
  rw [composeEdits, hfold]

/-- Transactions in order, each over the text the one before it leaves; every text between
them fits in memory. -/
def Transactions : List (List RecoveryEdit) → Bytes → Bytes → Prop
  | [], text, final => text = final
  | next :: rest, text, final => Matches next text ∧
      (applyEdits next text).length ≤ isizeMax ∧ Transactions rest (applyEdits next text) final

/-- Folding transactions into one batch, as the pending batch of a paged session does. -/
def composeAll : List RecoveryEdit → List (List RecoveryEdit) → Except IoError (List RecoveryEdit)
  | batch, [] => .ok batch
  | batch, next :: rest => do
    let (result, batch) := composeEdits batch next
    result
    composeAll batch rest

theorem composeAll_spec {batch : List RecoveryEdit} {nexts : List (List RecoveryEdit)}
    {original text final : Bytes} (hbatch : Patch 0 batch original text)
    (hnexts : Transactions nexts text final) (horiginal : original.length ≤ isizeMax)
    (htext : text.length ≤ isizeMax) :
    ∃ batch', composeAll batch nexts = .ok batch' ∧ Patch 0 batch' original final := by
  induction nexts generalizing batch text with
  | nil =>
    obtain rfl : text = final := hnexts
    exact ⟨batch, rfl, hbatch⟩
  | cons next rest ih =>
    obtain ⟨hnext, hmiddle, hrest⟩ := hnexts
    obtain ⟨batch₁, hcompose, hpatch⟩ :=
      composeEdits_spec hbatch hnext.patch horiginal htext hmiddle
    obtain ⟨batch', hall, hfinal⟩ := ih hpatch hrest hmiddle
    refine ⟨batch', ?_, hfinal⟩
    rw [composeAll, hcompose]
    exact hall

/-- A failed composition leaves the batch alone. -/
theorem composeEdits_error {batch next : List RecoveryEdit} {error : IoError}
    (h : (composeEdits batch next).1 = .error error) : (composeEdits batch next).2 = batch := by
  rw [composeEdits] at h ⊢
  split
  · next hfold =>
    rw [hfold] at h
    cases h
  · rfl

/-- Recovery edit composition is exact: a batch of edits whose removed bytes match the
original text takes in every transaction over the text it produces and stays such a batch;
any number of transactions folds into it; and a failure leaves it alone. -/
theorem compose_edits_exact (original : Bytes) (batch : List RecoveryEdit)
    (hbatch : Matches batch original) (horiginal : original.length ≤ isizeMax)
    (htext : (applyEdits batch original).length ≤ isizeMax) :
    (∀ next, Matches next (applyEdits batch original) →
      (applyEdits next (applyEdits batch original)).length ≤ isizeMax →
      ∃ batch', composeEdits batch next = (.ok (), batch') ∧ Matches batch' original ∧
        applyEdits batch' original = applyEdits next (applyEdits batch original)) ∧
    (∀ nexts final, Transactions nexts (applyEdits batch original) final →
      ∃ batch', composeAll batch nexts = .ok batch' ∧ Matches batch' original ∧
        applyEdits batch' original = final) ∧
    (∀ next error, (composeEdits batch next).1 = .error error →
      (composeEdits batch next).2 = batch) := by
  refine ⟨?_, ?_, fun _ _ => composeEdits_error⟩
  · intro next hnext hfinal
    obtain ⟨batch', hcompose, hpatch⟩ :=
      composeEdits_spec hbatch.patch hnext.patch horiginal htext hfinal
    exact ⟨batch', hcompose, patch_iff_matches.mp hpatch⟩
  · intro nexts final hnexts
    obtain ⟨batch', hall, hpatch⟩ := composeAll_spec hbatch.patch hnexts horiginal htext
    exact ⟨batch', hall, patch_iff_matches.mp hpatch⟩

/-- A batch that replaced one byte by two takes in an edit over the second of them and the
original byte behind it. -/
theorem compose_edits_exact_overlap :
    ∃ batch', composeEdits [⟨1, [98], [120, 121]⟩] [⟨2, [121, 99], [122]⟩] = (.ok (), batch') ∧
      Matches batch' [97, 98, 99, 100] ∧
      applyEdits batch' [97, 98, 99, 100] = [97, 120, 122, 100] :=
  (compose_edits_exact [97, 98, 99, 100] [⟨1, [98], [120, 121]⟩] (by decide) (by decide)
    (by decide)).1 [⟨2, [121, 99], [122]⟩] (by decide) (by decide)

example : composeEdits [⟨1, [98], [120, 121]⟩] [⟨2, [121, 99], [122]⟩] =
    (.ok (), [⟨1, [98, 99], [120, 122]⟩]) := by rfl

end BareLine
