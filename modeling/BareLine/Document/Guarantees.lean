import BareLine.Document.History

/-!
# What applied edits and the two stacks guarantee

The results about resident documents a caller relies on: an accepted transaction is the
reference splice of its edits whichever way it was staged, and the stacks always restore
what they recorded.
-/

namespace BareLine

open Lib BareLine.Tree

/-- An environment with room for everything, as a fresh process has it. -/
def Env.roomy : Env where
  layout := ⟨8, 24, 80, 48, 16, 224, 112⟩
  bytesLimit := 1048576
  otherBytes := 0
  pinned := fun _ => false
  strongCount := fun _ _ => 1
  historyAvailable := fun _ => 1048576
  chargeShared := fun _ => false
  contentState := 2
  sequence := 3
  nextSegment := 2

/-- A document freshly opened on one segment. -/
def openedText (text : Bytes) : Document :=
  Document.opened (some (.leaf (.new ⟨1, text, none, false⟩ ⟨0, text.length⟩)))
    DocumentMetadata.default 1 1

/-- A short text opens as one segment. -/
private theorem openedText_reachable : Reachable (openedText [97, 98]) :=
  have h : Document.fromUtf8 ⟨100, 0, 1⟩ 1 1 [97, 98] = .ok (openedText [97, 98]) := by
    decide +kernel
  Reachable.fromUtf8 h

/-! ## §1 Applying -/

/-- What an accepted transaction does, with or without metadata of its caller. -/
theorem Document.accepted {d d' : Document} (hd : Reachable d) {worlds : Nat → Env}
    {tr : EditTransaction} {m : Option EditMetadata} {revision : Nat}
    (hm : d.applyRelieved Document.ownRelief worlds tr m = (.ok revision, d'))
    {es : List Edit} (hperm : es.Perm tr.edits)
    (hsorted : es.Pairwise fun a b => a.range.start ≤ b.range.start) :
    Ordered 0 (es.map Edit.toSplice) d.current.text.length ∧
      d'.current.text = splice (es.map Edit.toSplice) d.current.text ∧
      (tr.edits ≠ [] → ∃ change, d'.current.appliedChange = some change ∧
        change.edits.Pairwise (fun a b => a.before.stop ≤ b.before.start) ∧
        change.Gives d.current.text d'.current.text) := by
  rcases Document.applyRelieved_cases ownRelief_onlyEvicts worlds hd.wf.root tr m with
    ⟨e, d₁, heq, -⟩ | ⟨-, hempty, heq⟩ | ⟨d₁, p, next, hev, hready, heq⟩
  · cases (Prod.mk.inj (heq.symm.trans hm)).1
  · obtain ⟨-, rfl⟩ := Prod.mk.inj (heq.symm.trans hm)
    rw [hempty] at hperm
    obtain rfl := hperm.eq_nil
    exact ⟨Nat.zero_le _, rfl, fun hne => absurd hempty hne⟩
  · obtain ⟨-, rfl⟩ := Prod.mk.inj (heq.symm.trans hm)
    obtain ⟨hord, htext, -, hchange⟩ := hready.facts
    rw [hev.current] at hord htext
    obtain rfl := sorted_unique hready.checked hperm hsorted
    have hcurrent := Document.commit_current (worlds 0) next d₁ p
    have hnew : (Document.commitPreparedUnchecked (worlds 0) next d₁ p).current.text =
        text p.entry.after := by
      rw [hcurrent]
      rfl
    rw [hnew, ← hev.current]
    rw [← hev.current] at hord htext
    refine ⟨hord, htext, fun _ => ⟨p.change, by rw [hcurrent]; rfl, ?_, hready.gives⟩⟩
    exact hready.gives.disjoint

/-- An accepted transaction replaces the text by the reference splice of its edits, taken
in the order of their offsets, and publishes a sorted, disjoint receipt that gives exactly
the new text. -/
theorem apply_splices {d d' : Document} (hd : Reachable d) {worlds : Nat → Env}
    {tr : EditTransaction} {revision : Nat}
    (h : d.apply worlds tr = (.ok revision, d') ∨
      ∃ m, d.applyWithMetadata worlds tr m = (.ok revision, d'))
    {es : List Edit} (hperm : es.Perm tr.edits)
    (hsorted : es.Pairwise fun a b => a.range.start ≤ b.range.start) :
    Ordered 0 (es.map Edit.toSplice) d.current.text.length ∧
      d'.current.text = splice (es.map Edit.toSplice) d.current.text ∧
      (tr.edits ≠ [] → ∃ change, d'.current.appliedChange = some change ∧
        change.edits.Pairwise (fun a b => a.before.stop ≤ b.before.start) ∧
        change.Gives d.current.text d'.current.text) := by
  rcases h with h | ⟨m, h⟩
  · exact Document.accepted (m := none) hd h hperm hsorted
  · exact Document.accepted (m := some m) hd h hperm hsorted

/-- Two edits submitted in reverse order, the first with a replacement, the second an
insertion at the end. -/
theorem apply_splices_reversed :
    let tr : EditTransaction := ⟨0, [⟨⟨2, 2⟩, [33]⟩, ⟨⟨0, 1⟩, [90]⟩]⟩
    let d := openedText [97, 98]
    let d' := (d.apply (fun _ => Env.roomy) tr).2
    let es : List Edit := [⟨⟨0, 1⟩, [90]⟩, ⟨⟨2, 2⟩, [33]⟩]
    Ordered 0 (es.map Edit.toSplice) d.current.text.length ∧
      d'.current.text = splice (es.map Edit.toSplice) d.current.text ∧
      (tr.edits ≠ [] → ∃ change, d'.current.appliedChange = some change ∧
        change.edits.Pairwise (fun a b => a.before.stop ≤ b.before.start) ∧
        change.Gives d.current.text d'.current.text) := by
  intro tr d d' es
  have hfst : (d.apply (fun _ => Env.roomy) tr).1 = .ok 1 := by decide +kernel
  have h : d.apply (fun _ => Env.roomy) tr = (.ok 1, d') := pair_of_fst hfst
  exact apply_splices openedText_reachable (Or.inl h) (by decide) (by decide)

/-! ## §2 Undo and redo -/

/-- In every reachable document the undo entries lead to the current version and the redo
entries on from it; each entry's edits rewrite the text before it into the text after it,
and their inverses back.  So as many redo steps as undo steps restore text, metadata and
content state, and every undo or redo publishes a receipt that gives the new text. -/
theorem history_restores {d : Document} (hd : Reachable d) :
    d.Chained ∧
    (∀ e ∈ d.undo.entries ++ d.redo.entries,
      Patch 0 (e.edits.map OwnedEdit.forward) (text e.before) (text e.after) ∧
      Patch 0 (e.edits.map OwnedEdit.backward) (text e.after) (text e.before)) ∧
    (∀ k d₁ d₂, Undoes d k d₁ → Redoes d₁ k d₂ → d₂.version = d.version) ∧
    (∀ relieve env revision d', OnlyEvicts relieve →
      d.undoRelieved relieve env = (.ok revision, d') →
      ∃ change, d'.current.appliedChange = some change ∧ change.direction = .undo ∧
        change.Gives d.current.text d'.current.text) ∧
    (∀ relieve env revision d', OnlyEvicts relieve →
      d.redoRelieved relieve env = (.ok revision, d') →
      ∃ change, d'.current.appliedChange = some change ∧ change.direction = .redo ∧
        change.Gives d.current.text d'.current.text) := by
  have hwf := hd.wf
  refine ⟨hwf.chained, fun e he => ?_, fun k d₁ d₂ hu hr => hr.restores hwf hu,
    fun relieve env revision d' hr h => Document.undo_gives hwf hr h,
    fun relieve env revision d' hr h => Document.redo_gives hwf hr h⟩
  have hrew : Rewrites .resident e.edits (text e.before) (text e.after) := by
    rcases List.mem_append.mp he with he | he
    · exact (hwf.undo e he).rewrites
    · exact (hwf.redo e he).rewrites
  exact ⟨hrew.forward, hrew.backward⟩

/-- A document with one typed insertion, undone and redone. -/
theorem history_restores_typed :
    let tr : EditTransaction := ⟨0, [⟨⟨1, 1⟩, [120]⟩]⟩
    let d := ((openedText [97, 98]).apply (fun _ => Env.roomy) tr).2
    let d₁ := (d.undoStep Env.roomy).2
    d.undo.entries.length = 1 ∧ (d₁.redoStep Env.roomy).2.version = d.version := by
  intro tr d d₁
  have hd : Reachable d := openedText_reachable.step (Step.apply ownRelief_onlyEvicts _ tr none)
  refine ⟨by decide +kernel, (history_restores hd).2.2.1 1 d₁ _ ?_ ?_⟩
  · exact Undoes.single ownRelief_onlyEvicts 2 (by decide +kernel)
  · exact Redoes.single ownRelief_onlyEvicts 3 (by decide +kernel)

end BareLine
