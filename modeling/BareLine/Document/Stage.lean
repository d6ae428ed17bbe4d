import BareLine.Document.Types

/-!
# Staging a transaction

`Document::stage` validates a transaction and builds the new root, the history entry and
the receipt without touching the document.  A transaction of more than `PIECEWISE_EDITS`
edits is first coalesced; a single insertion may join the leaf typed before it.

`stage_spec` says what every path comes to: the reference splice of the sorted edits, an
entry whose edits rewrite the old text into the new one and back, and a receipt that names
those edits.
-/

namespace BareLine

open Lib BareLine.Tree

/-- `PIECEWISE_EDITS` -/
def PIECEWISE_EDITS : Nat := 10000

/-- `COALESCE_GAP` -/
def COALESCE_GAP : Nat := 256

/-- `COALESCE_BYTES` -/
def COALESCE_BYTES : Nat := 1024 * 1024

/-- `TYPED_LEAF_BYTES` -/
def TYPED_LEAF_BYTES : Nat := 256

/-- `MAX_RECEIPT_BYTES` -/
def MAX_RECEIPT_BYTES : Nat := 64 * 1024 * 1024

/-! ## §1 Validation -/

/-- The order of `sort_by_key(|e| (e.range.start, e.range.end))`. -/
def editKeyLe (a b : Edit) : Bool :=
  decide (a.range.start < b.range.start) ||
    (a.range.start == b.range.start && decide (a.range.stop ≤ b.range.stop))

/-- The stable sort of `check_transaction`. -/
def sortEdits (edits : List Edit) : List Edit := edits.insertionSort fun a b => editKeyLe a b

/-- The loop of `check_transaction` after the edit with range `previous`. -/
def checkEdits (s : DocumentSnapshot) : Option Range → List Edit → Except Error Unit
  | _, [] => .ok ()
  | previous, edit :: rest =>
    match s.validateRange edit.range with
    | .error e => .error e
    | .ok () =>
      if previous.any fun p =>
          decide (p.stop > edit.range.start) || p.start == edit.range.start then
        .error .overlappingEdits
      else checkEdits s (some edit.range) rest

namespace Document

/-- `Document::check_transaction`; the result is the transaction's edits, now sorted. -/
def checkTransaction (d : Document) (tr : EditTransaction) : Except Error (List Edit) :=
  if tr.baseRevision ≠ d.current.revision then .error .staleRevision
  else if tr.edits.isEmpty then .error .emptyTransaction
  else
    let edits := sortEdits tr.edits
    match checkEdits d.current none edits with
    | .error e => .error e
    | .ok () => d.nextRevision.map fun _ => edits

end Document

/-! ## §2 Coalescing -/

/-- The edit that replaces `last`, the unchanged gap and `edit` at once, when the gap is
short, the staged text stays bounded and the gap can be read. -/
def joinEdits (root : Root) (last edit : Edit) : Option Edit :=
  let gap : Range := ⟨last.range.stop, edit.range.start⟩
  if gap.len ≤ COALESCE_GAP ∧
      last.insert.length + gap.len + edit.insert.length ≤ COALESCE_BYTES then
    let chunk := chunks root gap
    if chunk.length = gap.len then
      some ⟨⟨last.range.start, edit.range.stop⟩, last.insert ++ chunk ++ edit.insert⟩
    else none
  else none

/-- The loop of `coalesce`; `last` is the edit at the end of its output. -/
def coalesceFrom (root : Root) (last : Edit) : List Edit → List Edit
  | [] => [last]
  | edit :: rest =>
    match joinEdits root last edit with
    | some joined => coalesceFrom root joined rest
    | none => last :: coalesceFrom root edit rest

/-- `Document::coalesce` -/
def coalesce (root : Root) : List Edit → List Edit
  | [] => []
  | edit :: rest => coalesceFrom root edit rest

/-- The edits `stage` works on: the sorted ones, coalesced when there are many. -/
def stagedEdits (root : Root) (edits : List Edit) : List Edit :=
  if edits.length > PIECEWISE_EDITS then coalesce root edits else edits

/-! ## §3 Building the new root -/

/-- `from_inserted_text` for every edit, collected. -/
def stageInserts : List Edit → Heap → Except Error (List Root × Heap)
  | [], heap => .ok ([], heap)
  | edit :: rest, heap =>
    match fromInsertedText edit.insert heap with
    | .error e => .error e
    | .ok (root, heap) =>
      match stageInserts rest heap with
      | .error e => .error e
      | .ok (roots, heap) => .ok (root :: roots, heap)

/-- The loop that records the owned edits; the cursors are the ends of the previous edit
before and after the transaction. -/
def ownEdits (root : Root) (beforeCursor afterCursor : Nat) :
    List (Edit × Root) → Except Error (List OwnedEdit)
  | [] => .ok []
  | (edit, inserted) :: rest =>
    match checkedAdd afterCursor (edit.range.start - beforeCursor) with
    | none => .error .budgetExceeded
    | some start =>
      match checkedAdd start edit.insert.length with
      | none => .error .budgetExceeded
      | some stop =>
        match ownEdits root edit.range.stop stop rest with
        | .error e => .error e
        | .ok owned =>
          .ok (⟨edit.range, ⟨start, stop⟩, slice root edit.range, inserted⟩ :: owned)

/-- One step of the right-to-left loop: cut `edit` out of the root and put `inserted` in
its place. -/
def spliceRoot (single : Bool) (edit : Edit × Root) (state : Root × Heap) : Root × Heap :=
  let (leftAndDeleted, right) := split state.1 edit.1.range.stop
  let left := (split leftAndDeleted edit.1.range.start).1
  let (left, heap) :=
    if single && edit.1.range.isEmpty then
      concatCoalesced left edit.2 TYPED_LEAF_BYTES state.2
    else (concat left edit.2, state.2)
  (concat left right, heap)

/-! ## §4 Receipts -/

/-- The line of a receipt for one owned edit. -/
def OwnedEdit.compact (direction : ChangeDirection) (edit : OwnedEdit) : CompactEdit :=
  if direction = .undo then ⟨edit.afterRange, (summary edit.inverse).bytes⟩
  else ⟨edit.beforeRange, (summary edit.inserted).bytes⟩

/-- Bytes `AppliedChange::build` claims for `count` edits. -/
def receiptBytes (sizes : Layout) (count : Nat) : Option Nat :=
  (checkedMul count sizes.compactEdit).bind fun payload =>
    if payload ≤ MAX_RECEIPT_BYTES then
      checkedAdd payload (sizes.appliedChange + 2 * sizes.usize)
    else none

/-- `AppliedChange::owned` -/
def AppliedChange.owned (sizes : Layout) (documentId beforeRevision afterRevision beforeState
    afterState : Nat) (direction : ChangeDirection) (edits : List OwnedEdit) (heap : Heap) :
    Except Error (AppliedChange × Heap) :=
  match receiptBytes sizes edits.length with
  | none => .error .budgetExceeded
  | some bytes =>
    (heap.reserve bytes).map fun heap =>
      (⟨documentId, beforeRevision, afterRevision, beforeState, afterState, direction,
        edits.map (OwnedEdit.compact direction)⟩, heap)

/-! ## §5 `Document::stage` -/

/-- `PreparedEdit` -/
structure PreparedEdit where
  change : AppliedChange
  documentId : Nat
  baseRevision : Nat
  revision : Nat
  entry : History
  tracked : Bool
  deriving DecidableEq, Repr

/-- The history entry of a staged edit, before its history is charged. -/
def Document.stagedEntry (env : Env) (d : Document) (after : Root) (edits : List OwnedEdit) :
    History where
  beforeMetadata := d.current.metadata
  afterMetadata := d.current.metadata
  before := d.current.root
  after := after
  beforeState := d.current.contentState
  afterState := env.contentState
  undoReservation := []
  structureCharge := none
  sequence := env.sequence
  edits := edits
  group := none
  metadata := EditMetadata.default
  typingInsert := false

/-- `Document::stage`; the heap holds the staged text and the receipt. -/
def Document.stage (env : Env) (d : Document) (tr : EditTransaction) :
    Except Error (PreparedEdit × Heap) := do
  let sorted ← d.checkTransaction tr
  let revision ← d.nextRevision
  let edits := stagedEdits d.current.root sorted
  let (inserts, heap) ← stageInserts edits (env.heap d)
  let staged := edits.zip inserts
  let owned ← ownEdits d.current.root 0 0 staged
  let (root, heap) := staged.foldr (spliceRoot (edits.length == 1)) (d.current.root, heap)
  let (change, heap) ← AppliedChange.owned env.layout d.current.documentId d.current.revision
    revision d.current.contentState env.contentState .edit owned heap
  .ok (⟨change, d.current.documentId, d.current.revision, revision,
    d.stagedEntry env root owned, false⟩, heap)

/-! ## §6 Owned edits as changes -/

namespace OwnedEdit

/-- The change the edit made to the text before it. -/
def forward (e : OwnedEdit) : Change UInt8 :=
  ⟨e.beforeRange.start, Tree.text e.inverse, Tree.text e.inserted⟩

/-- The change that takes it back. -/
def backward (e : OwnedEdit) : Change UInt8 :=
  ⟨e.afterRange.start, Tree.text e.inserted, Tree.text e.inverse⟩

/-- The ranges have the lengths of the texts they stand for. -/
structure Wf (st : Storage) (e : OwnedEdit) : Prop where
  inverse : RootWf st e.inverse
  inserted : RootWf st e.inserted
  beforeStop : e.beforeRange.stop = e.beforeRange.start + (Tree.text e.inverse).length
  afterStop : e.afterRange.stop = e.afterRange.start + (Tree.text e.inserted).length

end OwnedEdit

/-- The recorded edits rewrite `t` into `u`, and their inverses `u` into `t`. -/
structure Rewrites (st : Storage) (edits : List OwnedEdit) (t u : Bytes) : Prop where
  wf : ∀ e ∈ edits, e.Wf st
  forward : Patch 0 (edits.map OwnedEdit.forward) t u
  inverse : edits.map OwnedEdit.backward = inverseFrom 0 0 (edits.map OwnedEdit.forward)

/-- The recorded inverses turn the text after the edits back. -/
theorem Rewrites.backward {st : Storage} {edits : List OwnedEdit} {t u : Bytes}
    (h : Rewrites st edits t u) : Patch 0 (edits.map OwnedEdit.backward) u t :=
  h.inverse ▸ h.forward.inverse

/-- A receipt line is the splice of the change it stands for. -/
theorem OwnedEdit.Wf.compact {st : Storage} {e : OwnedEdit} (h : e.Wf st)
    (direction : ChangeDirection) :
    let c := if direction = .undo then e.backward else e.forward
    (e.compact direction).before = ⟨c.offset, c.stop⟩ ∧
      (e.compact direction).insertedLen = c.inserted.length := by
  unfold OwnedEdit.compact
  split_ifs
  · refine ⟨?_, h.inverse.bytes⟩
    simp only [OwnedEdit.backward, Change.stop, ← h.afterStop]
  · refine ⟨?_, h.inserted.bytes⟩
    simp only [OwnedEdit.forward, Change.stop, ← h.beforeStop]

/-- A receipt whose lines stand for the changes of a patch gives its result. -/
theorem AppliedChange.gives_of_patch {change : AppliedChange} {cs : List (Change UInt8)}
    {t u : Bytes} (hlines : change.edits = cs.map fun c => ⟨⟨c.offset, c.stop⟩, c.inserted.length⟩)
    (h : Patch 0 cs t u) : change.Gives t u := by
  refine ⟨cs.map Change.inserted, ?_, ?_⟩
  · rw [hlines, List.map_map, List.map_map]
    rfl
  · have hes : change.edits.zipWith (fun e text => (⟨e.before.start, e.before.stop, text⟩ :
        Splice UInt8)) (cs.map Change.inserted) = cs.map Change.toSplice := by
      rw [hlines, List.zipWith_map, List.zipWith_self]
      rfl
    simp only [hes]
    exact ⟨by simpa using h.ordered, h.spliceFrom_eq⟩

/-- The lines of a receipt do not overlap. -/
theorem AppliedChange.Gives.disjoint {change : AppliedChange} {t u : Bytes}
    (h : change.Gives t u) :
    change.edits.Pairwise fun a b => a.before.stop ≤ b.before.start := by
  obtain ⟨texts, hlen, hord, -⟩ := h
  have hlen' : texts.length = change.edits.length := by simpa using congrArg List.length hlen
  have hzip : change.edits.zipWith (fun e text => (⟨e.before.start, e.before.stop, text⟩ :
      Splice UInt8)) texts =
      (change.edits.zip texts).map fun p => ⟨p.1.before.start, p.1.before.stop, p.2⟩ := by
    rw [List.zip, List.map_zipWith]
  have hpair := hord.pairwise
  simp only [hzip, List.pairwise_map] at hpair
  have hmap : change.edits = (change.edits.zip texts).map Prod.fst := by
    rw [List.map_fst_zip (by omega)]
  rw [hmap, List.pairwise_map]
  exact hpair

/-- The receipt of recorded edits, in either direction, gives the text it leads to. -/
theorem Rewrites.gives {st : Storage} {edits : List OwnedEdit} {t u : Bytes}
    (h : Rewrites st edits t u) (direction : ChangeDirection) (change : AppliedChange)
    (hlines : change.edits = edits.map (OwnedEdit.compact direction)) :
    if direction = .undo then change.Gives u t else change.Gives t u := by
  have hline : ∀ e ∈ edits, e.compact direction =
      (fun c : Change UInt8 => ⟨⟨c.offset, c.stop⟩, c.inserted.length⟩)
        (if direction = .undo then e.backward else e.forward) := by
    intro e he
    obtain ⟨h1, h2⟩ := (h.wf e he).compact direction
    dsimp only
    rw [← h1, ← h2]
  have hmap := hlines.trans (List.map_congr_left hline)
  split_ifs with hd
  · simp only [hd, if_true] at hmap
    exact AppliedChange.gives_of_patch (by rw [hmap, List.map_map]; rfl) h.backward
  · simp only [hd, if_false] at hmap
    exact AppliedChange.gives_of_patch (by rw [hmap, List.map_map]; rfl) h.forward

/-! ## §7 What staging does -/

theorem DocumentSnapshot.validateRange_ok {s : DocumentSnapshot} {r : Range}
    (h : s.validateRange r = .ok ()) :
    r.start ≤ r.stop ∧ r.stop ≤ s.len ∧ s.isBoundary r.start ∧ s.isBoundary r.stop := by
  rw [validateRange] at h
  split_ifs at h with hrange hbound
  rw [Bool.and_eq_true] at hbound
  exact ⟨by omega, by omega, hbound⟩

/-- Accepted edits are in order and in range. -/
theorem checkEdits_ordered {s : DocumentSnapshot} (previous : Option Range) {es : List Edit}
    (hprev : ∀ p ∈ previous, p.stop ≤ s.len) (h : checkEdits s previous es = .ok ()) :
    Ordered (previous.elim 0 Range.stop) (es.map Edit.toSplice) s.len := by
  induction es generalizing previous with
  | nil =>
    cases previous with
    | none => exact Nat.zero_le _
    | some p => exact hprev p rfl
  | cons edit rest ih =>
    rw [checkEdits] at h
    cases hv : s.validateRange edit.range with
    | error e => simp [hv] at h
    | ok u =>
      obtain ⟨hle, hlen, -, -⟩ := DocumentSnapshot.validateRange_ok hv
      simp only [hv] at h
      split_ifs at h with hover
      refine ⟨?_, hle, ih _ (by simpa using hlen) h⟩
      cases previous with
      | none => exact Nat.zero_le _
      | some p =>
        simp only [Option.any_some, Bool.or_eq_true, decide_eq_true_eq, not_or] at hover
        exact Nat.not_lt.mp hover.1

/-- Joining two neighbours leaves the meaning of the batch. -/
theorem joinEdits_spec {root : Root} (hroot : RootWf .resident root) {last edit joined : Edit}
    {c : Nat} {es : List (Splice UInt8)}
    (hord : Ordered c (last.toSplice :: edit.toSplice :: es) (text root).length)
    (h : joinEdits root last edit = some joined) :
    Ordered c (joined.toSplice :: es) (text root).length ∧
      spliceFrom c (joined.toSplice :: es) ((text root).drop c) =
        spliceFrom c (last.toSplice :: edit.toSplice :: es) ((text root).drop c) := by
  rcases hord with ⟨hc, hls, hle, hes, hrest⟩
  have hstop : edit.range.stop ≤ (text root).length := hrest.le
  simp only [Edit.toSplice] at hc hls hle hes
  rw [joinEdits] at h
  dsimp only at h
  split_ifs at h with hfit hread
  obtain rfl := Option.some.inj h
  refine ⟨⟨hc, by simp only [Edit.toSplice]; omega, hrest⟩, ?_⟩
  rw [chunks_eq hroot (by simp only; omega)]
  have hgap : ((text root).drop last.range.stop).take (edit.range.start - last.range.stop) =
      (⟨last.range.stop, edit.range.start⟩ : Range).of (text root) := by
    simp only [Range.of, List.take_drop]
    congr 2
    omega
  simp only [spliceFrom, Edit.toSplice, List.drop_drop]
  have h1 : c + (last.range.stop - c) = last.range.stop := by omega
  have h2 : c + (edit.range.stop - c) = edit.range.stop := by omega
  have h3 : last.range.stop + (edit.range.stop - last.range.stop) = edit.range.stop := by omega
  rw [h1, h2, h3, hgap]
  simp only [List.append_assoc]

theorem coalesceFrom_spec {root : Root} (hroot : RootWf .resident root) {last : Edit}
    {es : List Edit} {c : Nat}
    (hord : Ordered c ((last :: es).map Edit.toSplice) (text root).length) :
    Ordered c ((coalesceFrom root last es).map Edit.toSplice) (text root).length ∧
      spliceFrom c ((coalesceFrom root last es).map Edit.toSplice) ((text root).drop c) =
        spliceFrom c ((last :: es).map Edit.toSplice) ((text root).drop c) := by
  induction es generalizing last c with
  | nil => exact ⟨hord, rfl⟩
  | cons edit rest ih =>
    rw [coalesceFrom]
    cases hjoin : joinEdits root last edit with
    | some joined =>
      obtain ⟨hord', heq⟩ := joinEdits_spec hroot hord hjoin
      obtain ⟨hfinal, hfeq⟩ := @ih joined c hord'
      exact ⟨hfinal, hfeq.trans heq⟩
    | none =>
      rcases hord with ⟨hc, hls, hrest⟩
      obtain ⟨hfinal, hfeq⟩ := @ih edit _ hrest
      refine ⟨⟨hc, hls, hfinal⟩, ?_⟩
      have hdrop : ((text root).drop c).drop (last.toSplice.stop - c) =
          (text root).drop last.toSplice.stop := by
        rw [List.drop_drop]
        congr 1
        omega
      simp only [List.map_cons, spliceFrom, hdrop] at hfeq ⊢
      rw [hfeq]

/-- Coalesced or not, the staged edits mean what the sorted ones mean. -/
theorem stagedEdits_spec {root : Root} (hroot : RootWf .resident root) {es : List Edit}
    (hord : Ordered 0 (es.map Edit.toSplice) (text root).length) :
    Ordered 0 ((stagedEdits root es).map Edit.toSplice) (text root).length ∧
      splice ((stagedEdits root es).map Edit.toSplice) (text root) =
        splice (es.map Edit.toSplice) (text root) := by
  rw [stagedEdits]
  split_ifs
  · cases es with
    | nil => exact ⟨hord, rfl⟩
    | cons edit rest =>
      have h := coalesceFrom_spec hroot hord
      rw [List.drop_zero] at h
      exact h
  · exact ⟨hord, rfl⟩

/-- Each staged root holds its edit's text. -/
theorem stageInserts_spec {es : List Edit} {heap heap' : Heap} {roots : List Root}
    (h : stageInserts es heap = .ok (roots, heap')) :
    (∀ root ∈ roots, RootWf .resident root) ∧ roots.map text = es.map Edit.insert := by
  induction es generalizing heap heap' roots with
  | nil =>
    obtain ⟨rfl, -⟩ := Prod.mk.inj (Except.ok.inj h)
    simp
  | cons edit rest ih =>
    rw [stageInserts] at h
    cases hfrom : fromInsertedText edit.insert heap with
    | error e => simp [hfrom] at h
    | ok r =>
      obtain ⟨root, heap₁⟩ := r
      simp only [hfrom] at h
      cases hrest : stageInserts rest heap₁ with
      | error e => simp [hrest] at h
      | ok r =>
        obtain ⟨roots', heap₂⟩ := r
        simp only [hrest] at h
        obtain ⟨rfl, -⟩ := Prod.mk.inj (Except.ok.inj h)
        obtain ⟨hw, ht, -, -⟩ := textSegments_spec (rootWf_none _) hfrom
        obtain ⟨hws, hts⟩ := ih hrest
        exact ⟨List.forall_mem_cons.mpr ⟨hw, hws⟩, by simp [hts, ht]⟩

/-- The staged edits paired with their roots. -/
theorem stageInserts_zip {es : List Edit} {heap heap' : Heap} {roots : List Root}
    (h : stageInserts es heap = .ok (roots, heap')) :
    roots.length = es.length ∧ (es.zip roots).map Prod.fst = es ∧
      ∀ s ∈ es.zip roots, RootWf .resident s.2 ∧ text s.2 = s.1.insert := by
  obtain ⟨hwfs, htexts⟩ := stageInserts_spec h
  have hlen : roots.length = es.length := by simpa using congrArg List.length htexts
  have hfst : (es.zip roots).map Prod.fst = es := List.map_fst_zip (by omega)
  have hsnd : (es.zip roots).map Prod.snd = roots := List.map_snd_zip (by omega)
  refine ⟨hlen, hfst, fun s hs => ⟨hwfs _ (List.of_mem_zip hs).2, ?_⟩⟩
  have hzip : (es.zip roots).map (fun s => text s.2) =
      (es.zip roots).map (fun s => s.1.insert) := by
    calc (es.zip roots).map (fun s => text s.2)
        = ((es.zip roots).map Prod.snd).map text := by rw [List.map_map]; rfl
      _ = ((es.zip roots).map Prod.fst).map Edit.insert := by rw [hsnd, hfst, htexts]
      _ = (es.zip roots).map (fun s => s.1.insert) := by rw [List.map_map]; rfl
  exact List.map_inj_left.mp hzip s hs

/-- The owned edits record the changes of the batch and their inverses. -/
theorem ownEdits_spec {root : Root} (hroot : RootWf .resident root) {c c' : Nat}
    {staged : List (Edit × Root)} {owned : List OwnedEdit}
    (hstaged : ∀ s ∈ staged, RootWf .resident s.2 ∧ text s.2 = s.1.insert)
    (hord : Ordered c (staged.map fun s => s.1.toSplice) (text root).length)
    (h : ownEdits root c c' staged = .ok owned) :
    (∀ e ∈ owned, e.Wf .resident) ∧
      owned.map OwnedEdit.forward =
        staged.map (fun s => Splice.toChange 0 (text root) s.1.toSplice) ∧
      owned.map OwnedEdit.backward = inverseFrom c c' (owned.map OwnedEdit.forward) := by
  induction staged generalizing c c' owned with
  | nil =>
    obtain rfl := Except.ok.inj h
    exact ⟨by simp, rfl, rfl⟩
  | cons s rest ih =>
    obtain ⟨edit, inserted⟩ := s
    rw [ownEdits] at h
    rcases hord with ⟨hc, hse, hrest⟩
    have hstop : edit.range.stop ≤ (text root).length := hrest.le
    simp only [Edit.toSplice] at hc hse
    cases h1 : checkedAdd c' (edit.range.start - c) with
    | none => simp [h1] at h
    | some start =>
      simp only [h1] at h
      cases h2 : checkedAdd start edit.insert.length with
      | none => simp [h2] at h
      | some stop =>
        simp only [h2] at h
        cases h3 : ownEdits root edit.range.stop stop rest with
        | error e => simp [h3] at h
        | ok owned' =>
          simp only [h3] at h
          obtain rfl := Except.ok.inj h
          obtain ⟨-, rfl⟩ := checkedAdd_eq_some.mp h1
          obtain ⟨-, rfl⟩ := checkedAdd_eq_some.mp h2
          obtain ⟨hwf, htext⟩ := hstaged _ List.mem_cons_self
          simp only at hwf htext
          obtain ⟨hw, hf, hb⟩ := ih (fun s hs => hstaged s (List.mem_cons_of_mem _ hs)) hrest h3
          obtain ⟨hslice, hsliceText⟩ := slice_spec hroot edit.range
          have hinv : (text (slice root edit.range)).length =
              edit.range.stop - edit.range.start := by
            rw [hsliceText, Range.of_length, Nat.min_eq_left hstop]
          refine ⟨List.forall_mem_cons.mpr ⟨⟨hslice, hwf, ?_, ?_⟩, hw⟩, ?_, ?_⟩
          · simp only [hinv]; omega
          · simp only [htext]
          · simp only [List.map_cons, hf, OwnedEdit.forward, Splice.toChange, Edit.toSplice,
              hsliceText, htext, Range.of, Nat.sub_zero]
          · have hcur : (OwnedEdit.forward ⟨edit.range,
                ⟨c' + (edit.range.start - c), c' + (edit.range.start - c) + edit.insert.length⟩,
                slice root edit.range, inserted⟩).stop = edit.range.stop := by
              simp only [OwnedEdit.forward, Change.stop, hinv]
              omega
            simp only [List.map_cons, inverseFrom, hcur, hb]
            simp only [OwnedEdit.forward, OwnedEdit.backward, htext, Edit.toSplice]

/-- One step of the loop replaces the edit's range by the inserted text. -/
theorem spliceRoot_spec {root inserted : Root} {edit : Edit} (single : Bool) (heap : Heap)
    (hroot : RootWf .resident root) (hins : RootWf .resident inserted)
    (hse : edit.range.start ≤ edit.range.stop) (hlen : edit.range.stop ≤ (text root).length) :
    RootWf .resident (spliceRoot single (edit, inserted) (root, heap)).1 ∧
      text (spliceRoot single (edit, inserted) (root, heap)).1 =
        (text root).take edit.range.start ++ text inserted ++ (text root).drop edit.range.stop := by
  obtain ⟨⟨hlw, hlt⟩, hrw, hrt⟩ := split_spec hroot edit.range.stop hlen
  obtain ⟨⟨hsw, hst⟩, -⟩ := split_spec hlw edit.range.start
    (by rw [hlt, List.length_take]; omega)
  rw [hlt, List.take_take, Nat.min_eq_left hse] at hst
  rw [spliceRoot]
  dsimp only
  split_ifs
  · obtain ⟨hcw, hct⟩ := concatCoalesced_spec hsw hins TYPED_LEAF_BYTES heap
    exact ⟨concat_wf hcw hrw, by rw [concat_text, hct, hst, hrt]⟩
  · exact ⟨concat_wf (concat_wf hsw hins) hrw, by rw [concat_text, concat_text, hst, hrt]⟩

/-- The right-to-left loop applies the splices one by one. -/
theorem foldr_spliceRoot_spec {root : Root} (hroot : RootWf .resident root) (single : Bool)
    (heap : Heap) {staged : List (Edit × Root)} {c : Nat}
    (hstaged : ∀ s ∈ staged, RootWf .resident s.2 ∧ text s.2 = s.1.insert)
    (hord : Ordered c (staged.map fun s => s.1.toSplice) (text root).length) :
    RootWf .resident (staged.foldr (spliceRoot single) (root, heap)).1 ∧
      text (staged.foldr (spliceRoot single) (root, heap)).1 =
        (staged.map fun s => s.1.toSplice).foldr Splice.apply (text root) ∧
      ∃ s, text (staged.foldr (spliceRoot single) (root, heap)).1 = (text root).take c ++ s := by
  induction staged generalizing c with
  | nil => exact ⟨hroot, rfl, (text root).drop c, (List.take_append_drop c _).symm⟩
  | cons s rest ih =>
    rcases hord with ⟨hc, hse, hrest⟩
    have hlen : s.1.range.stop ≤ (text root).length := hrest.le
    obtain ⟨hins, htext⟩ := hstaged s List.mem_cons_self
    obtain ⟨hw, ht, tail, htail⟩ := ih (fun s hs => hstaged s (List.mem_cons_of_mem _ hs)) hrest
    simp only [List.foldr_cons, List.map_cons]
    generalize rest.foldr (spliceRoot single) (root, heap) = state at *
    have hin : s.1.range.stop ≤ (text state.1).length := by
      rw [htail, List.length_append, List.length_take]
      simp only [Edit.toSplice]
      omega
    have hstep := spliceRoot_spec single state.2 hw hins hse hin
    refine ⟨hstep.1, ?_, ?_⟩
    · rw [hstep.2, ← ht, Splice.apply, htext]
      rfl
    · have hfront : (text state.1).take s.1.range.start = (text root).take s.1.range.start := by
        rw [htail, List.take_append_of_le_length (by
          rw [List.length_take]; simp only [Edit.toSplice] at hse ⊢; omega), List.take_take]
        congr 1
        exact Nat.min_eq_left hse
      have hc' : c ≤ s.1.range.start := hc
      have hcut : (text root).take s.1.range.start =
          (text root).take c ++ ((text root).take s.1.range.start).drop c := by
        conv_lhs => rw [← List.take_append_drop c ((text root).take s.1.range.start)]
        rw [List.take_take, Nat.min_eq_left hc']
      rw [hstep.2, hfront, hcut, List.append_assoc, List.append_assoc]
      exact ⟨_, rfl⟩

/-- What a staged edit promises: the reference splice, a faithful entry and its receipt. -/
structure Staged (env : Env) (d : Document) (tr : EditTransaction) (p : PreparedEdit) :
    Prop where
  base : tr.baseRevision = d.current.revision
  checked : checkEdits d.current none (sortEdits tr.edits) = .ok ()
  ordered : Ordered 0 ((sortEdits tr.edits).map Edit.toSplice) d.current.text.length
  revision : d.nextRevision = .ok p.revision
  entry : p.entry = d.stagedEntry env p.entry.after p.entry.edits
  ids : p.documentId = d.current.documentId ∧ p.baseRevision = d.current.revision ∧
    p.tracked = false
  after_wf : RootWf .resident p.entry.after
  after_text : text p.entry.after =
    splice ((sortEdits tr.edits).map Edit.toSplice) d.current.text
  rewrites : Rewrites .resident p.entry.edits d.current.text (text p.entry.after)
  change : p.change = ⟨d.current.documentId, d.current.revision, p.revision,
    d.current.contentState, env.contentState, .edit,
    p.entry.edits.map (OwnedEdit.compact .edit)⟩
  single : ∀ e, tr.edits = [e] → ∃ o, p.entry.edits = [o] ∧ o.beforeRange = e.range ∧
    o.afterRange = ⟨e.range.start, e.range.start + e.insert.length⟩ ∧
    e.range.start + e.insert.length ≤ usizeMax

theorem Document.checkTransaction_ok {d : Document} {tr : EditTransaction} {es : List Edit}
    (h : d.checkTransaction tr = .ok es) :
    tr.baseRevision = d.current.revision ∧ tr.edits ≠ [] ∧ es = sortEdits tr.edits ∧
      checkEdits d.current none es = .ok () ∧ ∃ revision, d.nextRevision = .ok revision := by
  rw [checkTransaction] at h
  split_ifs at h with hbase hempty
  cases hcheck : checkEdits d.current none (sortEdits tr.edits) with
  | error e => simp [hcheck] at h
  | ok u =>
    simp only [hcheck] at h
    cases hrev : d.nextRevision with
    | error e => simp [hrev, Except.map] at h
    | ok revision =>
      obtain rfl : sortEdits tr.edits = es := by simpa [hrev, Except.map] using h
      exact ⟨Decidable.not_not.mp hbase, by simpa using hempty, rfl, hcheck, revision, rfl⟩

theorem AppliedChange.owned_ok {sizes : Layout} {documentId beforeRevision afterRevision
    beforeState afterState : Nat} {direction : ChangeDirection} {edits : List OwnedEdit}
    {heap heap' : Heap} {change : AppliedChange}
    (h : AppliedChange.owned sizes documentId beforeRevision afterRevision beforeState afterState
      direction edits heap = .ok (change, heap')) :
    change = ⟨documentId, beforeRevision, afterRevision, beforeState, afterState, direction,
      edits.map (OwnedEdit.compact direction)⟩ := by
  rw [AppliedChange.owned] at h
  cases hbytes : receiptBytes sizes edits.length with
  | none => simp [hbytes] at h
  | some bytes =>
    simp only [hbytes] at h
    cases hres : heap.reserve bytes with
    | error e => simp [hres, Except.map] at h
    | ok heap₁ =>
      rw [hres] at h
      exact (Prod.mk.inj (Except.ok.inj h)).1.symm

@[simp] theorem sortEdits_single (e : Edit) : sortEdits [e] = [e] := rfl

@[simp] theorem stagedEdits_single (root : Root) (e : Edit) : stagedEdits root [e] = [e] := rfl

/-- The owned edit of a single edit has the edit's own range. -/
theorem ownEdits_single {root : Root} {e : Edit} {inserts : List Root} {owned : List OwnedEdit}
    (hlen : inserts.length = 1) (h : ownEdits root 0 0 ([e].zip inserts) = .ok owned) :
    ∃ o, owned = [o] ∧ o.beforeRange = e.range ∧
      o.afterRange = ⟨e.range.start, e.range.start + e.insert.length⟩ ∧
      e.range.start + e.insert.length ≤ usizeMax := by
  obtain ⟨inserted, rfl⟩ := List.length_eq_one_iff.mp hlen
  simp only [List.zip_cons_cons, List.zip_nil_left, ownEdits, Nat.sub_zero] at h
  cases h1 : checkedAdd 0 e.range.start with
  | none => simp [h1] at h
  | some start =>
    simp only [h1] at h
    cases h2 : checkedAdd start e.insert.length with
    | none => simp [h2] at h
    | some stop =>
      simp only [h2] at h
      obtain ⟨-, rfl⟩ := checkedAdd_eq_some.mp h1
      obtain ⟨hmax, rfl⟩ := checkedAdd_eq_some.mp h2
      obtain rfl := Except.ok.inj h
      simp only [Nat.zero_add] at hmax ⊢
      exact ⟨_, rfl, rfl, rfl, hmax⟩

/-- Staging, whichever path it takes. -/
theorem Document.stage_spec {env : Env} {d : Document} {tr : EditTransaction}
    {p : PreparedEdit} {heap : Heap} (hroot : RootWf .resident d.current.root)
    (h : d.stage env tr = .ok (p, heap)) : Staged env d tr p := by
  simp only [stage, bind_ok] at h
  obtain ⟨sorted, hcheck, revision, hrev, ⟨inserts, heap₁⟩, hins, owned, hown, h⟩ := h
  dsimp only at h
  obtain ⟨⟨change, heap₂⟩, hchange, h⟩ := h
  obtain ⟨rfl, -⟩ := Prod.mk.inj (Except.ok.inj h)
  obtain ⟨hbase, -, rfl, hedits, -⟩ := checkTransaction_ok hcheck
  have hord : Ordered 0 ((sortEdits tr.edits).map Edit.toSplice) (text d.current.root).length := by
    rw [← hroot.bytes]
    exact checkEdits_ordered none (fun _ hp => nomatch hp) hedits
  obtain ⟨hsord, hsplice⟩ := stagedEdits_spec hroot hord
  generalize hes : stagedEdits d.current.root (sortEdits tr.edits) = es at *
  obtain ⟨hlen, hfst, hstaged⟩ := stageInserts_zip hins
  have hmap : (es.zip inserts).map (fun s => s.1.toSplice) = es.map Edit.toSplice :=
    (List.map_map (f := Prod.fst) (g := Edit.toSplice)).symm.trans (by rw [hfst])
  rw [← hmap] at hsord
  obtain ⟨howf, hforward, hbackward⟩ := ownEdits_spec hroot hstaged hsord hown
  obtain ⟨hawf, hatext, -⟩ := foldr_spliceRoot_spec hroot (es.length == 1) heap₁
    hstaged hsord
  have hafter := hatext.trans (foldr_apply_eq_splice hsord)
  have hpatch : Patch 0 (owned.map OwnedEdit.forward) (text d.current.root)
      (text ((es.zip inserts).foldr (spliceRoot (es.length == 1)) (d.current.root, heap₁)).1) := by
    rw [hforward, hafter]
    have := patch_spliceFrom (c := 0) (t := text d.current.root) (by rw [Nat.zero_add]; exact hsord)
    rw [List.map_map] at this
    exact this
  refine ⟨hbase, hedits, hord, hrev, rfl, ⟨rfl, rfl, rfl⟩, hawf, ?_, ⟨howf, hpatch, hbackward⟩,
    AppliedChange.owned_ok hchange, ?_⟩
  · exact hafter.trans (by rw [hmap]; exact hsplice)
  · intro e he
    rw [he, sortEdits_single, stagedEdits_single] at hes
    subst hes
    exact ownEdits_single hlen hown

end BareLine
