import BareLine.Document.Relief

/-!
# The operations of a resident document

`apply`, `apply_with_metadata`, `apply_metadata`, `undo` and `redo`, with the relief they
call as a parameter, and the operations that only set policy.  A call that may fail returns
its answer next to the document it leaves behind, since relief may have dropped history
before the failure.

While an edit waits for history budget it yields to worker threads, so it sees a sequence
of environments, one for each relief pass.
-/

namespace BareLine

open Lib BareLine.Tree

/-- `relieve: &mut dyn FnMut(&mut Document, Demand)` -/
abbrev Relief := Env → Document → Demand → Document

/-- `RELIEF_PASSES` -/
def RELIEF_PASSES : Nat := 4

/-- `NODES_PER_EDIT` -/
def NODES_PER_EDIT : Nat := 4

/-- `NODE_BYTES` -/
def nodeBytes (sizes : Layout) : Nat := sizes.node + 2 * sizes.usize

namespace Document

/-! ## §1 Admitting history -/

/-- `Document::entry_charge` -/
def entryCharge (env : Env) (d : Document) (edits : List OwnedEdit) : Nat :=
  let nodes := saturatingAdd (saturatingMul (height d.current.root) 3)
    (saturatingMul edits.length NODES_PER_EDIT)
  saturatingAdd (saturatingMul nodes (nodeBytes env.layout))
    (saturatingMul edits.length env.layout.ownedEdit)

/-- `Document::edit_demand` -/
def editDemand (env : Env) (d : Document) (p : PreparedEdit) (selections : Nat) : Demand :=
  .edit (saturatingAdd (d.entryCharge env p.entry.edits)
    (saturatingMul selections env.layout.selection))

/-- `Document::charge` -/
def charge (env : Env) (d : Document) (p : PreparedEdit) (selections : Nat) :
    Option PreparedEdit :=
  let available := env.historyAvailable d
  let selected := saturatingMul selections env.layout.selection
  let claims := if selections > 0 then [selected] else []
  let structureBytes := d.entryCharge env p.entry.edits
  if claims.sum ≤ available ∧ claims.sum + structureBytes ≤ available then
    some { p with
      entry := { p.entry with undoReservation := claims, structureCharge := some structureBytes }
      tracked := true }
  else none

/-- One attempt of `Document::admit`: an undo slot, then the charge. -/
def tryAdmit (env : Env) (d : Document) (p : PreparedEdit) (selections : Nat) :
    Document × Option PreparedEdit :=
  match d.undo.tryReserve env.layout.history (env.historyAvailable d) 1 with
  | .error _ => (d, none)
  | .ok undo =>
    let d := { d with undo := undo }
    (d, d.charge env p selections)

theorem tryAdmit_fst (env : Env) (d : Document) (p : PreparedEdit) (selections : Nat) :
    Evicts d (d.tryAdmit env p selections).1 := by
  rw [tryAdmit]
  cases hres : d.undo.tryReserve env.layout.history (env.historyAvailable d) 1 with
  | error e => exact Evicts.refl d
  | ok undo => exact ⟨⟨0, (HistoryStack.tryReserve_ok hres).1⟩, ⟨0, rfl⟩, rfl⟩

/-- The end of `Document::admit`'s loop: the document's own oldest entries give way, one at a time. -/
def admitEvicting (env : Env) (d : Document) (p : PreparedEdit) (selections : Nat) :
    Document × PreparedEdit :=
  match _h : d.tryAdmit env p selections with
  | (d', some charged) => (d', charged)
  | (d', none) =>
    match _h' : d'.evictOldestEntry env (0, 0) false with
    | none => (d', p)
    | some (_, d'') => admitEvicting env d'' p selections
termination_by d.historyLength
decreasing_by
  obtain ⟨_, -, hlt⟩ := evictOldestEntry_some _h'
  have hev := tryAdmit_fst env d p selections
  rw [_h] at hev
  exact Nat.lt_of_lt_of_le hlt hev.historyLength_le

/-- The passes of `Document::admit` that ask `relieve` once more; `worlds` is what each pass sees. -/
def admitPasses (relieve : Relief) (worlds : Nat → Env) (demand : Demand) (selections : Nat) :
    Nat → Nat → Document → PreparedEdit → Document × PreparedEdit
  | 0, pass, d, p => admitEvicting (worlds pass) d p selections
  | more + 1, pass, d, p =>
    match d.tryAdmit (worlds pass) p selections with
    | (d, some charged) => (d, charged)
    | (d, none) =>
      admitPasses relieve worlds demand selections more (pass + 1)
        (relieve (worlds (pass + 1)) d demand) p

/-- `Document::admit` -/
def admitEntry (relieve : Relief) (worlds : Nat → Env) (d : Document) (p : PreparedEdit)
    (selections : Nat) : Document × PreparedEdit :=
  let demand := d.editDemand (worlds 0) p selections
  admitPasses relieve worlds demand selections (RELIEF_PASSES - 1) 0
    (relieve (worlds 0) d demand) p

/-! ## §2 Committing -/

/-- Whether a tracked edit extends the typing run of the last undo entry. -/
def merges (d : Document) (last entry : History) : Bool :=
  last.group.isNone && entry.group.isNone && last.typingInsert && entry.typingInsert &&
    last.afterState == entry.beforeState && last.afterState != d.savedState &&
    entry.metadata.follows last.metadata d.historyPolicy.typingIntervalMs

/-- The merged edit: the run's text grows by the new text.  Both entries hold exactly one
edit; the source indexes it. -/
def mergeEdits (heap : Heap) : List OwnedEdit → List OwnedEdit → List OwnedEdit
  | old :: rest, new :: _ =>
    { old with
      inserted := (concatCoalesced old.inserted new.inserted TYPED_LEAF_BYTES heap).1
      afterRange := ⟨old.afterRange.start, new.afterRange.stop⟩ } :: rest
  | edits, _ => edits

/-- The last undo entry after a typing merge. -/
def mergeEntry (heap : Heap) (last entry : History) : History :=
  { last with
    after := entry.after
    afterState := entry.afterState
    metadata := { last.metadata with
      after := entry.metadata.after
      monotonicMs := entry.metadata.monotonicMs }
    edits := mergeEdits heap last.edits entry.edits
    undoReservation := entry.undoReservation
    structureCharge := entry.structureCharge }

/-- The snapshot a committed edit publishes. -/
def published (d : Document) (p : PreparedEdit) : DocumentSnapshot :=
  { d.current with
    appliedChange := some p.change
    root := p.entry.after
    contentState := p.entry.afterState
    revision := p.revision }

/-- `Document::commit_prepared_unchecked`; `next` is the allocator's next segment. -/
def commitPreparedUnchecked (env : Env) (next : Nat) (d : Document) (p : PreparedEdit) :
    Document :=
  let d := { d with
    current := d.published p
    redo := d.redo.clear
    lastUntracked := !p.tracked }
  if p.tracked = false then { d with undo := d.undo.clear, lastMerged := false }
  else
    let pushed := { d with undo := d.undo.push p.entry, lastMerged := false }
    match d.undo.entries.getLast? with
    | some last =>
      if d.merges last p.entry then
        let heap := { env.heap pushed with next := next }
        trimHistory { d with
          undo := { d.undo with
            entries := d.undo.entries.dropLast ++ [mergeEntry heap last p.entry] }
          lastMerged := true }
      else pushed.trimHistory
    | none => pushed.trimHistory

/-- `Document::validate_prepared` -/
def validatePrepared (d : Document) (p : PreparedEdit) : Except Error Unit :=
  if p.documentId ≠ d.current.documentId then .error .wrongDocument
  else if p.baseRevision ≠ d.current.revision then .error .staleRevision
  else .ok ()

/-! ## §3 Applying -/

/-- `Document::text_need` -/
def textNeed (sizes : Layout) (edits : List Edit) : Nat :=
  saturatingAdd
    (saturatingAdd (edits.foldl (fun sum e => saturatingAdd sum e.insert.length) 0)
      (saturatingMul edits.length sizes.compactEdit))
    (sizes.appliedChange + 2 * sizes.usize)

/-- Length of the text after `edits`, as `relieve_text` estimates it. -/
def lengthAfter (d : Document) (edits : List Edit) : Nat :=
  let removed := edits.foldl (fun sum e => saturatingAdd sum (e.range.stop - e.range.start)) 0
  let inserted := edits.foldl (fun sum e => saturatingAdd sum e.insert.length) 0
  saturatingAdd (d.current.len - removed) inserted

/-- The selections before the edit sit on boundaries of the current text. -/
def beforeBoundaries (d : Document) (m : EditMetadata) : Bool :=
  m.before.all fun s => d.current.isBoundary s.anchor && d.current.isBoundary s.caret

/-- The selections after the edit sit on boundaries of the staged text. -/
def afterBoundaries (root : Root) (m : EditMetadata) : Bool :=
  m.after.all fun s => boundary root s.anchor && boundary root s.caret

/-- The checks of `relieve_text` before it may evict anything. -/
def reliefChecks (d : Document) (tr : EditTransaction) (metadata : Option EditMetadata) :
    Except Error Unit :=
  match d.checkTransaction tr with
  | .error e => .error e
  | .ok edits =>
    match metadata with
    | none => .ok ()
    | some m =>
      match m.validate d.current.len (d.lengthAfter edits) with
      | .error e => .error e
      | .ok () => if d.beforeBoundaries m then .ok () else .error .invalidBoundary

/-- `Document::relieve_text` -/
def relieveText (relieve : Relief) (env : Env) (d : Document) (tr : EditTransaction)
    (metadata : Option EditMetadata) : Except Error Document :=
  let demand := Demand.text (textNeed env.layout tr.edits)
  if d.lacksRoom env demand then
    match d.reliefChecks tr metadata with
    | .error e => .error e
    | .ok () => .ok (relieve env d demand)
  else .ok d

/-- The typing shape: one nonempty insertion at a caret that ends behind it. -/
def typingInsert (tr : EditTransaction) (m : EditMetadata) : Bool :=
  match tr.edits, m.before, m.after with
  | [e], [before], [after] =>
    e.range.isEmpty && !e.insert.isEmpty && before.anchor == before.caret &&
      before.caret == e.range.start && after.anchor == after.caret &&
      after.caret == saturatingAdd e.range.start e.insert.length
  | _, _, _ => false

/-- What `apply_with_metadata` checks once the edit is staged. -/
def metadataChecks (d : Document) (p : PreparedEdit) (m : EditMetadata) : Except Error Unit :=
  match m.validate d.current.len (summary p.entry.after).bytes with
  | .error e => .error e
  | .ok () =>
    if !d.beforeBoundaries m then .error .invalidBoundary
    else if !afterBoundaries p.entry.after m then .error .invalidBoundary
    else .ok ()

/-- Everything after staging: admission and commit. -/
def finish (relieve : Relief) (worlds : Nat → Env) (next : Nat) (d : Document)
    (p : PreparedEdit) (metadata : Option (EditMetadata × Bool)) :
    Except Error Nat × Document :=
  let selections := metadata.elim 0 fun m => saturatingAdd m.1.before.length m.1.after.length
  let (d, p) := d.admitEntry relieve worlds p selections
  let p := match metadata with
    | some (m, typing) => { p with entry := { p.entry with metadata := m, typingInsert := typing } }
    | none => p
  match d.validatePrepared p with
  | .error e => (.error e, d)
  | .ok () => (.ok p.revision, commitPreparedUnchecked (worlds 0) next d p)

/-- `Document::apply_relieved` once the demands that need no staging are met. -/
def applyStaged (relieve : Relief) (worlds : Nat → Env) (d : Document) (tr : EditTransaction)
    (metadata : Option EditMetadata) : Except Error Nat × Document :=
  match d.relieveText relieve (worlds 0) tr metadata with
  | .error e => (.error e, d)
  | .ok d =>
    match d.stage (worlds 0) tr with
    | .error e => (.error e, d)
    | .ok (p, heap) =>
      match metadata with
      | none => d.finish relieve worlds heap.next p none
      | some m =>
        match d.metadataChecks p m with
        | .error e => (.error e, d)
        | .ok () => d.finish relieve worlds heap.next p (some (m, typingInsert tr m))

/-- `Document::apply_relieved` -/
def applyRelieved (relieve : Relief) (worlds : Nat → Env) (d : Document) (tr : EditTransaction)
    (metadata : Option EditMetadata) : Except Error Nat × Document :=
  match metadata with
  | none =>
    if tr.baseRevision ≠ d.current.revision then (.error .staleRevision, d)
    else if tr.edits.isEmpty then (.ok d.current.revision, d)
    else d.applyStaged relieve worlds tr none
  | some m => d.applyStaged relieve worlds tr (some m)

/-- The relief a document uses on its own. -/
def ownRelief : Relief := fun env d demand => d.relieveHistory env demand

/-- `Document::apply` -/
def apply (worlds : Nat → Env) (d : Document) (tr : EditTransaction) :
    Except Error Nat × Document :=
  d.applyRelieved ownRelief worlds tr none

/-- `Document::apply_with_metadata` -/
def applyWithMetadata (worlds : Nat → Env) (d : Document) (tr : EditTransaction)
    (m : EditMetadata) : Except Error Nat × Document :=
  d.applyRelieved ownRelief worlds tr (some m)

/-- `Document::apply_metadata_relieved` -/
def applyMetadataRelieved (relieve : Relief) (env : Env) (d : Document) (baseRevision : Nat)
    (metadata : DocumentMetadata) : Except Error Nat × Document :=
  if baseRevision ≠ d.current.revision then (.error .staleRevision, d)
  else if metadata = d.current.metadata then (.ok baseRevision, d)
  else match d.nextRevision with
    | .error e => (.error e, d)
    | .ok revision =>
      match AppliedChange.owned env.layout d.current.documentId d.current.revision revision
          d.current.contentState env.contentState .edit [] (env.heap d) with
      | .error e => (.error e, d)
      | .ok (change, _) =>
        let entryBytes := saturatingAdd metadata.charge 128
        let d := relieve env d (.edit entryBytes)
        let available := env.historyAvailable d
        if entryBytes ≤ available then
          match d.undo.tryReserve env.layout.history (available - entryBytes) 1 with
          | .error _ => (.error .budgetExceeded, d)
          | .ok undo =>
            let entry : History := {
              beforeMetadata := d.current.metadata
              afterMetadata := metadata
              before := d.current.root
              after := d.current.root
              beforeState := d.current.contentState
              afterState := env.contentState
              undoReservation := [entryBytes]
              structureCharge := none
              sequence := env.sequence
              edits := []
              group := none
              metadata := EditMetadata.default
              typingInsert := false }
            let d := { d with
              undo := undo.push entry
              redo := d.redo.clear
              current := { d.current with
                appliedChange := some change
                metadata := metadata
                revision := revision
                contentState := env.contentState } }
            (.ok revision, d.trimHistory)
        else (.error .budgetExceeded, d)

/-- `Document::apply_metadata` -/
def applyMetadata (env : Env) (d : Document) (baseRevision : Nat) (metadata : DocumentMetadata) :
    Except Error Nat × Document :=
  d.applyMetadataRelieved ownRelief env baseRevision metadata

/-! ## §4 Undo and redo -/

/-- The next entry waits for its group. -/
def linkedEntry (entry : Option History) : Bool :=
  (entry.bind History.group).any GroupTag.linked

/-- Clear the typing flag of the last entry. -/
def endTyping (entries : List History) : List History :=
  match entries.getLast? with
  | some previous => entries.dropLast ++ [{ previous with typingInsert := false }]
  | none => entries

/-- The document once `entry`, its last undo entry, is taken back. -/
def undone (d : Document) (entry : History) (change : AppliedChange) (revision : Nat) :
    Document :=
  { d with
    undo := { d.undo with entries := endTyping d.undo.entries.dropLast }
    redo := d.redo.push { entry with typingInsert := false }
    current := { d.current with
      appliedChange := some change
      metadata := entry.beforeMetadata
      root := entry.before
      contentState := entry.beforeState
      revision := revision } }

/-- The document once `entry`, its last redo entry, is made again. -/
def redone (d : Document) (entry : History) (change : AppliedChange) (revision : Nat) :
    Document :=
  { d with
    undo := d.undo.push { entry with typingInsert := false }
    redo := { d.redo with entries := d.redo.entries.dropLast }
    current := { d.current with
      appliedChange := some change
      metadata := entry.afterMetadata
      root := entry.after
      contentState := entry.afterState
      revision := revision } }

/-- `Document::undo_relieved` -/
def undoRelieved (relieve : Relief) (env : Env) (d : Document) : Except Error Nat × Document :=
  if linkedEntry d.undo.entries.getLast? then (.error .linkedUndoRequired, d)
  else match d.nextRevision with
    | .error e => (.error e, d)
    | .ok revision =>
      if d.undo.entries.isEmpty then (.error .emptyHistory, d)
      else
        let d := relieve env d .undo
        match d.redo.tryReserve env.layout.history (env.historyAvailable d) 1 with
        | .error e => (.error e, d)
        | .ok redo =>
          let d := { d with redo := redo }
          match d.undo.entries.getLast? with
          | none => (.error .emptyHistory, d)
          | some entry =>
            match AppliedChange.owned env.layout d.current.documentId d.current.revision
                revision d.current.contentState entry.beforeState .undo entry.edits
                (env.heap d) with
            | .error e => (.error e, d)
            | .ok (change, _) =>
              (.ok revision, d.undone entry change revision)

/-- `Document::redo_relieved` -/
def redoRelieved (relieve : Relief) (env : Env) (d : Document) : Except Error Nat × Document :=
  if linkedEntry d.redo.entries.getLast? then (.error .linkedUndoRequired, d)
  else match d.nextRevision with
    | .error e => (.error e, d)
    | .ok revision =>
      if d.redo.entries.isEmpty then (.error .emptyHistory, d)
      else
        let d := relieve env d .redo
        match d.undo.tryReserve env.layout.history (env.historyAvailable d) 1 with
        | .error e => (.error e, d)
        | .ok undo =>
          let d := { d with undo := undo }
          match d.redo.entries.getLast? with
          | none => (.error .emptyHistory, d)
          | some entry =>
            match AppliedChange.owned env.layout d.current.documentId d.current.revision
                revision d.current.contentState entry.afterState .redo entry.edits
                (env.heap d) with
            | .error e => (.error e, d)
            | .ok (change, _) =>
              (.ok revision, d.redone entry change revision)

/-! ## §5 Policy and opening -/

/-- `Document::undo` -/
def undoStep (env : Env) (d : Document) : Except Error Nat × Document :=
  d.undoRelieved ownRelief env

/-- `Document::redo` -/
def redoStep (env : Env) (d : Document) : Except Error Nat × Document :=
  d.redoRelieved ownRelief env

/-- `Document::clear_history` -/
def clearHistory (d : Document) : Document :=
  { d with undo := d.undo.clear, redo := d.redo.clear }

/-- `Document::set_history_policy` -/
def setHistoryPolicy (d : Document) (policy : HistoryPolicy) : Document :=
  trimHistory { d with historyPolicy := policy }

/-- `Document::mark_saved_state` -/
def markSavedState (d : Document) (state : Nat) : Document := { d with savedState := state }

/-- `Document::mark_saved` -/
def markSaved (d : Document) (captured : DocumentSnapshot) : Except Error Unit × Document :=
  if captured.complete = false then (.error .incompleteSource, d)
  else if captured.documentId ≠ d.current.documentId then (.error .wrongDocument, d)
  else (.ok (), { d with savedState := captured.contentState })

/-- `Document::dirty` -/
def dirty (d : Document) : Bool := d.current.contentState != d.savedState

/-- `Document::initialize_metadata` -/
def initializeMetadata (d : Document) (metadata : DocumentMetadata) :
    Except Error Unit × Document :=
  if d.dirty || !d.undo.entries.isEmpty || !d.redo.entries.isEmpty then (.error .actorBusy, d)
  else (.ok (), { d with current := { d.current with metadata := metadata } })

/-- A document without history. -/
def opened (root : Root) (metadata : DocumentMetadata) (documentId state : Nat) : Document where
  current := ⟨none, metadata, root, 0, state, documentId, true⟩
  savedState := state
  historyPolicy := HistoryPolicy.default
  undo := HistoryStack.empty
  redo := HistoryStack.empty
  lastMerged := false
  lastUntracked := false

/-- `Document::from_utf8`; the heap is the byte budget it is opened with. -/
def fromUtf8 (heap : Heap) (documentId state : Nat) (text : Bytes) : Except Error Document :=
  (fromText text heap).map fun (root, _) =>
    opened root DocumentMetadata.default documentId state

/-- `Document::fork_from_snapshot` -/
def forkFromSnapshot (snapshot : DocumentSnapshot) (documentId state : Nat) :
    Except Error Document :=
  if snapshot.complete then .ok (opened snapshot.root snapshot.metadata documentId state)
  else .error .incompleteSource

/-- `DocumentBuilder::append` -/
def append (heap : Heap) (state : Nat) (d : Document) (text : Bytes) : Except Error Document := do
  let (suffix, _) ← fromText text heap
  let revision ← d.nextRevision
  .ok { d with current := { d.current with
    root := concat d.current.root suffix
    revision := revision
    contentState := state } }

/-- `DocumentBuilder::finish` -/
def finishBuilder (d : Document) : Document := { d with savedState := d.current.contentState }

end Document

end BareLine
