import BareLine.GroupRecovery.Types

/-!
# Operations on a recovery root

Every operation may fail, before or after its effect, and a run may end before any of them.
What a failed write leaves in its file is arbitrary; a publication either happened or not.
-/

namespace BareLine.GroupRecovery

open Lib

/-! ## §1 Operations, and the world that answers them -/

/-- The files of a journal directory that group commits read or write. -/
structure Folder where
  /-- `paged-group.json` -/
  pointer : Option Pointer
  /-- `group-{id}.intent.json` -/
  intent : Nat → Option RootReceipt
  asset : AssetName → Option Bytes

/-- A directory that was just created. -/
def Folder.new : Folder := ⟨none, fun _ => none, fun _ => none⟩

/-- The files, and what the live journals keep in memory. -/
structure World where
  folder : Directory → Folder
  /-- `group-{id}.commit.json` of a recovery root. -/
  marker : String → Nat → Option Marker
  journal : Directory → Journal

inductive Op where
  /-- What only succeeds or fails: locks, guards, quotas, cancellation, flushing. -/
  | attempt
  | memory (directory : Directory)
  | assign (directory : Directory) (journal : Journal)
  | createNew (directory : Directory) (name : AssetName)
  | append (directory : Directory) (name : AssetName) (content : Bytes)
  | readBack (directory : Directory) (name : AssetName)
  | tryExists (directory : Directory) (name : AssetName)
  | publishReceipt (directory : Directory) (name : AssetName) (content : Bytes)
  | remove (directory : Directory) (name : AssetName)
  | publishIntent (directory : Directory) (id : Nat) (receipt : RootReceipt)
  | pointerExists (directory : Directory)
  | readPointer (directory : Directory)
  | publishPointer (directory : Directory) (pointer : Pointer)
  | markerExists (parent : String) (id : Nat)
  | publishMarker (parent : String) (id : Nat) (marker : Marker)

def Op.Answer : Op → Type
  | attempt | createNew _ _ | append _ _ _ | publishReceipt _ _ _ | remove _ _
  | publishIntent _ _ _ | publishPointer _ _ | publishMarker _ _ _ => Except String Unit
  | memory _ => Journal
  | assign _ _ => Unit
  | readBack _ _ => Except String Bytes
  | tryExists _ _ => Except String Bool
  | pointerExists _ | markerExists _ _ => Bool
  | readPointer _ => Except String Pointer

namespace World

variable (w : World) (d : Directory)

def setFolder (folder : Folder) : World :=
  { w with folder := Function.update w.folder d folder }

def setAsset (name : AssetName) (content : Option Bytes) : World :=
  w.setFolder d
    { w.folder d with asset := Function.update (w.folder d).asset name content }

def setIntent (id : Nat) (receipt : RootReceipt) : World :=
  w.setFolder d { w.folder d with intent := Function.update (w.folder d).intent id (some receipt) }

def setPointer (pointer : Pointer) : World :=
  w.setFolder d { w.folder d with pointer := some pointer }

def setMarker (parent : String) (id : Nat) (marker : Marker) : World :=
  { w with
    marker := Function.update w.marker parent
      (Function.update (w.marker parent) id (some marker)) }

def setJournal (journal : Journal) : World :=
  { w with journal := Function.update w.journal d journal }

end World

/-- The answers of an operation that publishes: an error leaves open whether it did. -/
def published (w after : World) (answer : Except String Unit) (w' : World) : Prop :=
  (answer = .ok () ∧ w' = after) ∨ ∃ error, answer = .error error ∧ (w' = w ∨ w' = after)

/-- How the file system and the memory answer.  `Path::exists` also answers `false` when the
query fails, if queries may fail. -/
def machine (queriesFail : Prop) : Machine Op Op.Answer World := fun w op =>
  match op with
  | .attempt => fun _ w' => w' = w
  | .memory d => fun answer w' => answer = w.journal d ∧ w' = w
  | .assign d journal => fun _ w' => w' = w.setJournal d journal
  | .createNew d name => fun answer w' =>
    ((w.folder d).asset name = none ∧ published w (w.setAsset d name (some [])) answer w') ∨
      ∃ error, answer = .error error ∧ w' = w
  | .append d name content => fun answer w' =>
    (answer = .ok () ∧
      w' = w.setAsset d name (((w.folder d).asset name).map fun before => before ++ content)) ∨
      ∃ error torn, answer = .error error ∧ w' = w.setAsset d name torn
  | .readBack d name => fun answer w' =>
    ((∃ content, answer = .ok content ∧ (w.folder d).asset name = some content) ∨
      ∃ error, answer = .error error) ∧ w' = w
  | .tryExists d name => fun answer w' =>
    (answer = .ok ((w.folder d).asset name).isSome ∨ ∃ error, answer = .error error) ∧ w' = w
  | .publishReceipt d name content => fun answer w' =>
    published w (w.setAsset d name (some content)) answer w'
  | .remove d name => fun answer w' => published w (w.setAsset d name none) answer w'
  | .publishIntent d id receipt => fun answer w' =>
    published w (w.setIntent d id receipt) answer w'
  | .pointerExists d => fun answer w' =>
    (answer = (w.folder d).pointer.isSome ∨ (queriesFail ∧ answer = false)) ∧ w' = w
  | .readPointer d => fun answer w' =>
    ((∃ pointer, answer = .ok pointer ∧ (w.folder d).pointer = some pointer) ∨
      ∃ error, answer = .error error) ∧ w' = w
  | .publishPointer d pointer => fun answer w' =>
    published w (w.setPointer d pointer) answer w'
  | .markerExists parent id => fun answer w' =>
    (answer = (w.marker parent id).isSome ∨ (queriesFail ∧ answer = false)) ∧ w' = w
  | .publishMarker parent id marker => fun answer w' =>
    published w (w.setMarker parent id marker) answer w'

/-! ## §2 One operation each -/

/-- What returns a `Result`. -/
abbrev Task (α : Type) := ExceptT String (Program Op Op.Answer) α

/-- An operation that cannot fail. -/
def use (op : Op) : Task op.Answer := liftM (Program.ask op)

/-- The result of a computation, kept instead of returned early. -/
def resultOf {α : Type} (task : Task α) : Task (Except String α) := ExceptT.lift task.run

/-- `let _ = ..` -/
def ignore {α : Type} (task : Task α) : Task Unit := do
  let _ ← resultOf task

/-- `if c { return Err(..) }` -/
def refuseIf (c : Prop) [Decidable c] (text : String) : Task Unit :=
  if c then throw text else pure ()

def attempt : Task Unit := ExceptT.mk (Program.ask Op.attempt)

def memory (d : Directory) : Task Journal := use (Op.memory d)

def assign (d : Directory) (journal : Journal) : Task Unit := use (Op.assign d journal)

def createNew (d : Directory) (name : AssetName) : Task Unit :=
  ExceptT.mk (Program.ask (Op.createNew d name))

def append (d : Directory) (name : AssetName) (content : Bytes) : Task Unit :=
  ExceptT.mk (Program.ask (Op.append d name content))

def readBack (d : Directory) (name : AssetName) : Task Bytes :=
  ExceptT.mk (Program.ask (Op.readBack d name))

def tryExists (d : Directory) (name : AssetName) : Task Bool :=
  ExceptT.mk (Program.ask (Op.tryExists d name))

def publishReceipt (d : Directory) (name : AssetName) (content : Bytes) : Task Unit :=
  ExceptT.mk (Program.ask (Op.publishReceipt d name content))

def remove (d : Directory) (name : AssetName) : Task Unit :=
  ExceptT.mk (Program.ask (Op.remove d name))

def publishIntent (d : Directory) (id : Nat) (receipt : RootReceipt) : Task Unit :=
  ExceptT.mk (Program.ask (Op.publishIntent d id receipt))

def pointerExists (d : Directory) : Task Bool := use (Op.pointerExists d)

def readPointer (d : Directory) : Task Pointer := ExceptT.mk (Program.ask (Op.readPointer d))

def publishPointer (d : Directory) (pointer : Pointer) : Task Unit :=
  ExceptT.mk (Program.ask (Op.publishPointer d pointer))

def markerExists (parent : String) (id : Nat) : Task Bool := use (Op.markerExists parent id)

def publishMarker (parent : String) (id : Nat) (marker : Marker) : Task Unit :=
  ExceptT.mk (Program.ask (Op.publishMarker parent id marker))

/-- `RecoveryWriter::ensure_writable` -/
def ensureWritable (d : Directory) : Task Unit := do
  let journal ← memory d
  refuseIf (journal.poisoned = true)
    "recovery unavailable; keep last durable receipt and create a new writer"
  attempt

/-- `prepare_recipe_revision` -/
def prepareRecipeRevision (d : Directory) (revision : Nat) : Task Unit := do
  ensureWritable d
  let journal ← memory d
  refuseIf (∃ durable ∈ journal.durable, revision ≤ durable) "recipe revision is already durable"
  remove d (.root revision)
  remove d (.receipt revision)
  remove d (.owned revision)

/-! ## §3 Recipes -/

section Recipes

variable (sha256 : Bytes → Digest)

def removeIf (created : Bool) (d : Directory) (name : AssetName) : Task Unit :=
  if created then ignore (remove d name) else pure ()

/-- `Drop for RecipeCleanup`, for the files that were created. -/
def recipeCleanup (d : Directory) (revision : Nat) (owned json receipt : Bool) : Task Unit := do
  removeIf json d (.root revision)
  removeIf receipt d (.receipt revision)
  removeIf owned d (.owned revision)

/-- `OwnedStore::new` -/
def OwnedStore.new (revision : Nat) : OwnedStore := ⟨revision, [], none⟩

/-- The store a root continues, if its file is still what it sealed. -/
def continued (previous : Option OwnedStore) : Task (Option OwnedStore) :=
  match previous with
  | none => pure none
  | some store => do
    match ← resultOf attempt with
    | .ok () => pure (some store)
    | .error _ => pure none

/-- The receipt of a root over a store, before the receipt is published. -/
def rootReceipt (revision : Nat) (appends : Bool) (store : OwnedStore) (draft : Draft)
    (recipe : Bytes) : RootReceipt where
  version := if appends then (if draft.base.isSome then 4 else 3) else 2
  revision := revision
  file := .root revision
  sha256 := sha256 recipe
  metadata := draft.metadata
  owned := some
    { name := store.name
      len := (store.sealed ++ draft.text).length
      sha256 := sha256 (store.sealed ++ draft.text) }
  foreign := draft.foreign
  base := draft.base

/-- Owned text and recipe are written, flushed and read back. -/
def writeRecipe (d : Directory) (revision : Nat) (appends : Bool) (store : OwnedStore)
    (draft : Draft) : Task RootReceipt := do
  append d store.name draft.text
  refuseIf (MAX_PIECES < draft.pieces) "Recovery piece limit"
  attempt
  let content ← readBack d store.name
  refuseIf (content.length ≠ (store.sealed ++ draft.text).length)
    "Recovery owned bytes changed before seal"
  refuseIf (sha256 (content.drop store.sealed.length) ≠ sha256 draft.text)
    "Recovery owned bytes changed before seal"
  append d (.root revision) draft.recipe
  attempt
  let recipe ← readBack d (.root revision)
  refuseIf ((← tryExists d (.receipt revision)) = true) "Recovery receipt already exists"
  return rootReceipt sha256 revision appends store draft recipe

/-- `prepare_recipe`, once the store is open: recipe and receipt. -/
def recipeOver (d : Directory) (revision : Nat) (appends created : Bool) (store : OwnedStore)
    (draft : Draft) : Task (RootReceipt × Option OwnedStore) := do
  match ← resultOf (createNew d (.root revision)) with
  | .error error =>
    recipeCleanup d revision created false false
    throw error
  | .ok () =>
    match ← resultOf (writeRecipe sha256 d revision appends store draft) with
    | .error error =>
      recipeCleanup d revision created true false
      throw error
    | .ok receipt =>
      match ← resultOf (publishReceipt d (.receipt revision) (Json.bytes receipt.json)) with
      | .error error =>
        recipeCleanup d revision created true true
        throw error
      | .ok () =>
        return (receipt,
          if appends then some ⟨store.created, store.sealed ++ draft.text, some revision⟩ else none)

/-- `prepare_recipe`; `previous` is the store of `OwnedMode::Append`. -/
def prepareRecipe (d : Directory) (revision : Nat) (appends : Bool)
    (previous : Option OwnedStore) (draft : Draft) :
    Task (RootReceipt × Option OwnedStore) := do
  attempt
  match ← continued previous with
  | some store => recipeOver sha256 d revision appends false store draft
  | none =>
    let store := OwnedStore.new revision
    createNew d store.name
    recipeOver sha256 d revision appends true store draft

/-- `prepare_root`; the copies of foreign sources are not read by group commits. -/
def prepareRoot (d : Directory) (revision : Nat) (appends : Bool) (previous : Option OwnedStore)
    (draft : Draft) : Task (RootReceipt × Option OwnedStore) := do
  attempt
  prepareRecipe sha256 d revision appends previous draft

end Recipes

/-! ## §4 The ordinary journal -/

/-- Which roots stay, from the newest: the newest two, group roots, and the roots `needed` by
a store or as the base of a kept one. -/
def keptRoots (groupRoots : List Nat) : Nat → List Nat → List RootEntry → List (RootEntry × Bool)
  | _, _, [] => []
  | newest, needed, entry :: older =>
    if 0 < newest ∨ entry.revision ∈ groupRoots ∨ entry.revision ∈ needed then
      (entry, true) ::
        keptRoots groupRoots (newest - 1) (needed ++ entry.base.toList) older
    else (entry, false) :: keptRoots groupRoots (newest - 1) needed older

/-- `references_owned`, for a journal whose superseded roots are gone. -/
def Journal.referencesOwned (journal : Journal) (name : AssetName) : Bool :=
  (journal.owned.any fun store => store.name = name) ||
    journal.roots.any fun entry => entry.owned = some name

/-- The entry of a root. -/
def RootReceipt.entry (receipt : RootReceipt) : RootEntry :=
  ⟨receipt.revision, receipt.owned.map RootOwned.name, receipt.base.map RootBase.revision⟩

/-- The files of a superseded root that nothing else needs. -/
def Journal.supersededNames (journal : Journal) (entry : RootEntry) : List AssetName :=
  [.root entry.revision, .receipt entry.revision] ++
    (entry.owned.filter fun name => !journal.referencesOwned name).toList

/-- `remember_root`, up to the removal of the stale files. -/
def Journal.remember (journal : Journal) (receipt : RootReceipt) : Journal :=
  let roots := journal.roots ++ [receipt.entry]
  let needed := (journal.owned.bind OwnedStore.chain).toList
  let flags := (keptRoots journal.groupRoots 2 needed roots.reverse).reverse
  let kept := { journal with roots := (flags.filter Prod.snd).map Prod.fst }
  let superseded := (flags.filter fun flag => !flag.2).map Prod.fst
  { kept with stale := journal.stale ++ superseded.flatMap kept.supersededNames }

/-- The stale files that could not be removed. -/
def removeStale (d : Directory) : List AssetName → Task (List AssetName)
  | [] => pure []
  | name :: names => do
    let outcome ← resultOf (remove d name)
    let rest ← removeStale d names
    match outcome with
    | .ok () => pure rest
    | .error _ => pure (name :: rest)

/-- `remember_root` -/
def rememberRoot (d : Directory) (receipt : RootReceipt) : Task Unit := do
  let journal := (← memory d).remember receipt
  assign d journal
  let stale ← removeStale d journal.stale
  assign d { journal with stale := stale.drop (stale.length - 1024) }

/-- A record of the journal, by any of the writer's appends: once it begins to write, an error
poisons the writer. -/
def appendRecord (d : Directory) (revision : Nat) : Task Unit := do
  ensureWritable d
  let journal ← memory d
  refuseIf (∃ durable ∈ journal.durable, revision ≤ durable) "invalid recovery transaction"
  attempt
  match ← resultOf attempt with
  | .ok () => assign d { journal with durable := some revision }
  | .error error =>
    assign d { journal with poisoned := true }
    throw error

/-- `publish_root` and `checkpoint`. -/
def checkpoint (d : Directory) : Task Unit := do
  attempt
  ensureWritable d
  attempt

section Appends

variable (sha256 : Bytes → Digest)

/-- The part of `append_now` that may fail: root and record. -/
def appendRoot (d : Directory) (batch : DeferredAppend) (owned : Option OwnedStore) :
    Task (RootReceipt × Option OwnedStore) := do
  attempt
  prepareRecipeRevision d batch.revision
  let root ← prepareRoot sha256 d batch.revision true owned batch.draft
  appendRecord d batch.revision
  ignore (checkpoint d)
  return root

/-- `append_now`, of the journal whose deferred batch was taken. -/
def appendNow (d : Directory) (batch : DeferredAppend) : Task Unit := do
  let journal ← memory d
  assign d { journal with owned := none }
  match ← resultOf (appendRoot sha256 d batch journal.owned) with
  | .ok (receipt, store) =>
    let journal ← memory d
    assign d { journal with owned := store }
    rememberRoot d receipt
  | .error error =>
    ignore (prepareRecipeRevision d batch.revision)
    throw error

/-- `flush_deferred` -/
def flushDeferred (d : Directory) : Task Unit := do
  let journal ← memory d
  match journal.deferred with
  | none => pure ()
  | some batch =>
    assign d { journal with deferred := none }
    appendNow sha256 d batch

end Appends

end BareLine.GroupRecovery
