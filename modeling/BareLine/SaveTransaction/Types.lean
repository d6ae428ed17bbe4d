import BareLine.Lib.Program
import BareLine.Lib.LineBreaks

/-!
# The files of a save transaction

A save has a target name, a stage, and a transaction folder with a fixed set of names.  A
name holds an object; a descriptor is the object itself, so it outlives its name.
-/

namespace BareLine.SaveTransaction

open Lib

/-! ## §1 Names and objects -/

/-- `CommitMode` -/
inductive CommitMode where
  | createNew
  | replace
  deriving DecidableEq, Repr

/-- `CommitState` -/
inductive CommitState where
  | precommit
  | created
  | replaced
  | conflict
  | cleanupPending
  | unverified
  deriving DecidableEq, Repr

/-- The names a transaction gives the entries of its folder. -/
inductive Entry where
  | manifest
  | authority
  | editor
  | displaced
  | state (state : CommitState)
  deriving DecidableEq, Repr

def Entry.all : List Entry :=
  [.manifest, .authority, .editor, .displaced, .state .precommit, .state .created,
    .state .replaced, .state .conflict, .state .cleanupPending, .state .unverified]

theorem Entry.mem_all (entry : Entry) : entry ∈ Entry.all := by
  cases entry with
  | state state => cases state <;> decide
  | _ => decide

/-- The names a save touches. -/
inductive Name where
  | target
  | stage
  | entry (entry : Entry)
  deriving DecidableEq, Repr

/-- The identity of an object (`Node`). -/
abbrev Node := Nat

inductive Kind where
  | regular
  | directory
  | special
  deriving DecidableEq, Repr

structure Object where
  kind : Kind
  bytes : Bytes
  deriving DecidableEq

/-- The directories a save works in.  `fresh` is the identity the next new object takes, and
`place` is where the listing of the parent has the transaction folder. -/
structure Disk where
  names : Name → Option Node
  object : Node → Object
  fresh : Node
  /-- The transaction folder exists under its name. -/
  folder : Bool
  /-- Entries of the transaction folder that have other names. -/
  foreign : List Bytes
  place : Nat
  /-- The filesystem has locks, and the flags of a rename. -/
  flock : Bool
  noReplace : Bool
  exchange : Bool
  /-- The shared leases on the folder, and whether it is leased exclusively. -/
  leases : Nat
  exclusive : Bool

/-! ## §2 Operations -/

inductive Errno where
  | notFound
  | alreadyExists
  | wouldBlock
  | denied
  | invalidData
  | unsupported
  | io
  deriving DecidableEq, Repr

inductive Op where
  /-- `stat_name` -/
  | stat (name : Name)
  /-- `open_at` without following a link. -/
  | openAny (name : Name)
  | kind (node : Node)
  | read (node : Node)
  /-- `open_at` with `CREATE` -/
  | create (name : Name)
  | write (node : Node) (bytes : Bytes)
  | setLen (node : Node) (length : Nat)
  | setMetadata (node : Node)
  | sync
  | unlink (name : Name)
  /-- `renameat_with` and `NOREPLACE` -/
  | renameNoReplace (source destination : Name)
  /-- `renameat` -/
  | rename (source destination : Name)
  /-- `renameat_with` and `EXCHANGE` -/
  | exchange (a b : Name)
  | makeFolder
  | removeFolder
  /-- `still_named`: the parent's name holds this folder. -/
  | stillNamed
  /-- Opening the folder. -/
  | openFolder
  /-- `flock`, and closing the descriptor that holds the lock. -/
  | leaseShared
  | leaseExclusive
  | release
  /-- The listing of the folder; `none` is a name the transaction did not give. -/
  | list
  /-- The transaction is among the first 4096 entries of its parent. -/
  | listed
  | checkCancelled
  deriving DecidableEq

/-- What an operation answers when it succeeds. -/
abbrev Op.Value : Op → Type
  | .stat _ | .openAny _ | .create _ => Node
  | .kind _ => Kind
  | .read _ => Bytes
  | .list => List (Option Entry)
  | .listed => Bool
  | _ => Unit

abbrev Op.Answer (op : Op) : Type := Except Errno op.Value

/-- A procedure that may fail. -/
abbrev Task (α : Type) := ExceptT Errno (Program Op Op.Answer) α

def use (op : Op) : Task op.Value := ExceptT.mk (Program.ask op)

/-- The result of a procedure, instead of an early return. -/
def resultOf {α : Type} (task : Task α) : Task (Except Errno α) := ExceptT.lift task.run

def refuseIf (c : Prop) [Decidable c] (error : Errno) : Task Unit :=
  if c then throw error else pure ()

/-! ## §3 What an operation does, and how it may fail -/

namespace Disk

variable (d : Disk)

def file (name : Name) : Option Object := (d.names name).map d.object

def setName (name : Name) (node : Option Node) : Disk :=
  { d with names := Function.update d.names name node }

def setBytes (node : Node) (bytes : Bytes) : Disk :=
  { d with object := Function.update d.object node { d.object node with bytes := bytes } }

/-- Creating needs the folder of the name. -/
def hosts : Name → Bool
  | .entry _ => d.folder
  | _ => true

def withObject (name : Name) (object : Object) : Disk :=
  { d with
    names := Function.update d.names name (some d.fresh)
    object := Function.update d.object d.fresh object
    fresh := d.fresh + 1 }

/-- A new regular file. -/
def withNew (name : Name) : Disk := d.withObject name ⟨.regular, []⟩

/-- The names of the folder. -/
def entries : List Entry := Entry.all.filter fun entry => (d.names (.entry entry)).isSome

/-- A write at the beginning of an object. -/
def overwritten (old new : Bytes) : Bytes := new ++ old.drop new.length

/-- What an operation does where nothing fails. -/
def does : (op : Op) → op.Answer × Disk
  | .stat name | .openAny name =>
    (match d.names name with
      | some node => .ok node
      | none => .error .notFound, d)
  | .kind node => (.ok (d.object node).kind, d)
  | .read node =>
    (if (d.object node).kind = .directory then .error .denied else .ok (d.object node).bytes, d)
  | .create name =>
    if d.hosts name = false then (.error .notFound, d)
    else if (d.names name).isSome then (.error .alreadyExists, d)
    else (.ok d.fresh, d.withNew name)
  | .write node bytes =>
    (.ok (), d.setBytes node (overwritten (d.object node).bytes bytes))
  | .setLen node length => (.ok (), d.setBytes node ((d.object node).bytes.take length))
  | .setMetadata _ | .sync | .checkCancelled => (.ok (), d)
  | .unlink name =>
    match d.names name with
    | none => (.error .notFound, d)
    | some node =>
      if (d.object node).kind = .directory then (.error .denied, d) else (.ok (), d.setName name none)
  | .renameNoReplace source destination =>
    if d.noReplace = false then (.error .unsupported, d)
    else if d.hosts destination = false then (.error .notFound, d)
    else match d.names source with
      | none => (.error .notFound, d)
      | some node =>
        if (d.names destination).isSome then (.error .alreadyExists, d)
        else (.ok (), (d.setName source none).setName destination (some node))
  | .rename source destination =>
    if d.hosts destination = false then (.error .notFound, d)
    else match d.names source with
      | none => (.error .notFound, d)
      | some node => (.ok (), (d.setName source none).setName destination (some node))
  | .exchange a b =>
    if d.exchange = false then (.error .unsupported, d)
    else match d.names a, d.names b with
      | some x, some y => (.ok (), (d.setName a (some y)).setName b (some x))
      | _, _ => (.error .notFound, d)
  | .makeFolder =>
    if d.folder then (.error .alreadyExists, d) else (.ok (), { d with folder := true })
  | .removeFolder =>
    if d.folder = false then (.error .notFound, d)
    else if d.entries = [] ∧ d.foreign = [] then (.ok (), { d with folder := false })
    else (.error .denied, d)
  | .stillNamed | .openFolder => (if d.folder then .ok () else .error .notFound, d)
  | .leaseShared =>
    if d.flock = false then (.ok (), d)
    else if d.exclusive then (.error .wouldBlock, d)
    else (.ok (), { d with leases := d.leases + 1 })
  | .leaseExclusive =>
    if d.flock = false then (.error .unsupported, d)
    else if d.exclusive ∨ d.leases ≠ 0 then (.error .wouldBlock, d)
    else (.ok (), { d with exclusive := true })
  | .release => (.ok (), { d with leases := d.leases - 1 })
  | .list => (.ok (d.entries.map some ++ d.foreign.map fun _ => none), d)
  | .listed => (.ok (d.folder && decide (d.place < 4096)), d)

end Disk

/-- Failures of the system; the other errors say something of the names or of the filesystem. -/
def Errno.ofSystem : Errno → Bool
  | .notFound | .alreadyExists | .unsupported => false
  | _ => true

/-- A failure of the system: nothing happens, except that a write may have begun. -/
def Fails (d : Disk) (op : Op) (answer : op.Answer) (d' : Disk) : Prop :=
  ∃ error : Errno, error.ofSystem ∧ answer = .error error ∧
    (d' = d ∨ ∃ node bytes k, op = .write node bytes ∧
      d' = d.setBytes node (Disk.overwritten (d.object node).bytes (bytes.take k)))

/-- An operation, where the system may fail or not. -/
def Performs (faults : Bool) (d : Disk) (op : Op) (answer : op.Answer) (d' : Disk) : Prop :=
  (answer, d') = d.does op ∨ (faults ∧ op ≠ .release ∧ Fails d op answer d')

namespace Disk

variable (d : Disk)

@[simp] theorem setName_names (name other : Name) (node : Option Node) :
    (d.setName name node).names other = if other = name then node else d.names other := by
  simp only [setName, Function.update_apply]

@[simp] theorem setName_object (name : Name) (node : Option Node) :
    (d.setName name node).object = d.object := rfl

@[simp] theorem setName_fresh (name : Name) (node : Option Node) :
    (d.setName name node).fresh = d.fresh := rfl

@[simp] theorem setBytes_names (node : Node) (bytes : Bytes) :
    (d.setBytes node bytes).names = d.names := rfl

@[simp] theorem setBytes_fresh (node : Node) (bytes : Bytes) :
    (d.setBytes node bytes).fresh = d.fresh := rfl

@[simp] theorem setBytes_object (node other : Node) (bytes : Bytes) :
    (d.setBytes node bytes).object other =
      if other = node then ⟨(d.object node).kind, bytes⟩ else d.object other := by
  simp only [setBytes, Function.update_apply]

@[simp] theorem withObject_names (name other : Name) (object : Object) :
    (d.withObject name object).names other =
      if other = name then some d.fresh else d.names other := by
  simp only [withObject, Function.update_apply]

@[simp] theorem withObject_object (name : Name) (object : Object) (other : Node) :
    (d.withObject name object).object other =
      if other = d.fresh then object else d.object other := by
  simp only [withObject, Function.update_apply]

@[simp] theorem withNew_names (name other : Name) :
    (d.withNew name).names other = if other = name then some d.fresh else d.names other :=
  d.withObject_names name other _

@[simp] theorem withNew_object (name : Name) (other : Node) :
    (d.withNew name).object other = if other = d.fresh then ⟨.regular, []⟩ else d.object other :=
  d.withObject_object name _ other

@[simp] theorem withNew_fresh (name : Name) : (d.withNew name).fresh = d.fresh + 1 := rfl

end Disk

variable {d : Disk}

theorem names_of_file {name : Name} {object : Object} (h : d.file name = some object) :
    ∃ node, d.names name = some node ∧ d.object node = object := by
  obtain ⟨node, hnode, heq⟩ := Option.map_eq_some_iff.mp h
  exact ⟨node, hnode, heq⟩

theorem file_of_none {name : Name} (h : d.names name = none) : d.file name = none := by
  rw [Disk.file, h, Option.map_none]

theorem file_setName_ne {name other : Name} (h : other ≠ name) (node : Option Node) :
    (d.setName name node).file other = d.file other := by
  rw [Disk.file, Disk.setName_names, if_neg h, Disk.setName_object, Disk.file]

theorem file_withNew_ne {name other : Name} (h : other ≠ name)
    (hfresh : ∀ name node, d.names name = some node → node < d.fresh) :
    (d.withNew name).file other = d.file other := by
  rw [Disk.file, Disk.withNew_names, if_neg h, Disk.file]
  cases hnode : d.names other with
  | none => rfl
  | some node =>
    rw [Option.map_some, Option.map_some, Disk.withNew_object,
      if_neg (Nat.ne_of_lt (hfresh other node hnode))]

theorem file_setBytes_ne {name : Name} {node : Node} (h : d.names name ≠ some node)
    (bytes : Bytes) : (d.setBytes node bytes).file name = d.file name := by
  rw [Disk.file, Disk.setBytes_names, Disk.file]
  cases hnode : d.names name with
  | none => rfl
  | some other =>
    rw [Option.map_some, Option.map_some, Disk.setBytes_object,
      if_neg fun heq : other = node => h (heq ▸ hnode)]

/-- Writing to an object that one name has. -/
theorem file_write_ne {name other : Name} {node : Node}
    (honly : ∀ name', d.names name' = some node → name' = name) (h : other ≠ name)
    (bytes : Bytes) : (d.setBytes node bytes).file other = d.file other :=
  file_setBytes_ne (fun heq => h (honly _ heq)) bytes

theorem entry_ne {a b : Entry} (h : a ≠ b) : Name.entry a ≠ Name.entry b :=
  fun heq => h (Name.entry.inj heq)

theorem target_ne (entry : Entry) : Name.target ≠ .entry entry := fun h => nomatch h

end BareLine.SaveTransaction
