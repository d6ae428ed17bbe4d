import BareLine.Lib.Program
import BareLine.Lib.LineBreaks

/-!
# The files of a recovery group

A recovery root holds one directory for each journal and the commit markers of the groups.
A file is kept as the value it encodes; its length and its hash are those of the JSON text
that `serde_json` writes for the value, which reading gives back.
-/

namespace BareLine.GroupRecovery

open Lib

/-! ## §1 Names -/

/-- The member names `committed_root` accepts. -/
def validMember (name : List Char) : Bool :=
  "paged-".toList.isPrefixOf name && name.all fun c => c.isAlphanum || c == '-'

/-- The name of a journal directory, as `create` and the resident slots format it. -/
structure DirectoryName where
  text : List Char
  valid : validMember text = true
  deriving DecidableEq

/-- A journal directory under a recovery root. -/
structure Directory where
  parent : String
  name : DirectoryName
  deriving DecidableEq

/-- `root-{revision}.json`, `root-{revision}.receipt.json` and `root-owned-{revision}.bin` -/
inductive AssetName where
  | root (revision : Nat)
  | receipt (revision : Nat)
  | owned (revision : Nat)
  deriving DecidableEq, Repr

def AssetName.revision : AssetName → Nat
  | root revision | receipt revision | owned revision => revision

/-! ## §2 JSON text -/

/-- The digits of a `u64`, of which there are at most twenty. -/
def digits : Nat → Nat → List Char
  | 0, _ => []
  | fuel + 1, n =>
    if n < 10 then [Nat.digitChar n] else digits fuel (n / 10) ++ [Nat.digitChar (n % 10)]

def decimal (n : Nat) : List Char := digits 20 n

theorem digits_length (fuel n : Nat) : (digits fuel n).length ≤ fuel := by
  induction fuel generalizing n with
  | zero => exact Nat.le_refl 0
  | succ fuel ih =>
    rw [digits]
    split
    · exact Nat.succ_le_succ (Nat.zero_le fuel)
    · rw [List.length_append]
      exact Nat.succ_le_succ (ih (n / 10))

theorem decimal_length (n : Nat) : (decimal n).length ≤ 20 := digits_length 20 n

def AssetName.text : AssetName → List Char
  | root revision => "root-".toList ++ decimal revision ++ ".json".toList
  | receipt revision => "root-".toList ++ decimal revision ++ ".receipt.json".toList
  | owned revision => "root-owned-".toList ++ decimal revision ++ ".bin".toList

namespace Json

/-- One character of a JSON string. -/
def escape (c : Char) : List Char :=
  match c with
  | '"' => ['\\', '"']
  | '\\' => ['\\', '\\']
  | '\n' => ['\\', 'n']
  | '\r' => ['\\', 'r']
  | '\t' => ['\\', 't']
  | c =>
    if c.toNat = 8 then ['\\', 'b']
    else if c.toNat = 12 then ['\\', 'f']
    else if c.toNat < 32 then
      "\\u00".toList ++ [Nat.digitChar (c.toNat / 16), Nat.digitChar (c.toNat % 16)]
    else [c]

def string (text : List Char) : List Char := '"' :: (text.flatMap escape ++ ['"'])

def sequence (items : List (List Char)) : List Char := (items.intersperse [',']).flatten

def array (items : List (List Char)) : List Char := '[' :: (sequence items ++ [']'])

def object (fields : List (List Char × List Char)) : List Char :=
  '{' :: (sequence (fields.map fun field => string field.1 ++ ':' :: field.2) ++ ['}'])

/-- A field of a structure. -/
def field (name : String) (value : List Char) : List Char × List Char := (name.toList, value)

def null : List Char := "null".toList

/-- The UTF-8 bytes of a text. -/
def bytes (text : List Char) : Bytes := text.flatMap String.utf8EncodeChar

end Json

/-! ## §3 Receipts, pointers and markers -/

/-- A SHA-256 value. -/
abbrev Digest := Vector UInt8 32

def Digest.json (digest : Digest) : List Char :=
  Json.array (digest.toList.map fun byte => decimal byte.toNat)

/-- The number of bytes of a metadata map. -/
def metadataBytes (values : List (List Char × List Char)) : Nat :=
  (values.map fun entry => (Json.bytes entry.1).length + (Json.bytes entry.2).length).sum

/-- `DocumentMetadata`, with what `new` checks. -/
structure DocumentMetadata where
  values : List (List Char × List Char)
  count_le : values.length ≤ 64
  bytes_le : metadataBytes values ≤ 64 * 1024
  keys_nonempty : ∀ entry ∈ values, entry.1 ≠ []

/-- The generations of the foreign sources a store retains, at most a hundred; each is kept
as `foreign-{generation}`. -/
structure ForeignSources where
  generations : List Nat
  count_le : generations.length ≤ 100

/-- `RootOwned` -/
structure RootOwned where
  name : AssetName
  len : Nat
  sha256 : Digest

/-- `RootBase` -/
structure RootBase where
  revision : Nat
  sha256 : Digest
  depth : Nat

/-- `RootReceipt` -/
structure RootReceipt where
  version : Nat
  revision : Nat
  file : AssetName
  sha256 : Digest
  metadata : DocumentMetadata
  owned : Option RootOwned
  foreign : ForeignSources
  base : Option RootBase

def RootOwned.json (owned : RootOwned) : List Char :=
  Json.object
    [Json.field "name" (Json.string owned.name.text), Json.field "len" (decimal owned.len),
      Json.field "sha256" owned.sha256.json]

def RootBase.json (base : RootBase) : List Char :=
  Json.object
    [Json.field "revision" (decimal base.revision), Json.field "sha256" base.sha256.json,
      Json.field "depth" (decimal base.depth)]

def DocumentMetadata.json (metadata : DocumentMetadata) : List Char :=
  Json.object (metadata.values.map fun entry => (entry.1, Json.string entry.2))

def ForeignSources.json (foreign : ForeignSources) : List Char :=
  Json.object (foreign.generations.map fun generation =>
    (decimal generation, Json.string ("foreign-".toList ++ decimal generation)))

/-- A receipt as JSON; `base` is skipped when it is absent. -/
def RootReceipt.json (receipt : RootReceipt) : List Char :=
  Json.object
    ([Json.field "version" (decimal receipt.version),
      Json.field "revision" (decimal receipt.revision),
      Json.field "file" (Json.string receipt.file.text),
      Json.field "sha256" receipt.sha256.json,
      Json.field "metadata" receipt.metadata.json,
      Json.field "owned" ((receipt.owned.map RootOwned.json).getD Json.null),
      Json.field "foreign" receipt.foreign.json] ++
      (receipt.base.map fun base => Json.field "base" base.json).toList)

/-- `Pointer` -/
structure Pointer where
  version : Nat
  id : Nat
  revision : Nat
  previous : Option Pointer

def Pointer.json : Pointer → List Char
  | ⟨version, id, revision, none⟩ =>
    Json.object
      [Json.field "version" (decimal version), Json.field "id" (decimal id),
        Json.field "revision" (decimal revision), Json.field "previous" Json.null]
  | ⟨version, id, revision, some previous⟩ =>
    Json.object
      [Json.field "version" (decimal version), Json.field "id" (decimal id),
        Json.field "revision" (decimal revision), Json.field "previous" previous.json]

/-- `Member` -/
structure Member where
  directory : List Char
  revision : Nat
  receiptHash : Digest

/-- `Marker` -/
structure Marker where
  version : Nat
  id : Nat
  members : List Member

def Member.json (member : Member) : List Char :=
  Json.object
    [Json.field "directory" (Json.string member.directory),
      Json.field "revision" (decimal member.revision),
      Json.field "receipt_hash" member.receiptHash.json]

def Marker.json (marker : Marker) : List Char :=
  Json.object
    [Json.field "version" (decimal marker.version), Json.field "id" (decimal marker.id),
      Json.field "members" (Json.array (marker.members.map Member.json))]

/-- The most bytes `read_small` reads. -/
def SMALL : Nat := 65536

/-! ## §4 Journals, and what their roots are made of -/

/-- `RootPiece`; a recipe written by this source has no `Inserted` piece. -/
inductive RootPiece where
  | original (start stop : Nat)
  | foreign (generation start stop : Nat)
  | owned (start stop : Nat)

def RootPiece.json : RootPiece → List Char
  | original start stop =>
    Json.object [Json.field "Original" (Json.object
      [Json.field "start" (decimal start), Json.field "end" (decimal stop)])]
  | foreign generation start stop =>
    Json.object [Json.field "Foreign" (Json.object
      [Json.field "generation" (decimal generation), Json.field "start" (decimal start),
        Json.field "end" (decimal stop)])]
  | owned start stop =>
    Json.object [Json.field "Owned" (Json.object
      [Json.field "start" (decimal start), Json.field "end" (decimal stop)])]

/-- `RecipePiece`; in-memory text and the range of an owned source are their bytes. -/
inductive RecipePiece where
  | original (start stop : Nat)
  | foreign (generation start stop : Nat)
  | text (content : Bytes)
  | source (content : Bytes)

/-- What a root writes: owned text, the recipe over it and its number of pieces, and the rest
of its receipt. -/
structure Draft where
  text : Bytes
  pieces : Nat
  recipe : Bytes
  metadata : DocumentMetadata
  foreign : ForeignSources
  base : Option RootBase

/-- `PagedSnapshot`, as a group root reads it. -/
structure Snapshot where
  revision : Nat
  metadata : DocumentMetadata
  foreign : ForeignSources
  pieces : List RecipePiece

/-- `MAX_PIECES` -/
def MAX_PIECES : Nat := 65536

/-- The pieces of a root that stores all its text itself, after `stored` bytes of it. -/
def rootPieces : Nat → List RecipePiece → List RootPiece
  | _, [] => []
  | stored, .original start stop :: pieces => .original start stop :: rootPieces stored pieces
  | stored, .foreign generation start stop :: pieces =>
    .foreign generation start stop :: rootPieces stored pieces
  | stored, .text content :: pieces | stored, .source content :: pieces =>
    if content = [] then rootPieces stored pieces
    else .owned stored (stored + content.length) :: rootPieces (stored + content.length) pieces

/-- The text of such a root. -/
def ownedText : List RecipePiece → Bytes
  | [] => []
  | .original _ _ :: pieces | .foreign _ _ _ :: pieces => ownedText pieces
  | .text content :: pieces | .source content :: pieces => content ++ ownedText pieces

/-- What `OwnedMode::PerRevision` writes for a snapshot. -/
def Snapshot.draft (snapshot : Snapshot) : Draft where
  text := ownedText snapshot.pieces
  pieces := (rootPieces 0 snapshot.pieces).length
  recipe := Json.bytes (Json.array ((rootPieces 0 snapshot.pieces).map RootPiece.json))
  metadata := snapshot.metadata
  foreign := snapshot.foreign
  base := none

/-- `OwnedStore`, without the index of what it holds. -/
structure OwnedStore where
  /-- The revision that created it, and that its name has. -/
  created : Nat
  sealed : Bytes
  /-- The revision of its newest root. -/
  chain : Option Nat

def OwnedStore.name (store : OwnedStore) : AssetName := .owned store.created

/-- `RootEntry` -/
structure RootEntry where
  revision : Nat
  owned : Option AssetName
  base : Option Nat

/-- `DeferredAppend`; what its root writes depends on the index of the store and is given. -/
structure DeferredAppend where
  revision : Nat
  draft : Draft

/-- `PagedRecovery` with its writer: what it keeps in memory. -/
structure Journal where
  /-- `last_durable` of the writer. -/
  durable : Option Nat
  poisoned : Bool
  owned : Option OwnedStore
  roots : List RootEntry
  groupRoots : List Nat
  stale : List AssetName
  deferred : Option DeferredAppend

/-- The journal of a directory that was just created. -/
def Journal.new : Journal where
  durable := none
  poisoned := false
  owned := none
  roots := []
  groupRoots := []
  stale := []
  deferred := none

end BareLine.GroupRecovery
