import BareLine.Lib.Table
import BareLine.Tree.Text

/-!
# The extension broker

An extension session holds the grants the user approved, the requests that wait for an
answer and the bytes staged for edit transactions.  A transaction is begun, filled chunk by
chunk and committed; the commit decodes the staged bytes and hands the edits out.

Ids and texts are their bytes, instants are milliseconds.  `postcard` is the decoder of the
serialization library: it reads a byte string as a sequence.
-/

namespace BareLine.Extensions

open Lib

/-! ## §1 Messages -/

def PROTOCOL_VERSION : Nat := 1
def MAX_CHUNK_BYTES : Nat := 1024 * 1024
def MAX_PENDING : Nat := 32
def MEMORY_LIMIT : Nat := 128 * 1024 * 1024
def INTERACTIVE_TIMEOUT_MS : Nat := 5000
def BACKGROUND_TIMEOUT_MS : Nat := 120000
/-- `u64::MAX` -/
def U64_MAX : Nat := 2 ^ 64 - 1

inductive ExecutionBudget where
  | interactive
  | background
  deriving DecidableEq, Repr

/-- `ExecutionBudget::timeout_ms` -/
def ExecutionBudget.timeoutMs : ExecutionBudget → Nat
  | .interactive => INTERACTIVE_TIMEOUT_MS
  | .background => BACKGROUND_TIMEOUT_MS

inductive Capability where
  | documentRead
  | documentEdit
  | workspaceRead
  | workspaceWrite
  | network
  | processSpawn
  | uiPanel
  | settings
  deriving DecidableEq, Repr

inductive Scope where
  | document (id : Nat)
  | workspace (name : Bytes)
  | extension
  deriving DecidableEq, Repr

structure CapabilityContext where
  capability : Capability
  scope : Scope
  grantGeneration : Nat
  deriving DecidableEq, Repr

/-- `TextEdit`, its `TextRange` in place. -/
structure TextEdit where
  range : Range
  replacement : Bytes
  deriving DecidableEq, Repr

/-- `Request` -/
inductive Request where
  | readTextRange (document revision : Nat) (range : Range)
  | readOriginalBytes (document generation : Nat) (range : Range)
  | applyEdits (document revision : Nat) (edits : List TextEdit)
  | beginEdits (document revision : Nat)
  | appendChunk (transaction : Nat) (chunk : Bytes)
  | commitEdits (transaction revision : Nat)
  | cancel (request : Nat)
  | invokeCommand (command : Bytes)
  | panel (panel text : Bytes)
  deriving DecidableEq, Repr

structure Envelope where
  protocol : Nat
  requestId : Nat
  extensionId : Bytes
  context : CapabilityContext
  request : Request
  deriving DecidableEq, Repr

/-! ## §2 Sessions -/

inductive BrokerError where
  | denied
  | invalidScope
  | pendingLimit
  | duplicateRequest
  | unknownRequest
  | expired
  | staleRevision
  | chunkLimit
  | stagingLimit
  | invalidEdits
  | approvalRequired
  deriving DecidableEq, Repr

structure Grant where
  capability : Capability
  scope : Scope
  deriving DecidableEq, Repr

structure Staged where
  document : Nat
  revision : Nat
  bytes : Bytes
  deriving DecidableEq, Repr

/-- `ExtensionSession`; a pending request is its deadline. -/
structure ExtensionSession where
  id : Bytes
  generation : Nat
  grants : List Grant
  pending : Table Nat Nat
  staged : Table Nat Staged
  enabled : Bool
  budget : ExecutionBudget

/-- `valid_id` -/
def validId (id : Bytes) : Bool :=
  id != [] && decide (id.length ≤ 128) &&
    id.all (fun b => (48 ≤ b && b ≤ 57) || (65 ≤ b && b ≤ 90) || (97 ≤ b && b ≤ 122) ||
      b == 46 || b == 45 || b == 95) &&
    id != [46] && id != [46, 46]

namespace ExtensionSession

/-- `ExtensionSession::new_with_budget` -/
def newWithBudget (id : Bytes) (budget : ExecutionBudget) :
    Except BrokerError ExtensionSession :=
  if validId id then .ok ⟨id, 0, [], .empty, .empty, false, budget⟩ else .error .denied

/-- `ExtensionSession::revoke` -/
def revoke (self : ExtensionSession) : ExtensionSession :=
  { self with
    generation := min (self.generation + 1) U64_MAX
    grants := []
    pending := .empty
    staged := .empty
    enabled := false }

/-- `ExtensionSession::approve` -/
def approve (self : ExtensionSession) (grants : List Grant) : ExtensionSession :=
  { self.revoke with grants := grants, enabled := true }

/-- `ExtensionSession::check_grant` -/
def checkGrant (self : ExtensionSession) (capability : Capability) (scope : Scope) :
    Except BrokerError Unit :=
  if self.enabled && self.grants.any (fun g => g.capability == capability && g.scope == scope)
  then .ok () else .error .denied

/-- The context a request must carry, or why it needs none. -/
def expected (self : ExtensionSession) : Request → Except BrokerError (Option (Capability × Scope))
  | .readTextRange document _ _ | .readOriginalBytes document _ _ =>
    .ok (some (.documentRead, .document document))
  | .applyEdits document _ _ | .beginEdits document _ =>
    .ok (some (.documentEdit, .document document))
  | .appendChunk transaction _ | .commitEdits transaction _ =>
    match self.staged.lookup transaction with
    | some staged => .ok (some (.documentEdit, .document staged.document))
    | none => .error .unknownRequest
  | .panel _ _ => .ok (some (.uiPanel, .extension))
  | .invokeCommand _ => .error .denied
  | .cancel request =>
    if (self.pending.lookup request).isSome then .ok none else .error .unknownRequest

/-- `ExtensionSession::authorize` -/
def authorize (self : ExtensionSession) (message : Envelope) : Except BrokerError Unit :=
  if !self.enabled || message.extensionId != self.id || message.protocol != PROTOCOL_VERSION ||
      message.context.grantGeneration != self.generation then .error .denied
  else
    match self.expected message.request with
    | .error error => .error error
    | .ok none => .ok ()
    | .ok (some (capability, scope)) =>
      if message.context.capability ≠ capability ∨ message.context.scope ≠ scope then
        .error .invalidScope
      else self.checkGrant capability scope

/-- `ExtensionSession::cancel` -/
def cancel (self : ExtensionSession) (request : Nat) : ExtensionSession :=
  { self with pending := self.pending.remove request, staged := self.staged.remove request }

/-- `ExtensionSession::expire` -/
def expire (self : ExtensionSession) (now : Nat) : ExtensionSession :=
  (self.pending.keysWhere fun deadline => decide (deadline ≤ now)).foldl cancel self

/-- `ExtensionSession::start` -/
def start (self : ExtensionSession) (message : Envelope) (now : Nat) :
    ExtensionSession × Except BrokerError Unit :=
  let self := self.expire now
  match self.authorize message with
  | .error error => (self, .error error)
  | .ok () =>
    if (self.pending.lookup message.requestId).isSome then (self, .error .duplicateRequest)
    else if self.pending.size ≥ MAX_PENDING then (self, .error .pendingLimit)
    else ({ self with
        pending := self.pending.insert message.requestId (now + self.budget.timeoutMs) }, .ok ())

/-- `ExtensionSession::accept_reply` -/
def acceptReply (self : ExtensionSession) (request generation now : Nat) :
    ExtensionSession × Except BrokerError Unit :=
  let self := self.expire now
  if !self.enabled || generation != self.generation then (self, .error .denied)
  else if (self.pending.lookup request).isSome then
    ({ self with pending := self.pending.remove request
                 staged := self.staged.remove request }, .ok ())
  else (self, .error .unknownRequest)

/-- `ExtensionSession::begin_edits` -/
def beginEdits (self : ExtensionSession) (message : Envelope) (currentRevision now : Nat) :
    ExtensionSession × Except BrokerError Unit :=
  match message.request with
  | .beginEdits document revision =>
    if revision ≠ currentRevision then (self, .error .staleRevision)
    else match self.start message now with
      | (self, .error error) => (self, .error error)
      | (self, .ok ()) =>
        ({ self with staged := self.staged.insert message.requestId ⟨document, revision, []⟩ },
          .ok ())
  | _ => (self, .error .invalidEdits)

/-- `ExtensionSession::append` -/
def append (self : ExtensionSession) (message : Envelope) (now : Nat) :
    ExtensionSession × Except BrokerError Unit :=
  let self := self.expire now
  match self.authorize message with
  | .error error => (self, .error error)
  | .ok () =>
    match message.request with
    | .appendChunk transaction chunk =>
      if chunk.length > MAX_CHUNK_BYTES then (self.cancel transaction, .error .chunkLimit)
      else if saturatingAdd (self.staged.weight fun s => s.bytes.length) chunk.length >
          MEMORY_LIMIT / 2 then
        (self.cancel transaction, .error .stagingLimit)
      else match self.staged.lookup transaction with
        | none => (self, .error .unknownRequest)
        | some staged =>
          ({ self with
            staged := self.staged.insert transaction
              { staged with bytes := staged.bytes ++ chunk } }, .ok ())
    | _ => (self, .error .invalidEdits)

end ExtensionSession

/-! ## §3 Edits -/

/-- A sequence as the decoder offers it: the size it announces and its elements, `none` one
that cannot be read. -/
structure SeqAccess where
  sizeHint : Option Nat
  elements : List (Option TextEdit)
  deriving DecidableEq, Repr

/-- The loop of the visitor of `BoundedEdits`. -/
def visitElements : List (Option TextEdit) → List TextEdit → Nat → Option (List TextEdit)
  | [], edits, _ => some edits
  | none :: _, _, _ => none
  | some edit :: rest, edits, replacementBytes =>
    if edits.length ≥ 4096 then none
    else
      let replacementBytes := saturatingAdd replacementBytes edit.replacement.length
      if replacementBytes > MEMORY_LIMIT / 2 then none
      else visitElements rest (edits ++ [edit]) replacementBytes

/-- `visit_seq` of `BoundedEdits` -/
def visitSeq (seq : SeqAccess) : Option (List TextEdit) :=
  if seq.sizeHint.any (· > 4096) then none else visitElements seq.elements [] 0

/-- `validate_edits`; offsets are `u64`, which `usize` holds. -/
def validateEdits (edits : List TextEdit) (text : Bytes) : Except BrokerError Unit :=
  go edits 0
where
  go : List TextEdit → Nat → Except BrokerError Unit
    | [], _ => .ok ()
    | edit :: rest, stop =>
      let start := edit.range.start
      let next := edit.range.stop
      if start < stop ∨ start > next ∨ next > text.length ∨ ¬atBoundary text start ∨
          ¬atBoundary text next then .error .invalidEdits
      else go rest next

/-- `validate` of the invocation, over the snapshot it was made from. -/
def validateSnapshot (source : Tree.Root) (edits : List TextEdit) : Except BrokerError Unit :=
  if edits.length > 4096 then .error .invalidEdits else go edits 0
where
  isBoundary (offset : Nat) : Bool :=
    decide (offset ≤ (Tree.summary source).bytes) && Tree.boundary source offset
  go : List TextEdit → Nat → Except BrokerError Unit
    | [], _ => .ok ()
    | edit :: rest, previous =>
      let start := edit.range.start
      let stop := edit.range.stop
      if start < previous ∨ start > stop ∨ ¬isBoundary start ∨ ¬isBoundary stop then
        .error .invalidEdits
      else go rest stop

section Commit

variable (postcard : Bytes → Option SeqAccess)

/-- `ExtensionSession::commit_checked` -/
def ExtensionSession.commitChecked (self : ExtensionSession) (message : Envelope)
    (currentRevision now : Nat) (validate : List TextEdit → Except BrokerError Unit) :
    ExtensionSession × Except BrokerError (List TextEdit) :=
  let self := self.expire now
  match self.authorize message with
  | .error error => (self, .error error)
  | .ok () =>
    match message.request with
    | .commitEdits transaction revision =>
      match self.staged.lookup transaction with
      | none => (self, .error .unknownRequest)
      | some staged =>
        let self := { self with
          staged := self.staged.remove transaction
          pending := self.pending.remove transaction }
        if revision ≠ currentRevision ∨ staged.revision ≠ revision then
          (self, .error .staleRevision)
        else match (postcard staged.bytes).bind visitSeq with
          | none => (self, .error .invalidEdits)
          | some edits =>
            match validate edits with
            | .error error => (self, .error error)
            | .ok () => (self, .ok edits)
    | _ => (self, .error .invalidEdits)

/-! ## §4 Runs -/

/-- The calls a session receives; `commit` is `commit_checked` with `validate_edits`. -/
inductive Op where
  | approve (grants : List Grant)
  | revoke
  | start (message : Envelope) (now : Nat)
  | beginEdits (message : Envelope) (currentRevision now : Nat)
  | append (message : Envelope) (now : Nat)
  | commitChecked (message : Envelope) (currentRevision now : Nat)
    (validate : List TextEdit → Except BrokerError Unit)
  | cancel (request : Nat)
  | expire (now : Nat)
  | acceptReply (request generation now : Nat)

/-- What a call answers: an error, nothing, or the edits of a commit. -/
abbrev Outcome := Except BrokerError (Option (List TextEdit))

/-- A reply as the answer of a call. -/
def replied {α : Type} (f : α → Option (List TextEdit))
    (r : ExtensionSession × Except BrokerError α) : ExtensionSession × Outcome :=
  (r.1, r.2.map f)

/-- One call. -/
def ExtensionSession.step (self : ExtensionSession) : Op → ExtensionSession × Outcome
  | .approve grants => (self.approve grants, .ok none)
  | .revoke => (self.revoke, .ok none)
  | .start message now => replied (fun _ => none) (self.start message now)
  | .beginEdits message currentRevision now =>
    replied (fun _ => none) (self.beginEdits message currentRevision now)
  | .append message now => replied (fun _ => none) (self.append message now)
  | .commitChecked message currentRevision now validate =>
    replied some (self.commitChecked postcard message currentRevision now validate)
  | .cancel request => (self.cancel request, .ok none)
  | .expire now => (self.expire now, .ok none)
  | .acceptReply request generation now =>
    replied (fun _ => none) (self.acceptReply request generation now)

/-- One call of a run: the session it found and what it did. -/
structure Event where
  before : ExtensionSession
  op : Op
  after : ExtensionSession
  outcome : Outcome

/-- A call made in a session. -/
def ExtensionSession.event (s : ExtensionSession) (op : Op) : Event :=
  ⟨s, op, (s.step postcard op).1, (s.step postcard op).2⟩

/-- The calls of a run, first one first. -/
def play : ExtensionSession → List Op → List Event
  | _, [] => []
  | s, op :: ops => s.event postcard op :: play (s.step postcard op).1 ops

/-- The session a run ends in. -/
def final : ExtensionSession → List Op → ExtensionSession
  | s, [] => s
  | s, op :: ops => final (s.step postcard op).1 ops

end Commit

end BareLine.Extensions
