import BareLine.Tree.Text

/-!
# Charged tree operations

The paged mutation path claims the memory of every node it creates.  `charge` is what one node
costs; the operations that cost nothing are the plain ones with their `unreachable!()` branches.
-/

namespace BareLine.Tree

open Lib

/-! ## §1 Operations that may be refused -/

inductive Fault where
  /-- The budget refused a claim. -/
  | refused (error : Error)
  /-- `unreachable!()` -/
  | unreachable
  deriving DecidableEq, Repr

abbrev Charged (α : Type) := StateT Heap (Except Fault) α

/-- `Budget::reserve` -/
def claim (bytes : Nat) : Charged Unit := fun heap =>
  match heap.reserve bytes with
  | .ok heap => .ok ((), heap)
  | .error error => .error (.refused error)

def unreachable {α : Type} : Charged α := fun _ => .error .unreachable

/-- Unless the budget refuses, the result is as said; no branch marked unreachable is taken. -/
def Builds {α : Type} (p : Charged α) (good : α → Prop) : Prop :=
  ∀ heap, (∃ a heap', p heap = .ok (a, heap') ∧ good a) ∨ ∃ error, p heap = .error (.refused error)

variable {α β : Type} {p : Charged α} {good : α → Prop}

theorem Builds.pure {a : α} (h : good a) : Builds (Pure.pure a) good :=
  fun heap => Or.inl ⟨a, heap, rfl, h⟩

theorem Builds.bind {f : α → Charged β} {post : β → Prop}
    (h : Builds p fun a => Builds (f a) post) : Builds (p >>= f) post := by
  intro heap
  have hrun : (p >>= f) heap = (p heap >>= fun (a, heap') => f a heap') := rfl
  rcases h heap with ⟨a, heap', hp, hf⟩ | ⟨error, hp⟩
  · rw [hrun, hp]
    exact hf heap'
  · rw [hrun, hp]
    exact Or.inr ⟨error, rfl⟩

theorem Builds.mono {post : α → Prop} (h : Builds p good) (himp : ∀ a, good a → post a) :
    Builds p post := by
  intro heap
  rcases h heap with ⟨a, heap', hp, hgood⟩ | hrefused
  · exact Or.inl ⟨a, heap', hp, himp a hgood⟩
  · exact Or.inr hrefused

theorem claim_builds (bytes : Nat) : Builds (claim bytes) fun _ => True := by
  intro heap
  unfold claim
  cases heap.reserve bytes with
  | ok heap' => exact Or.inl ⟨(), heap', rfl, trivial⟩
  | error error => exact Or.inr ⟨error, rfl⟩

/-! ## §2 Joining -/

variable (charge : Nat)

/-- `charged_node` -/
def chargedNode (node : Node) : Charged Node := do
  claim charge
  return node

/-- `charged_branch` -/
def chargedBranch (left right : Node) : Charged Node := chargedNode charge (branch left right)

/-- `charged_balance` -/
def chargedBalance (left right : Node) : Charged Node :=
  if left.height > right.height + 1 then
    match left with
    | .branch a b _ _ =>
      if a.height ≥ b.height then do
        let rest ← chargedBranch charge b right
        chargedBranch charge a rest
      else match b with
        | .branch c d _ _ => do
          let first ← chargedBranch charge a c
          let rest ← chargedBranch charge d right
          chargedBranch charge first rest
        | _ => unreachable
    | _ => unreachable
  else if right.height > left.height + 1 then
    match right with
    | .branch a b _ _ =>
      if b.height ≥ a.height then do
        let first ← chargedBranch charge left a
        chargedBranch charge first b
      else match a with
        | .branch c d _ _ => do
          let first ← chargedBranch charge left c
          let rest ← chargedBranch charge d b
          chargedBranch charge first rest
        | _ => unreachable
    | _ => unreachable
  else chargedBranch charge left right

/-- `charged_concat` of two nonempty trees. -/
def chargedConcatNode (l r : Node) : Charged Node :=
  if l.height > r.height + 1 then
    match l with
    | .branch a b _ _ => do
      let rest ← chargedConcatNode b r
      chargedBalance charge a rest
    | _ => unreachable
  else if r.height > l.height + 1 then
    match r with
    | .branch a b _ _ => do
      let first ← chargedConcatNode l a
      chargedBalance charge first b
    | _ => unreachable
  else chargedBranch charge l r
termination_by l.size + r.size
decreasing_by all_goals simp only [Node.size]; omega

/-- `charged_concat` -/
def chargedConcat : Root → Root → Charged Root
  | none, r => return r
  | l, none => return l
  | some l, some r => do
    let node ← chargedConcatNode charge l r
    return some node

/-! ## §3 Cutting -/

/-- `charged_source` -/
def chargedSource (source : MemorySource) (range : Range) : Charged Root :=
  if range.isEmpty then return none
  else do
    let node ← chargedNode charge (.source source range)
    return some node

/-- `charged_owned` -/
def chargedOwned (source : MemorySource) (range : Range)
    (original : Option (MemorySource × Range)) : Charged Root :=
  if range.isEmpty then return none
  else do
    let node ← chargedNode charge (.ownedSource source range original (unread range))
    return some node

/-- `charged_split` of a nonempty tree. -/
def chargedSplitNode (node : Node) (offset : Nat) : Charged (Root × Root) :=
  if offset = 0 then return (none, some node)
  else if offset ≥ node.summary.bytes then return (some node, none)
  else match node with
    | .leaf piece => do
      let left ← chargedNode charge (.leaf (piece.split offset).1)
      let right ← chargedNode charge (.leaf (piece.split offset).2)
      return (some left, some right)
    | .source source range => do
      let left ← chargedSource charge source ⟨range.start, range.start + offset⟩
      let right ← chargedSource charge source ⟨range.start + offset, range.stop⟩
      return (left, right)
    | .ownedSource source range original _ => do
      let left ← chargedOwned charge source ⟨range.start, range.start + offset⟩
        (splitOriginal original offset).1
      let right ← chargedOwned charge source ⟨range.start + offset, range.stop⟩
        (splitOriginal original offset).2
      return (left, right)
    | .branch left right _ _ =>
      if offset < left.summary.bytes then do
        let (a, b) ← chargedSplitNode left offset
        let rest ← chargedConcat charge b (some right)
        return (a, rest)
      else do
        let (a, b) ← chargedSplitNode right (offset - left.summary.bytes)
        let first ← chargedConcat charge (some left) a
        return (first, b)

/-- `charged_split` -/
def chargedSplit (root : Root) (offset : Nat) : Charged (Root × Root) :=
  match root with
  | none => return (none, none)
  | some node => chargedSplitNode charge node offset

/-- `charged_replace` -/
def chargedReplace (root : Root) (range : Range) (inserted : Root) : Charged Root := do
  let (front, rest) ← chargedSplit charge root range.stop
  let (front, _) ← chargedSplit charge front range.start
  let joined ← chargedConcat charge front inserted
  chargedConcat charge joined rest

/-! ## §4 New text -/

/-- The allocator's next address. -/
def freshId : Charged Nat := fun heap => .ok (heap.next, { heap with next := heap.next + 1 })

/-- `charged_text`, from `root` on. -/
def chargedTextFrom (text : Bytes) (root : Root) : Charged Root :=
  if _h : text = [] then return root
  else do
    let n := chunkLen text
    claim n
    let id ← freshId
    let node ← chargedNode charge (.leaf (.new ⟨id, text.take n, none, false⟩ ⟨0, n⟩))
    let root ← chargedConcat charge root (some node)
    chargedTextFrom (text.drop n) root
termination_by text.length
decreasing_by
  have h1 := chunkLen_pos _h
  have h2 := chunkLen_le text
  simp only [List.length_drop]
  omega

/-- `charged_text` -/
def chargedText (text : Bytes) : Charged Root := chargedTextFrom charge text none

end BareLine.Tree
