import BareLine.Document.Stage

/-!
# Giving up history under memory pressure

Relief drops history entries to make room for a validated mutation: the redo entries first
for a new edit, then the oldest entries of either stack, and only when that can close the
gap.  Everything here only drops entries at the old ends of the two stacks, which is what
`Evicts` says and what `relieveHistory_evicts` proves.
-/

namespace BareLine

open Lib BareLine.Tree

/-- `Demand`: the room a mutation needs and the budget that meters it. -/
inductive Demand where
  | edit (history : Nat)
  | undo
  | redo
  | text (bytes : Nat)
  deriving DecidableEq, Repr

namespace Demand

/-- `Demand::keep`: entries at the top of (undo, redo) the mutation itself consumes. -/
def keep : Demand → Nat × Nat
  | .edit _ | .text _ => (0, 0)
  | .undo => (1, 0)
  | .redo => (0, 1)

def isText : Demand → Bool
  | .text _ => true
  | _ => false

end Demand

/-! ## §1 What dropping entries frees -/

/-- `tree::exclusive_text` below one node, continuing from `found`; the right side is
looked at first and the search stops at `enough`. -/
def exclusiveNode (strongCount : Nat → Nat) (enough : Nat) : Node → Nat → Nat
  | .leaf piece, found =>
    if found ≥ enough then found
    else if strongCount piece.segment.id = 1 then saturatingAdd found piece.segment.text.length
    else found
  | .branch left right _ _, found =>
    if found ≥ enough then found
    else exclusiveNode strongCount enough left (exclusiveNode strongCount enough right found)
  | _, found => found

/-- `tree::exclusive_text` -/
def exclusiveText (strongCount : Nat → Nat) (root : Root) (enough : Nat) : Nat :=
  root.elim 0 fun node => exclusiveNode strongCount enough node 0

/-- The loop of `History::retained_text`. -/
def retainedFrom (strongCount : Nat → Nat) (undone : Bool) (enough : Nat) :
    Nat → List OwnedEdit → Nat
  | found, [] => found
  | found, edit :: rest =>
    if found ≥ enough then found
    else
      let root := if undone then edit.inserted else edit.inverse
      retainedFrom strongCount undone enough
        (saturatingAdd found (exclusiveText strongCount root (enough - found))) rest

/-- `History::retained_text` -/
def History.retainedText (strongCount : Nat → Nat) (e : History) (undone : Bool)
    (enough : Nat) : Nat :=
  retainedFrom strongCount undone enough 0 e.edits

/-- Sum of what entries free, stopped once `enough` is reached. -/
def freeableFrom (frees : History → Nat → Nat) (enough : Nat) : Nat → List History → Nat
  | freeable, [] => freeable
  | freeable, e :: rest =>
    if freeable ≥ enough then freeable
    else freeableFrom frees enough (saturatingAdd freeable (frees e (enough - freeable))) rest

namespace Document

/-- The entries of a stack that eviction may drop. -/
def evictableEntries (stack : HistoryStack) (keep : Nat) : List History :=
  stack.entries.take (stack.entries.length - keep)

/-- `Document::freeable_text` -/
def freeableText (env : Env) (d : Document) (keep : Nat × Nat) (enough : Nat) : Nat :=
  let found := freeableFrom (fun e => e.retainedText (env.strongCount d) false) enough 0
    (evictableEntries d.undo keep.1)
  freeableFrom (fun e => e.retainedText (env.strongCount d) true) enough found
    (evictableEntries d.redo keep.2)

/-- `Document::freeable_history` -/
def freeableHistory (env : Env) (d : Document) (keep : Nat × Nat) (enough : Nat) : Nat :=
  freeableFrom (fun e _ => if env.chargeShared e then 0
      else saturatingAdd e.undoReservation.sum (e.structureCharge.getD 0)) enough 0
    (evictableEntries d.undo keep.1 ++ evictableEntries d.redo keep.2)

/-- `Document::freeable` -/
def freeable (env : Env) (d : Document) (demand : Demand) (keep : Nat × Nat)
    (enough : Nat) : Nat :=
  if demand.isText then d.freeableText env keep enough else d.freeableHistory env keep enough

/-! ## §2 Room -/

/-- `Document::history_need` -/
def historyNeed (env : Env) (d : Document) : Demand → Nat
  | .edit history => saturatingAdd history (d.undo.growthBytes env.layout.history 1)
  | .undo => d.redo.growthBytes env.layout.history 1
  | .redo => d.undo.growthBytes env.layout.history 1
  | .text _ => 0

/-- `Budget::available` of the byte budget. -/
def bytesAvailable (env : Env) (d : Document) : Nat := (env.heap d).available

/-- `Document::shortfall` -/
def shortfall (env : Env) (d : Document) : Demand → Nat
  | .text bytes => bytes - d.bytesAvailable env
  | demand => d.historyNeed env demand - env.historyAvailable d

/-- `Document::lacks_room` -/
def lacksRoom (env : Env) (d : Document) (demand : Demand) : Bool :=
  decide (d.shortfall env demand > 0)

/-- `Document::relief_bound` -/
def reliefBound (env : Env) (d : Document) (demand : Demand) : Nat :=
  if demand.isText then d.shortfall env demand else usizeMax

/-- `Document::relief_missing` -/
def reliefMissing (env : Env) (d : Document) (demand : Demand) : Nat :=
  let growth (stack : HistoryStack) (keep : Nat) :=
    if stack.entries.length > keep then 0 else stack.growthBytes env.layout.history 1
  let floor := match demand with
    | .edit history => saturatingAdd history (growth d.undo demand.keep.1)
    | .undo => growth d.redo demand.keep.2
    | .redo => growth d.undo demand.keep.1
    | .text bytes => bytes
  let available := if demand.isText then d.bytesAvailable env else env.historyAvailable d
  let missing := floor - available
  missing - d.freeable env demand demand.keep missing

/-! ## §3 Eviction -/

/-- `Document::evictable` -/
def evictable (d : Document) (keep : Nat × Nat) : Option Nat × Option Nat :=
  let first (stack : HistoryStack) (keep : Nat) : Option Nat :=
    (stack.entries.head?.filter fun _ => stack.entries.length > keep).map History.sequence
  (first d.undo keep.1, first d.redo keep.2)

/-- Drop the far end of redo or the start of undo. -/
def dropOldest (d : Document) (fromRedo : Bool) : Document :=
  if fromRedo then { d with redo := d.redo.drain 1 } else { d with undo := d.undo.drain 1 }

/-- `Document::evict_oldest_entry`: the document without its oldest evictable entry and,
for text, what that entry alone kept alive. -/
def evictOldestEntry (env : Env) (d : Document) (keep : Nat × Nat) (text : Bool) :
    Option (Nat × Document) :=
  let fromRedo := match d.evictable keep with
    | (some undo, some redo) => some (decide (redo < undo))
    | (some _, none) => some false
    | (none, some _) => some true
    | (none, none) => none
  fromRedo.map fun fromRedo =>
    let oldest := (if fromRedo then d.redo else d.undo).entries.head?
    let released := if text then oldest.elim 0 fun e =>
      e.retainedText (env.strongCount d) fromRedo usizeMax else 0
    (released, d.dropOldest fromRedo)

/-- Entries of both stacks. -/
def historyLength (d : Document) : Nat := d.undo.entries.length + d.redo.entries.length

theorem evictOldestEntry_some {env : Env} {d d' : Document} {keep : Nat × Nat} {text : Bool}
    {released : Nat} (h : d.evictOldestEntry env keep text = some (released, d')) :
    ∃ fromRedo, d' = d.dropOldest fromRedo ∧ d'.historyLength < d.historyLength := by
  have hfirst : ∀ {stack : HistoryStack} {keep id : Nat},
      ((stack.entries.head?.filter fun _ => stack.entries.length > keep).map
        History.sequence) = some id → 0 < stack.entries.length := by
    intro stack keep id hs
    cases hent : stack.entries with
    | nil => simp [hent] at hs
    | cons e es => exact Nat.succ_pos _
  simp only [evictOldestEntry, Option.map_eq_some_iff] at h
  obtain ⟨fromRedo, hfrom, h⟩ := h
  obtain ⟨-, rfl⟩ := Prod.mk.inj h
  refine ⟨fromRedo, rfl, ?_⟩
  have hundo : d.undo.entries.length - 1 + d.redo.entries.length < d.historyLength ∨
      d.undo.entries.length = 0 := by unfold historyLength; omega
  have hredo : d.undo.entries.length + (d.redo.entries.length - 1) < d.historyLength ∨
      d.redo.entries.length = 0 := by unfold historyLength; omega
  cases hu : (d.evictable keep).1 with
  | none =>
    cases hr : (d.evictable keep).2 with
    | none =>
      have : d.evictable keep = (none, none) := Prod.ext hu hr
      simp [this] at hfrom
    | some r =>
      have : d.evictable keep = (none, some r) := Prod.ext hu hr
      simp only [this, Option.some.injEq] at hfrom
      subst hfrom
      have := hfirst hr
      simp only [dropOldest, if_true, historyLength, HistoryStack.drain_entries, List.length_drop]
      omega
  | some u =>
    have hupos := hfirst hu
    cases hr : (d.evictable keep).2 with
    | none =>
      have : d.evictable keep = (some u, none) := Prod.ext hu hr
      simp only [this, Option.some.injEq] at hfrom
      subst hfrom
      simp only [dropOldest, Bool.false_eq_true, if_false, historyLength,
        HistoryStack.drain_entries, List.length_drop]
      omega
    | some r =>
      have hrpos := hfirst hr
      simp only [dropOldest, historyLength]
      split_ifs <;> simp only [HistoryStack.drain_entries, List.length_drop] <;> omega

/-- The loop of `relieve_redo`; `released` is the text counted so far. -/
def relieveRedoFrom (env : Env) (demand : Demand) (d : Document) (released : Nat) :
    Nat × Document :=
  if d.lacksRoom env demand then
    match _h : d.redo.entries with
    | [] => (released, d)
    | furthest :: _ =>
      let released := if demand.isText then saturatingAdd released
        (furthest.retainedText (env.strongCount d) true usizeMax) else released
      relieveRedoFrom env demand (d.dropOldest true) released
  else (released, d)
termination_by d.redo.entries.length
decreasing_by simp [dropOldest, _h]

theorem relieveRedoFrom_stop {env : Env} {demand : Demand} {d : Document} (released : Nat)
    (h : d.lacksRoom env demand = false ∨ d.redo.entries = []) :
    relieveRedoFrom env demand d released = (released, d) := by
  rw [relieveRedoFrom]
  split
  · next hroom =>
    split
    · rfl
    · next hcons =>
      rcases h with h | h
      · rw [h] at hroom; cases hroom
      · rw [h] at hcons; cases hcons
  · rfl

theorem relieveRedoFrom_step {env : Env} {demand : Demand} {d : Document} (released : Nat)
    {furthest : History} {rest : List History} (h : d.lacksRoom env demand = true)
    (hcons : d.redo.entries = furthest :: rest) :
    relieveRedoFrom env demand d released =
      relieveRedoFrom env demand (d.dropOldest true)
        (if demand.isText then saturatingAdd released
          (furthest.retainedText (env.strongCount d) true usizeMax) else released) := by
  conv_lhs => rw [relieveRedoFrom]
  rw [if_pos h]
  split
  · next hnil => rw [hnil] at hcons; cases hcons
  · next e es hcons' =>
    rw [hcons] at hcons'
    obtain ⟨rfl, -⟩ := List.cons.inj hcons'
    rfl

/-- `Document::relieve_redo` -/
def relieveRedo (env : Env) (d : Document) (demand : Demand) : Nat × Document :=
  match demand with
  | .edit _ | .text _ => relieveRedoFrom env demand d 0
  | .undo | .redo => (0, d)

/-- The loop of `relieve_history`. -/
def relieveFrom (env : Env) (demand : Demand) (d : Document) (uncovered : Nat) : Document :=
  if d.lacksRoom env demand ∧ uncovered > 0 then
    match _h : d.evictOldestEntry env demand.keep demand.isText with
    | none => d
    | some (released, d') => relieveFrom env demand d' (uncovered - released)
  else d
termination_by d.historyLength
decreasing_by
  obtain ⟨_, -, hlt⟩ := evictOldestEntry_some _h
  exact hlt

theorem relieveFrom_stop {env : Env} {demand : Demand} {d : Document} {uncovered : Nat}
    (h : d.lacksRoom env demand = false ∨ uncovered = 0 ∨
      d.evictOldestEntry env demand.keep demand.isText = none) :
    relieveFrom env demand d uncovered = d := by
  rw [relieveFrom]
  split
  · next hroom =>
    split
    · rfl
    · next hsome =>
      rcases h with h | h | h
      · rw [h] at hroom; cases hroom.1
      · omega
      · rw [h] at hsome; cases hsome
  · rfl

theorem relieveFrom_step {env : Env} {demand : Demand} {d d' : Document}
    {uncovered released : Nat} (hroom : d.lacksRoom env demand = true) (hpos : 0 < uncovered)
    (h : d.evictOldestEntry env demand.keep demand.isText = some (released, d')) :
    relieveFrom env demand d uncovered = relieveFrom env demand d' (uncovered - released) := by
  conv_lhs => rw [relieveFrom]
  rw [if_pos ⟨hroom, hpos⟩]
  split
  · next hnone => rw [h] at hnone; cases hnone
  · next released' d'' hsome =>
    rw [h] at hsome
    obtain ⟨rfl, rfl⟩ := Prod.mk.inj (Option.some.inj hsome)
    rfl

/-- `Document::relieve_history` -/
def relieveHistory (env : Env) (d : Document) (demand : Demand) : Document :=
  if !d.lacksRoom env demand || decide (d.reliefMissing env demand > 0) then d
  else
    let uncovered := d.reliefBound env demand
    let (released, d) := d.relieveRedo env demand
    relieveFrom env demand d (uncovered - released)

/-- `Document::trim_history` -/
def trimHistory (d : Document) : Document :=
  let undo := d.undo.drain (d.undo.entries.length - d.historyPolicy.maxChanges)
  let redo := d.redo.drain
    (d.redo.entries.length - (d.historyPolicy.maxChanges - undo.entries.length))
  { d with undo := undo, redo := redo }

end Document

/-! ## §4 Eviction only drops old entries -/

/-- `d'` is `d` without some of the oldest undo entries and some of the furthest redo
entries. -/
structure Evicts (d d' : Document) : Prop where
  undo : ∃ n, d'.undo.entries = d.undo.entries.drop n
  redo : ∃ n, d'.redo.entries = d.redo.entries.drop n
  rest : d' = { d with undo := d'.undo, redo := d'.redo }

namespace Evicts

theorem refl (d : Document) : Evicts d d := ⟨⟨0, rfl⟩, ⟨0, rfl⟩, rfl⟩

theorem trans {a b c : Document} (h1 : Evicts a b) (h2 : Evicts b c) : Evicts a c := by
  obtain ⟨⟨n, hn⟩, ⟨m, hm⟩, hrest⟩ := h1
  obtain ⟨⟨n', hn'⟩, ⟨m', hm'⟩, hrest'⟩ := h2
  refine ⟨⟨n + n', by rw [hn', hn, List.drop_drop]⟩, ⟨m + m', by rw [hm', hm, List.drop_drop]⟩, ?_⟩
  rw [hrest', hrest]

theorem current {d d' : Document} (h : Evicts d d') : d'.current = d.current := by
  rw [h.rest]

theorem historyLength_le {d d' : Document} (h : Evicts d d') :
    d'.historyLength ≤ d.historyLength := by
  obtain ⟨⟨n, hn⟩, ⟨m, hm⟩, -⟩ := h
  rw [Document.historyLength, Document.historyLength, hn, hm, List.length_drop, List.length_drop]
  omega

theorem nextRevision {d d' : Document} (h : Evicts d d') : d'.nextRevision = d.nextRevision := by
  rw [Document.nextRevision, Document.nextRevision, h.current]

theorem dropOldest (d : Document) (fromRedo : Bool) : Evicts d (d.dropOldest fromRedo) := by
  cases fromRedo
  · exact ⟨⟨1, rfl⟩, ⟨0, rfl⟩, rfl⟩
  · exact ⟨⟨0, rfl⟩, ⟨1, rfl⟩, rfl⟩

end Evicts

namespace Document

theorem evictOldestEntry_evicts {env : Env} {d d' : Document} {keep : Nat × Nat} {text : Bool}
    {released : Nat} (h : d.evictOldestEntry env keep text = some (released, d')) :
    Evicts d d' := by
  obtain ⟨fromRedo, rfl, -⟩ := evictOldestEntry_some h
  exact Evicts.dropOldest d fromRedo

theorem relieveRedoFrom_evicts (env : Env) (demand : Demand) (d : Document) (released : Nat) :
    Evicts d (relieveRedoFrom env demand d released).2 := by
  fun_induction relieveRedoFrom env demand d released with
  | case1 d released hroom hnil => exact Evicts.refl d
  | case2 d released hroom furthest rest hcons released' ih =>
    exact (Evicts.dropOldest d true).trans ih
  | case3 d released hroom => exact Evicts.refl d

theorem relieveRedo_evicts (env : Env) (d : Document) (demand : Demand) :
    Evicts d (d.relieveRedo env demand).2 := by
  cases demand with
  | edit history => exact relieveRedoFrom_evicts _ _ _ _
  | text bytes => exact relieveRedoFrom_evicts _ _ _ _
  | undo => exact Evicts.refl d
  | redo => exact Evicts.refl d

theorem relieveFrom_evicts (env : Env) (demand : Demand) (d : Document) (uncovered : Nat) :
    Evicts d (relieveFrom env demand d uncovered) := by
  fun_induction relieveFrom env demand d uncovered with
  | case1 d uncovered hroom hnone => exact Evicts.refl d
  | case2 d uncovered hroom released d' hsome ih =>
    exact (evictOldestEntry_evicts hsome).trans ih
  | case3 d uncovered hroom => exact Evicts.refl d

/-- Relief only drops entries at the old ends of the stacks. -/
theorem relieveHistory_evicts (env : Env) (d : Document) (demand : Demand) :
    Evicts d (d.relieveHistory env demand) := by
  unfold relieveHistory
  split_ifs
  · exact Evicts.refl d
  · exact (relieveRedo_evicts env d demand).trans (relieveFrom_evicts _ _ _ _)

theorem trimHistory_evicts (d : Document) : Evicts d d.trimHistory :=
  ⟨⟨_, rfl⟩, ⟨_, rfl⟩, rfl⟩

end Document

end BareLine
