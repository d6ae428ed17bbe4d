import BareLine.Document.GroupAdmission
import BareLine.Document.Guarantees

/-!
# Linked groups over whole runs

A desk is a set of open documents with the flags that the members of each group share.  Its
steps are the calls on one document and the group operations, in any order.  While all
members of a group hold their entry, the entries are on one side of all of them and only
group operations move them, all at once; once a member has lost its entry, the others are
free.
-/

namespace BareLine

open Lib BareLine.Tree

/-! ## §1 One group operation -/

/-- What an accepted group operation leaves. -/
def GroupChanged (w : GroupWorld) (group : Nat) (documents : Nat → Document)
    (documents' : Nat → Document) : GroupMutation → Prop
  | .apply edits => GroupApplied w group documents
      (edits.map fun target => (target.1.id, target.2)) documents'
  | .undo expected participants => GroupMovedAll false expected documents
      (participants.map Participant.id) documents'
  | .redo expected participants => GroupMovedAll true expected documents
      (participants.map Participant.id) documents'

/-- The group that an accepted operation answers. -/
def GroupMutation.answer (group : Nat) : GroupMutation → Nat
  | .apply _ => group
  | .undo expected _ | .redo expected _ => expected

/-- No other worker takes room from a group edit; undo and redo of a group evict nothing. -/
def Quiet (w : GroupWorld) (documents : Nat → Document) : GroupMutation → Prop
  | .apply edits => Undisturbed w (lockable w
      ((sortTargets (fun target => target.1.id) edits).map fun target => target.1.id)) documents
  | .undo .. | .redo .. => True

theorem validGroup_ok {mutation : GroupMutation} (h : validGroup mutation = true) :
    (mutation.participants.map Participant.id).Nodup ∧
      2 ≤ mutation.participants.length ∧ mutation.participants.length ≤ MAX_GROUP_DOCUMENTS := by
  rw [validGroup] at h
  rw [Bool.and_eq_true, Bool.and_eq_true, decide_eq_true_eq, decide_eq_true_eq,
    Bool.not_eq_true'] at h
  obtain ⟨⟨hfew, hmany⟩, hsame⟩ := h
  have hperm := List.perm_insertionSort (· ≤ ·) (mutation.participants.map Participant.id)
  have hnodup := nodup_of_sorted (List.pairwise_insertionSort _ _) hsame
  rw [hperm.length_eq, List.length_map] at hfew hmany
  exact ⟨hperm.nodup_iff.mp hnodup, hfew, hmany⟩

theorem sortTargets_perm {α : Type} (id : α → Nat) (targets : List α) :
    (sortTargets id targets).Perm targets := List.perm_insertionSort _ _

theorem GroupApplied.perm {w : GroupWorld} {group : Nat} {documents documents' : Nat → Document}
    {targets targets' : List (Nat × EditTransaction)}
    (h : GroupApplied w group documents targets documents') (hperm : targets.Perm targets') :
    GroupApplied w group documents targets' documents' := by
  obtain ⟨members, hnodup, hcount, hmembers, hedited⟩ := h.edited
  refine ⟨⟨members, hnodup, hcount, hmembers.trans (hperm.map _), fun target htarget => ?_⟩,
    fun id hid => h.others id fun hmem => hid ((hperm.map Prod.fst).mem_iff.mp hmem)⟩
  exact hedited target (hperm.mem_iff.mpr htarget)

theorem GroupMovedAll.perm {redo : Bool} {expected : Nat} {documents documents' : Nat → Document}
    {ids ids' : List Nat} (h : GroupMovedAll redo expected documents ids documents')
    (hperm : ids.Perm ids') : GroupMovedAll redo expected documents ids' documents' := by
  obtain ⟨members, hmembers, hmoved⟩ := h.moved
  exact ⟨⟨members, hmembers.trans (hperm.map _), fun id hid => hmoved id (hperm.mem_iff.mpr hid)⟩,
    fun id hid => h.others id fun hmem => hid (hperm.mem_iff.mp hmem)⟩

section Run

variable {w : GroupWorld} {documents : Nat → Document}

/-- What a group undo or redo answers and leaves. -/
theorem runGroup_move_cases (group expected : Nat) (participants : List Participant)
    (hnodup : (participants.map Participant.id).Nodup) (redo : Bool) (mutation : GroupMutation)
    (hmutation : mutation = if redo then .redo expected participants
      else .undo expected participants) :
    (∃ e, (runGroup w group documents mutation).1 = .error e ∧
      AllSame documents (runGroup w group documents mutation).2) ∨
    ((runGroup w group documents mutation).1 = .ok expected ∧
      GroupMovedAll redo expected documents (participants.map Participant.id)
        (runGroup w group documents mutation).2) := by
  have hperm := (sortTargets_perm Participant.id participants).map Participant.id
  have hcases := moveHistory_cases (w := w) documents (hperm.nodup_iff.mpr hnodup) expected redo
  subst hmutation
  cases redo <;>
  · simp only [Bool.false_eq_true, if_false, if_true]
    rw [runGroup]
    split
    · exact .inl ⟨_, rfl, AllSame.refl _⟩
    · generalize moveHistory w documents _ expected _ = answer at hcases ⊢
      obtain ⟨result, documents'⟩ := answer
      obtain ⟨e, hresult, hsame⟩ | ⟨hresult, hmoved⟩ := hcases
      · obtain rfl : result = .error e := hresult
        exact .inl ⟨e, rfl, hsame⟩
      · obtain rfl : result = .ok () := hresult
        exact .inr ⟨rfl, hmoved.perm hperm⟩

/-- A group operation is all or nothing: refused, it leaves every snapshot as it was, and
unless others disturb its budgets every history too. -/
theorem runGroup_cases (group : Nat)
    (hroot : ∀ id, RootWf .resident (documents id).current.root)
    (hids : ∀ id, (documents id).current.documentId = id) {mutation : GroupMutation}
    (hvalid : validGroup mutation = true) :
    (∃ e, (runGroup w group documents mutation).1 = .error e ∧
      AllEvict documents (runGroup w group documents mutation).2 ∧
      (Quiet w documents mutation → AllSame documents (runGroup w group documents mutation).2)) ∨
    ((runGroup w group documents mutation).1 = .ok (mutation.answer group) ∧
      GroupChanged w group documents (runGroup w group documents mutation).2 mutation) := by
  obtain ⟨hnodup, hfew, hmany⟩ := validGroup_ok hvalid
  have hmove : ∀ (redo : Bool) {expected : Nat} {participants : List Participant},
      mutation.participants = participants → (mutation = if redo then .redo expected participants
        else .undo expected participants) →
      (∃ e, (runGroup w group documents mutation).1 = .error e ∧
        AllEvict documents (runGroup w group documents mutation).2 ∧
        (Quiet w documents mutation → AllSame documents (runGroup w group documents mutation).2)) ∨
      ((runGroup w group documents mutation).1 = .ok expected ∧
        GroupMovedAll redo expected documents (participants.map Participant.id)
          (runGroup w group documents mutation).2) := by
    intro redo expected participants hparticipants hmutation
    subst hparticipants
    refine (runGroup_move_cases group expected _ hnodup redo mutation hmutation).imp_left ?_
    rintro ⟨e, herror, hsame⟩
    exact ⟨e, herror, hsame.allEvict, fun _ => hsame⟩
  cases mutation with
  | undo expected participants => exact hmove false rfl rfl
  | redo expected participants => exact hmove true rfl rfl
  | apply edits =>
    have hperm := sortTargets_perm (fun target : Participant × EditTransaction => target.1.id) edits
    have hsorted : ((sortTargets (fun target : Participant × EditTransaction => target.1.id)
        edits).map fun target => target.1.id).Nodup := by
      refine (hperm.map fun target => target.1.id).nodup_iff.mpr ?_
      rw [GroupMutation.participants, List.map_map] at hnodup
      exact hnodup
    have hlength : (sortTargets (fun target : Participant × EditTransaction => target.1.id)
        edits).length = edits.length := hperm.length_eq
    rw [GroupMutation.participants, List.length_map] at hfew hmany
    have hcases := applyGroup_cases (w := w) group hroot _ hsorted
    have hquiet := fun hq e => applyGroup_undisturbed (w := w) group hroot hids _ hsorted
      (by omega) (by omega) hq (e := e)
    rw [runGroup]
    split
    · exact .inl ⟨_, rfl, AllEvict.refl _, fun _ => AllSame.refl _⟩
    · obtain ⟨e, herror, hevict⟩ | ⟨hok, happlied⟩ := hcases
      · exact .inl ⟨e, herror, hevict, fun hq => hquiet hq e herror⟩
      · exact .inr ⟨hok, happlied.perm (hperm.map _)⟩

/-- A group operation touches its participants and the free peers only. -/
theorem runGroup_touches (group : Nat) (hroot : ∀ id, RootWf .resident (documents id).current.root)
    (mutation : GroupMutation) :
    Touches (mutation.participants.map Participant.id ++ w.registered) documents
      (runGroup w group documents mutation).2 := by
  have hmove : ∀ (redo : Bool) (expected : Nat) (participants : List Participant),
      Touches (participants.map Participant.id ++ w.registered) documents
        (moveHistory w documents ((sortTargets Participant.id participants).map Participant.id)
          expected redo).2 := by
    intro redo expected participants
    refine (moveHistory_touches documents _ expected redo).mono fun id hid => ?_
    have hperm := (sortTargets_perm Participant.id participants).map Participant.id
    exact List.mem_append_left _ (hperm.mem_iff.mp hid)
  cases mutation with
  | undo expected participants =>
    have hmoved := hmove false expected participants
    rw [runGroup]
    split
    · exact Touches.refl _ _
    · generalize moveHistory w documents _ expected false = answer at hmoved ⊢
      obtain ⟨result, documents'⟩ := answer
      cases result <;> exact hmoved
  | redo expected participants =>
    have hmoved := hmove true expected participants
    rw [runGroup]
    split
    · exact Touches.refl _ _
    · generalize moveHistory w documents _ expected true = answer at hmoved ⊢
      obtain ⟨result, documents'⟩ := answer
      cases result <;> exact hmoved
  | apply edits =>
    rw [runGroup]
    split
    · exact Touches.refl _ _
    · refine applyGroup_touches group documents _ (fun target htarget => ?_)
        (fun id hid => List.mem_append_right _ hid) hroot
      have hmem := (sortTargets_perm (fun target : Participant × EditTransaction => target.1.id)
        edits).mem_iff.mp htarget
      refine List.mem_append_left _ ?_
      rw [GroupMutation.participants, List.map_map]
      exact List.mem_map_of_mem (f := Participant.id ∘ Prod.fst) hmem

end Run

/-! ## §2 Shared flags -/

/-- The tag with the flag that its group shares. -/
def GroupTag.relink (linked : Nat → Bool) (tag : GroupTag) : GroupTag :=
  { tag with linked := linked tag.id }

def History.relink (linked : Nat → Bool) (e : History) : History :=
  { e with group := e.group.map (GroupTag.relink linked) }

def HistoryStack.relink (linked : Nat → Bool) (stack : HistoryStack) : HistoryStack :=
  { stack with entries := stack.entries.map (History.relink linked) }

/-- The document as its calls find it when the groups' flags are these. -/
def Document.relink (linked : Nat → Bool) (d : Document) : Document :=
  { d with undo := d.undo.relink linked, redo := d.redo.relink linked }

section Relink

variable (linked : Nat → Bool)

theorem stackTags_relink (entries : List History) :
    stackTags (entries.map (History.relink linked)) =
      (stackTags entries).map (GroupTag.relink linked) := by
  induction entries with
  | nil => rfl
  | cons e rest ih =>
    rw [List.map_cons, ← List.singleton_append, stackTags_append, ih,
      ← List.singleton_append (l := rest), stackTags_append, List.map_append]
    congr 1
    cases hgroup : e.group with
    | none =>
      have hnone : (e.relink linked).group = none := by rw [History.relink, hgroup]; rfl
      rw [stackTags_untagged hgroup, stackTags_untagged hnone]
      rfl
    | some tag =>
      have hsome : (e.relink linked).group = some (tag.relink linked) := by
        rw [History.relink, hgroup]; rfl
      rw [stackTags_tagged hgroup, stackTags_tagged hsome]
      rfl

@[simp] theorem groupCount_relink (g : Nat) (entries : List History) :
    groupCount g (entries.map (History.relink linked)) = groupCount g entries := by
  rw [groupCount, stackTags_relink, List.map_map]
  rfl

namespace Document

variable {linked} (d : Document)

@[simp] theorem relink_current : (d.relink linked).current = d.current := rfl

@[simp] theorem relink_undo :
    (d.relink linked).undo.entries = d.undo.entries.map (History.relink linked) := rfl

@[simp] theorem relink_redo :
    (d.relink linked).redo.entries = d.redo.entries.map (History.relink linked) := rfl

@[simp] theorem relink_held (g : Nat) : (d.relink linked).held g = d.held g := by
  rw [held, relink_undo, relink_redo, groupCount_relink, groupCount_relink, held]

theorem relink_source (redo : Bool) : ((d.relink linked).source redo).entries =
    (d.source redo).entries.map (History.relink linked) := by
  cases redo <;> rfl

theorem relink_tags : (d.relink linked).tags = d.tags.map (GroupTag.relink linked) := by
  rw [tags, relink_undo, relink_redo, stackTags_relink, stackTags_relink, tags, List.map_append]

variable {d}

/-- Flags are no part of what undo and redo restore. -/
theorem relink_wf (h : d.Wf) : (d.relink linked).Wf := by
  have hentry : ∀ e : History, e.Wf → (e.relink linked).Wf := fun e he =>
    ⟨he.before, he.after, he.rewrites, he.typing⟩
  refine ⟨h.root, fun e he => ?_, fun e he => ?_, ?_⟩
  · obtain ⟨old, hold, rfl⟩ := List.mem_map.mp he
    exact hentry old (h.undo old hold)
  · obtain ⟨old, hold, rfl⟩ := List.mem_map.mp he
    exact hentry old (h.redo old hold)
  · exact h.chained.map (fun _ => rfl) (fun _ => rfl)

end Document

end Relink

/-! ## §3 The desk and its steps -/

/-- Open documents, the flags that groups share, and a bound on the groups so far. -/
structure Desk where
  document : Nat → Document
  linked : Nat → Bool
  nextGroup : Nat

namespace Desk

/-- Entries of a group that a step had in hand: those it found, and those it committed. -/
def handled (desk : Desk) (committed : Option (Nat × List Nat)) (id g : Nat) : Nat :=
  (desk.document id).held g +
    if committed.any fun c => c.1 == g && c.2.contains id then 1 else 0

/-- `impl Drop for GroupTag`: a flag stays set unless a tag of the group was dropped. -/
def settledFlag (desk : Desk) (committed : Option (Nat × List Nat)) (touched : List Nat)
    (documents : Nat → Document) (g : Nat) : Bool :=
  (desk.linked g || committed.any fun c => c.1 == g) &&
    touched.all fun id => decide (desk.handled committed id g ≤ (documents id).held g)

/-- The desk after a step that left these documents. -/
def settle (desk : Desk) (committed : Option (Nat × List Nat)) (touched : List Nat)
    (documents : Nat → Document) : Desk where
  document := fun id => (documents id).relink (desk.settledFlag committed touched documents)
  linked := desk.settledFlag committed touched documents
  nextGroup := match committed with
    | some c => c.1 + 1
    | none => desk.nextGroup

@[simp] theorem settle_document (desk : Desk) (committed : Option (Nat × List Nat))
    (touched : List Nat) (documents : Nat → Document) (id : Nat) :
    (desk.settle committed touched documents).document id =
      (documents id).relink (desk.settledFlag committed touched documents) := rfl

/-- What a group operation has committed. -/
def committed (mutation : GroupMutation) : Except Error Nat → Option (Nat × List Nat)
  | .error _ => none
  | .ok group => match mutation with
    | .apply _ => some (group, mutation.participants.map Participant.id)
    | .undo .. | .redo .. => none

/-- The desk after a group operation. -/
def afterGroup (desk : Desk) (w : GroupWorld) (group : Nat) (mutation : GroupMutation) : Desk :=
  let answer := runGroup w group desk.document mutation
  desk.settle (committed mutation answer.1)
    (mutation.participants.map Participant.id ++ w.registered) answer.2

/-- The desk after a call on one document. -/
def afterCall (desk : Desk) (id : Nat) (d : Document) : Desk :=
  desk.settle none [id] (Function.update desk.document id d)

/-- Documents are opened without history; then calls on one document and group operations
follow in any order.  `unique()` names every group anew. -/
inductive Reachable : Desk → Prop where
  | opened {document : Nat → Document} (hdocuments : ∀ id, BareLine.Reachable (document id))
      (hids : ∀ id, (document id).current.documentId = id) :
      Reachable ⟨document, fun _ => false, 0⟩
  | call {desk : Desk} (h : Reachable desk) (id : Nat) {d : Document}
      (hstep : Step (desk.document id) d) : Reachable (desk.afterCall id d)
  | group {desk : Desk} (h : Reachable desk) (w : GroupWorld) {group : Nat}
      (hgroup : desk.nextGroup ≤ group) {mutation : GroupMutation}
      (hvalid : validGroup mutation = true) : Reachable (desk.afterGroup w group mutation)

end Desk

/-! ## §4 The invariant -/

namespace Desk

/-- A committed group: its entries are where its tags say, and its flag is set exactly while
every member holds one. -/
structure GroupInv (desk : Desk) (g : Nat) (members : List Nat) : Prop where
  nonempty : members ≠ []
  tags : ∀ id, ∀ tag ∈ (desk.document id).tags, tag.id = g → tag.members = members
  once : ∀ id, (desk.document id).held g ≤ if id ∈ members then 1 else 0
  side : desk.linked g = true →
    ∃ redo, ∀ id ∈ members, groupCount g ((desk.document id).source redo).entries = 1
  lost : desk.linked g = false → ∃ id ∈ members, (desk.document id).held g = 0

structure Linked (desk : Desk) : Prop where
  ids : ∀ id, (desk.document id).current.documentId = id
  wf : ∀ id, (desk.document id).Wf
  synced : ∀ id, ∀ tag ∈ (desk.document id).tags, tag.linked = desk.linked tag.id
  fresh : ∀ id, ∀ tag ∈ (desk.document id).tags, tag.id < desk.nextGroup
  flags : ∀ g, desk.linked g = true → g < desk.nextGroup
  groups : ∀ g, (desk.linked g = false ∧ ∀ id, (desk.document id).held g = 0) ∨
    ∃ members, desk.GroupInv g members

variable {desk : Desk} {committed : Option (Nat × List Nat)} {touched : List Nat}
  {documents : Nat → Document}

/-- A group that the step did not commit. -/
theorem GroupInv.settle {g : Nat} {members : List Nat} (h : desk.GroupInv g members)
    (hother : (committed.any fun c => c.1 == g) = false)
    (hframe : Touches touched desk.document documents)
    (htags : ∀ id, ∀ tag ∈ (documents id).tags, tag.id = g → tag ∈ (desk.document id).tags)
    (hheld : ∀ id, (documents id).held g ≤ (desk.document id).held g)
    (hside : desk.linked g = true → (∀ id, (documents id).held g = (desk.document id).held g) →
      ∀ redo, (∀ id ∈ members, groupCount g ((desk.document id).source redo).entries = 1) →
        ∃ redo', ∀ id ∈ members, groupCount g ((documents id).source redo').entries = 1) :
    (desk.settle committed touched documents).GroupInv g members := by
  have hhandled : ∀ id, desk.handled committed id g = (desk.document id).held g := by
    intro id
    have hnot : (committed.any fun c => c.1 == g && c.2.contains id) = false := by
      cases committed with
      | none => rfl
      | some c =>
        rw [Option.any_some] at hother ⊢
        rw [hother, Bool.false_and]
    rw [handled, hnot]
    rfl
  refine ⟨h.nonempty, fun id tag htag hg => ?_, fun id => ?_, fun hflag => ?_, fun hflag => ?_⟩
  · rw [settle_document, Document.relink_tags] at htag
    obtain ⟨old, hold, rfl⟩ := List.mem_map.mp htag
    exact h.tags id old (htags id old hold hg) hg
  · rw [settle_document, Document.relink_held]
    exact (hheld id).trans (h.once id)
  · have hflag : desk.settledFlag committed touched documents g = true := hflag
    rw [settledFlag, hother, Bool.or_false, Bool.and_eq_true, List.all_eq_true] at hflag
    obtain ⟨hlinked, hall⟩ := hflag
    have hsame : ∀ id, (documents id).held g = (desk.document id).held g := by
      intro id
      by_cases hid : id ∈ touched
      · have hkept := of_decide_eq_true (hall id hid)
        rw [hhandled] at hkept
        exact Nat.le_antisymm (hheld id) hkept
      · rw [hframe id hid]
    obtain ⟨redo, hredo⟩ := h.side hlinked
    obtain ⟨redo', hredo'⟩ := hside hlinked hsame redo hredo
    refine ⟨redo', fun id hid => ?_⟩
    rw [settle_document, Document.relink_source, groupCount_relink]
    exact hredo' id hid
  · have hflag : desk.settledFlag committed touched documents g = false := hflag
    rw [settledFlag, hother, Bool.or_false, Bool.and_eq_false_iff] at hflag
    obtain hflag | hflag := hflag
    · obtain ⟨id, hid, hnone⟩ := h.lost hflag
      refine ⟨id, hid, ?_⟩
      rw [settle_document, Document.relink_held]
      exact Nat.eq_zero_of_le_zero (hnone ▸ hheld id)
    · obtain ⟨id, -, hdropped⟩ := List.all_eq_false.mp hflag
      rw [decide_eq_true_eq, hhandled] at hdropped
      have honce := h.once id
      have hmember : id ∈ members := by
        by_contra hnot
        rw [if_neg hnot] at honce
        omega
      rw [if_pos hmember] at honce
      refine ⟨id, hmember, ?_⟩
      rw [settle_document, Document.relink_held]
      omega

/-- A step keeps the invariant when it keeps it for each group. -/
theorem Linked.settle (h : desk.Linked)
    (hids : ∀ id, (documents id).current.documentId = (desk.document id).current.documentId)
    (hwf : ∀ id, (documents id).Wf)
    (htags : ∀ id, ∀ tag ∈ (documents id).tags, tag ∈ (desk.document id).tags ∨
      ∃ c, committed = some c ∧ tag.id = c.1)
    (hfresh : ∀ c, committed = some c → desk.nextGroup ≤ c.1)
    (hgroups : ∀ g, (desk.settledFlag committed touched documents g = false ∧
      ∀ id, (documents id).held g = 0) ∨
        ∃ members, (desk.settle committed touched documents).GroupInv g members) :
    (desk.settle committed touched documents).Linked := by
  have hnext : desk.nextGroup ≤ (desk.settle committed touched documents).nextGroup ∧
      ∀ c, committed = some c → c.1 < (desk.settle committed touched documents).nextGroup := by
    cases committed with
    | none => exact ⟨Nat.le_refl _, fun c hc => nomatch hc⟩
    | some c =>
      refine ⟨(hfresh c rfl).trans (Nat.le_succ _), fun c' hc => ?_⟩
      obtain rfl := Option.some.inj hc
      exact Nat.lt_succ_self _
  refine ⟨fun id => ?_, fun id => Document.relink_wf (hwf id), fun id tag htag => ?_,
    fun id tag htag => ?_, fun g hflag => ?_, fun g => ?_⟩
  · exact (hids id).trans (h.ids id)
  · rw [settle_document, Document.relink_tags] at htag
    obtain ⟨old, -, rfl⟩ := List.mem_map.mp htag
    rfl
  · rw [settle_document, Document.relink_tags] at htag
    obtain ⟨old, hold, rfl⟩ := List.mem_map.mp htag
    obtain hold | ⟨c, hc, hid⟩ := htags id old hold
    · exact Nat.lt_of_lt_of_le (h.fresh id old hold) hnext.1
    · show old.id < _
      rw [hid]
      exact hnext.2 c hc
  · have hflag : desk.settledFlag committed touched documents g = true := hflag
    rw [settledFlag, Bool.and_eq_true, Bool.or_eq_true] at hflag
    obtain ⟨hflag | hnew, -⟩ := hflag
    · exact Nat.lt_of_lt_of_le (h.flags g hflag) hnext.1
    · cases committed with
      | none => exact nomatch hnew
      | some c =>
        rw [Option.any_some, beq_iff_eq] at hnew
        subst hnew
        exact hnext.2 c rfl
  · refine (hgroups g).imp_left fun ⟨hflag, hnone⟩ => ⟨hflag, fun id => ?_⟩
    rw [settle_document, Document.relink_held]
    exact hnone id

/-- A step that moves no entry of a linked group to the other side. -/
theorem GroupInv.settle_keeps {g : Nat} {members : List Nat} (h : desk.GroupInv g members)
    (hother : (committed.any fun c => c.1 == g) = false)
    (hframe : Touches touched desk.document documents)
    (htags : ∀ id, ∀ tag ∈ (documents id).tags, tag.id = g → tag ∈ (desk.document id).tags)
    (hheld : ∀ id, (documents id).held g ≤ (desk.document id).held g)
    (hkeeps : desk.linked g = true → ∀ id, Keeps g (desk.document id) (documents id)) :
    (desk.settle committed touched documents).GroupInv g members := by
  refine h.settle hother hframe htags hheld fun hlinked hsame redo hredo => ⟨redo, fun id hid => ?_⟩
  have hkept := hkeeps hlinked id
  have htotal := hsame id
  have hone := hredo id hid
  have hundo := hkept.undo
  have hredo := hkept.redo
  rw [Document.held, Document.held] at htotal
  cases redo with
  | false =>
    have hone : groupCount g (desk.document id).undo.entries = 1 := hone
    show groupCount g (documents id).undo.entries = 1
    omega
  | true =>
    have hone : groupCount g (desk.document id).redo.entries = 1 := hone
    show groupCount g (documents id).redo.entries = 1
    omega

/-- A group nobody holds an entry of stays so. -/
theorem settle_absent {g : Nat} (hother : (committed.any fun c => c.1 == g) = false)
    (hheld : ∀ id, (documents id).held g ≤ (desk.document id).held g)
    (h : desk.linked g = false ∧ ∀ id, (desk.document id).held g = 0) :
    desk.settledFlag committed touched documents g = false ∧ ∀ id, (documents id).held g = 0 := by
  refine ⟨?_, fun id => Nat.eq_zero_of_le_zero (h.2 id ▸ hheld id)⟩
  rw [settledFlag, hother, h.1]
  rfl

/-- Calls and refused operations, which commit nothing and move no linked entry. -/
theorem Linked.settle_local (h : desk.Linked) (hframe : Touches touched desk.document documents)
    (hwf : ∀ id, (documents id).Wf)
    (hlocal : ∀ id, LocalEffect (desk.document id) (documents id)) :
    (desk.settle none touched documents).Linked := by
  refine h.settle (fun id => (hlocal id).id) hwf (fun id tag htag => .inl ((hlocal id).noNewTags tag htag))
    (fun c hc => nomatch hc) fun g => ?_
  refine (h.groups g).imp (settle_absent rfl fun id => (hlocal id).held g) fun ⟨members, hinv⟩ => ?_
  refine ⟨members, hinv.settle_keeps rfl hframe (fun id tag htag _ => (hlocal id).noNewTags tag htag)
    (fun id => (hlocal id).held g) fun hlinked id => (hlocal id).keeps g fun tag htag hg => ?_⟩
  rw [h.synced id tag htag, hg, hlinked]

/-- A call on one document. -/
theorem Linked.afterCall (h : desk.Linked) (id : Nat) {d : Document}
    (hstep : Step (desk.document id) d) : (desk.afterCall id d).Linked := by
  refine h.settle_local (Touches.update List.mem_cons_self d) (fun i => ?_) fun i => ?_
  · by_cases hi : i = id
    · subst hi
      rw [Function.update_self]
      exact hstep.wf (h.wf i)
    · rw [Function.update_of_ne hi]
      exact h.wf i
  · by_cases hi : i = id
    · subst hi
      rw [Function.update_self]
      exact hstep.localEffect (h.wf i)
    · rw [Function.update_of_ne hi]
      exact LocalEffect.refl _

/-- A refused group operation. -/
theorem Linked.afterRefusal (h : desk.Linked) (hframe : Touches touched desk.document documents)
    (hevict : AllEvict desk.document documents) :
    (desk.settle none touched documents).Linked :=
  h.settle_local hframe (fun id => (hevict id).wf (h.wf id)) fun id => .of_evicts (hevict id)

/-- The members of a group that is undone or redone are the documents whose entries move. -/
theorem Linked.moved (h : desk.Linked) {redo : Bool} {expected : Nat} {ids : List Nat}
    (hmoved : GroupMovedAll redo expected desk.document ids documents) :
    ∃ members : List Nat, members.Perm ids ∧ ∀ id ∈ ids,
      Document.GroupMoved redo expected members (desk.document id) (documents id) := by
  obtain ⟨members, hmembers, hmove⟩ := hmoved.moved
  rw [List.map_congr_left fun id _ => h.ids id, List.map_id'] at hmembers
  exact ⟨members, hmembers, hmove⟩

/-- A group undo or redo. -/
theorem Linked.afterMove (h : desk.Linked) (hframe : Touches touched desk.document documents)
    {redo : Bool} {expected : Nat} {ids : List Nat} (hids : ids ≠ [])
    (hmoved : GroupMovedAll redo expected desk.document ids documents) :
    (desk.settle none touched documents).Linked := by
  obtain ⟨members, hmembers, hmove⟩ := h.moved hmoved
  have hnew : ∀ id, NoNewTags (desk.document id) (documents id) := by
    intro id
    by_cases hid : id ∈ ids
    · exact fun tag htag => (hmove id hid).mem_tags htag
    · exact (hmoved.others id hid).evicts.noNewTags
  have hcount : ∀ id g, id ∈ ids →
      groupCount g ((documents id).source redo).entries + (if g = expected then 1 else 0) =
        groupCount g ((desk.document id).source redo).entries ∧
      groupCount g ((documents id).destination redo).entries =
        groupCount g ((desk.document id).destination redo).entries +
          (if g = expected then 1 else 0) := fun id g hid => (hmove id hid).count g
  have hheld : ∀ id g, (documents id).held g ≤ (desk.document id).held g := by
    intro id g
    by_cases hid : id ∈ ids
    · have hone := hcount id g hid
      rw [Document.held_sides _ redo, Document.held_sides _ redo]
      omega
    · exact ((hmoved.others id hid).evicts.keeps g).held_le
  refine h.settle (fun id => ?_) (fun id => ?_) (fun id tag htag => .inl (hnew id tag htag))
    (fun c hc => nomatch hc) fun g => ?_
  · by_cases hid : id ∈ ids
    · exact (hmove id hid).documentId
    · rw [(hmoved.others id hid).current]
  · by_cases hid : id ∈ ids
    · exact (hmove id hid).wf (h.wf id)
    · exact (hmoved.others id hid).evicts.wf (h.wf id)
  · refine (h.groups g).imp (settle_absent rfl fun id => hheld id g) fun ⟨all, hinv⟩ => ⟨all, ?_⟩
    by_cases hg : g = expected
    · subst hg
      refine hinv.settle rfl hframe (fun id tag htag _ => hnew id tag htag) (fun id => hheld id g) ?_
      -- The members that move are the members of the group, so all entries change sides.
      obtain ⟨first, hfirst⟩ := List.exists_mem_of_ne_nil ids hids
      obtain ⟨tag, hmem, htag, htagMembers⟩ := (hmove first hfirst).exists_tag
      have hall : members = all := htagMembers.symm.trans (hinv.tags first tag hmem htag)
      intro hlinked hsame side hside
      have hsource : side = redo := by
        by_contra hne
        have hone := hcount first g hfirst
        have honce := hinv.once first
        have hfirstSide := hside first (hall ▸ hmembers.mem_iff.mpr hfirst)
        have hdest : (desk.document first).source side = (desk.document first).destination redo := by
          cases side <;> cases redo <;> first | rfl | exact absurd rfl hne
        rw [hdest] at hfirstSide
        rw [if_pos (hall ▸ hmembers.mem_iff.mpr hfirst), Document.held_sides _ redo] at honce
        rw [if_pos rfl] at hone
        omega
      subst hsource
      refine ⟨!side, fun id hid => ?_⟩
      have hidIn : id ∈ ids := hmembers.mem_iff.mp (hall ▸ hid)
      have hone := hcount id g hidIn
      have honce := hinv.once id
      have hstart := hside id hid
      have hdest : (documents id).source (!side) = (documents id).destination side := by
        cases side <;> rfl
      rw [hdest]
      rw [if_pos hid, Document.held_sides _ side] at honce
      rw [if_pos rfl] at hone
      omega
    · refine hinv.settle_keeps rfl hframe (fun id tag htag _ => hnew id tag htag)
        (fun id => hheld id g) fun _ id => ?_
      by_cases hid : id ∈ ids
      · exact (hmove id hid).keeps hg
      · exact (hmoved.others id hid).evicts.keeps g

/-- The group that the step committed. -/
theorem GroupInv.commit {g : Nat} {ids members : List Nat}
    (hnone : ∀ id, (desk.document id).held g = 0) (hids : ids ≠ []) (hmembers : members.Perm ids)
    (htouched : ids ⊆ touched)
    (htags : ∀ id, ∀ tag ∈ (documents id).tags, tag.id = g → tag.members = members)
    (hcount : ∀ id ∈ ids, groupCount g (documents id).undo.entries ≤ 1 ∧
      groupCount g (documents id).redo.entries = 0)
    (hother : ∀ id ∉ ids, (documents id).held g = 0) :
    (desk.settle (some (g, ids)) touched documents).GroupInv g members := by
  have hhandled (id : Nat) : desk.handled (some (g, ids)) id g = if id ∈ ids then 1 else 0 := by
    rw [handled, hnone, Option.any_some, beq_self_eq_true, Bool.true_and]
    by_cases hid : id ∈ ids
    · rw [List.contains_iff_mem.mpr hid, if_pos hid]
      rfl
    · rw [if_neg fun hmem => hid (List.contains_iff_mem.mp hmem), if_neg hid]
  refine ⟨fun hnil => ?_, fun id tag htag hid => ?_, fun id => ?_, fun hflag => ?_, fun hflag => ?_⟩
  · rw [hnil] at hmembers
    exact hids hmembers.nil_eq.symm
  · rw [settle_document, Document.relink_tags] at htag
    obtain ⟨old, hold, rfl⟩ := List.mem_map.mp htag
    exact htags id old hold hid
  · rw [settle_document, Document.relink_held]
    by_cases hid : id ∈ ids
    · obtain ⟨hundo, hredo⟩ := hcount id hid
      rw [if_pos (hmembers.mem_iff.mpr hid), Document.held]
      omega
    · rw [if_neg fun hmem => hid (hmembers.mem_iff.mp hmem), hother id hid]
  · have hflag : desk.settledFlag _ touched documents g = true := hflag
    rw [settledFlag, Bool.and_eq_true, List.all_eq_true] at hflag
    refine ⟨false, fun id hid => ?_⟩
    have hidIn := hmembers.mem_iff.mp hid
    obtain ⟨hundo, hredo⟩ := hcount id hidIn
    have hkept := of_decide_eq_true (hflag.2 id (htouched hidIn))
    rw [hhandled, if_pos hidIn, Document.held] at hkept
    rw [settle_document, Document.relink_source, groupCount_relink]
    show groupCount g (documents id).undo.entries = 1
    omega
  · have hflag : desk.settledFlag _ touched documents g = false := hflag
    rw [settledFlag, Option.any_some, beq_self_eq_true, Bool.or_true, Bool.true_and] at hflag
    obtain ⟨id, -, hdropped⟩ := List.all_eq_false.mp hflag
    rw [decide_eq_true_eq, hhandled] at hdropped
    -- Only a member can have lost its entry, to a policy that keeps none.
    split_ifs at hdropped with hidIn
    · refine ⟨id, hmembers.mem_iff.mpr hidIn, ?_⟩
      rw [settle_document, Document.relink_held]
      omega
    · exact absurd (Nat.zero_le _) hdropped

/-- A group edit under a new group. -/
theorem Linked.afterCommit (h : desk.Linked) (hframe : Touches touched desk.document documents)
    {w : GroupWorld} {group : Nat} (hgroup : desk.nextGroup ≤ group)
    {targets : List (Nat × EditTransaction)} (hne : targets ≠ [])
    (htouched : targets.map Prod.fst ⊆ touched)
    (happlied : GroupApplied w group desk.document targets documents) :
    (desk.settle (some (group, targets.map Prod.fst)) touched documents).Linked := by
  have hids : targets.map Prod.fst ≠ [] := fun hnil => hne (List.map_eq_nil_iff.mp hnil)
  obtain ⟨members, -, -, hmembers, hedited⟩ := happlied.edited
  have hmembers : members.Perm (targets.map Prod.fst) := by
    refine hmembers.trans (List.Perm.of_eq ?_)
    exact List.map_congr_left fun target _ => h.ids target.1
  have hedit : ∀ id ∈ targets.map Prod.fst, ∃ tr, Document.GroupEdited (w.env id)
      ⟨group, members, true⟩ tr (desk.document id) (documents id) := by
    intro id hid
    obtain ⟨target, htarget, rfl⟩ := List.mem_map.mp hid
    exact ⟨target.2, hedited target htarget⟩
  have hnone : ∀ id, (desk.document id).held group = 0 := by
    intro id
    refine Nat.eq_zero_of_not_pos fun hpos => ?_
    obtain ⟨tag, htag, hid⟩ := Document.held_pos.mp hpos
    have hlt := h.fresh id tag htag
    omega
  have htags : ∀ id, ∀ tag ∈ (documents id).tags, tag ∈ (desk.document id).tags ∨
      tag = ⟨group, members, true⟩ := by
    intro id tag htag
    by_cases hid : id ∈ targets.map Prod.fst
    · obtain ⟨tr, hone⟩ := hedit id hid
      exact hone.mem_tags htag
    · exact .inl ((happlied.others id hid).noNewTags tag htag)
  refine h.settle (fun id => ?_) (fun id => ?_) (fun id tag htag => ?_) (fun c hc => ?_) fun g => ?_
  · by_cases hid : id ∈ targets.map Prod.fst
    · obtain ⟨tr, hone⟩ := hedit id hid
      exact hone.documentId
    · rw [(happlied.others id hid).current]
  · by_cases hid : id ∈ targets.map Prod.fst
    · obtain ⟨tr, hone⟩ := hedit id hid
      exact hone.wf (h.wf id)
    · exact (happlied.others id hid).wf (h.wf id)
  · exact (htags id tag htag).imp_right fun heq => ⟨_, rfl, by rw [heq]⟩
  · obtain rfl := Option.some.inj hc
    exact hgroup
  · by_cases hg : g = group
    · subst hg
      refine .inr ⟨members, .commit hnone hids hmembers htouched (fun id tag htag hid => ?_)
        (fun id hid => ?_) fun id hid => ?_⟩
      · obtain hold | rfl := htags id tag htag
        · have hlt : g < desk.nextGroup := hid ▸ h.fresh id tag hold
          omega
        · rfl
      · obtain ⟨tr, hone⟩ := hedit id hid
        obtain ⟨hundo, hredo⟩ := hone.count (hnone id)
        exact ⟨hundo.trans_le (Nat.min_le_left ..), hredo⟩
      · exact Nat.eq_zero_of_le_zero (hnone id ▸ ((happlied.others id hid).keeps g).held_le)
    · have hother : ((some (group, targets.map Prod.fst)).any fun c => c.1 == g) = false := by
        rw [Option.any_some, beq_eq_false_iff_ne]
        exact fun heq => hg heq.symm
      have hkeeps : ∀ id, Keeps g (desk.document id) (documents id) := by
        intro id
        by_cases hid : id ∈ targets.map Prod.fst
        · obtain ⟨tr, hone⟩ := hedit id hid
          exact hone.keeps hg
        · exact (happlied.others id hid).keeps g
      refine (h.groups g).imp (settle_absent hother fun id => (hkeeps id).held_le)
        fun hall => hall.imp fun all hinv => ?_
      refine hinv.settle_keeps hother hframe (fun id tag htag hid => ?_)
        (fun id => (hkeeps id).held_le) fun _ => hkeeps
      exact (htags id tag htag).resolve_right fun heq => hg (by rw [← hid, heq])

/-- A whole group operation. -/
theorem Linked.afterGroup (h : desk.Linked) (w : GroupWorld) {group : Nat}
    (hgroup : desk.nextGroup ≤ group) {mutation : GroupMutation}
    (hvalid : validGroup mutation = true) : (desk.afterGroup w group mutation).Linked := by
  have hroot := fun id => (h.wf id).root
  have hframe := runGroup_touches (w := w) group hroot mutation
  have hcases := runGroup_cases (w := w) group hroot h.ids hvalid
  obtain ⟨-, hfew, -⟩ := validGroup_ok hvalid
  have hparticipants : mutation.participants ≠ [] := by
    intro hnil
    rw [hnil] at hfew
    exact absurd hfew (by decide)
  rw [Desk.afterGroup]
  generalize runGroup w group desk.document mutation = answer at hframe hcases ⊢
  obtain ⟨result, documents'⟩ := answer
  obtain ⟨e, hresult, hevict, -⟩ | ⟨hresult, hchanged⟩ := hcases
  · obtain rfl : result = .error e := hresult
    exact h.afterRefusal hframe hevict
  · obtain rfl : result = .ok (mutation.answer group) := hresult
    have hids : mutation.participants.map Participant.id ≠ [] := fun hnil =>
      hparticipants (List.map_eq_nil_iff.mp hnil)
    cases mutation with
    | undo expected participants => exact h.afterMove hframe hids hchanged
    | redo expected participants => exact h.afterMove hframe hids hchanged
    | apply edits =>
      have heq : (edits.map fun target => (target.1.id, target.2)).map Prod.fst =
          (GroupMutation.apply edits).participants.map Participant.id := by
        rw [GroupMutation.participants, List.map_map, List.map_map]
        rfl
      have hcommit := h.afterCommit hframe hgroup (fun hnil => hids (by rw [← heq, hnil]; rfl))
        (heq ▸ List.subset_append_left _ _) hchanged
      rw [heq] at hcommit
      exact hcommit

/-- A document that no group edit has touched has no tags. -/
theorem untagged {d : Document} (h : BareLine.Reachable d) : d.tags = [] := by
  induction h with
  | fromUtf8 h =>
    obtain ⟨root, -, rfl⟩ := Document.fromUtf8_wf h
    rfl
  | built h =>
    obtain ⟨-, hundo, hredo⟩ := h.wf
    rw [Document.tags, Document.finishBuilder, hundo, hredo]
    rfl
  | forkFromSnapshot _ h _ =>
    rw [Document.forkFromSnapshot] at h
    split_ifs at h
    exact Except.ok.inj h ▸ rfl
  | initializeMetadata _ metadata ih =>
    rw [Document.initializeMetadata]
    split_ifs
    · exact ih
    · exact ih
  | step hd h ih =>
    refine List.eq_nil_iff_forall_not_mem.mpr fun tag htag => ?_
    have hold := (h.localEffect hd.wf).noNewTags tag htag
    rw [ih] at hold
    exact List.not_mem_nil hold

/-- The invariant holds in every reachable state. -/
theorem Reachable.linked (h : Reachable desk) : desk.Linked := by
  induction h with
  | @opened document hdocuments hids =>
    have hnone : ∀ id, (document id).tags = [] := fun id => untagged (hdocuments id)
    refine ⟨hids, fun id => (hdocuments id).wf, fun id tag htag => ?_, fun id tag htag => ?_,
      (fun g hflag => nomatch hflag), fun g => .inl ⟨rfl, fun id => ?_⟩⟩
    · rw [hnone id] at htag
      exact absurd htag List.not_mem_nil
    · rw [hnone id] at htag
      exact absurd htag List.not_mem_nil
    · refine Nat.eq_zero_of_not_pos fun hpos => ?_
      obtain ⟨tag, htag, -⟩ := Document.held_pos.mp hpos
      rw [hnone id] at htag
      exact absurd htag List.not_mem_nil
  | call _ id hstep ih => exact ih.afterCall id hstep
  | group _ w hgroup hvalid ih => exact ih.afterGroup w hgroup hvalid

/-! ## §5 What holds in every run -/

/-- All members of the group still hold an entry of it. -/
def Live (desk : Desk) (g : Nat) (members : List Nat) : Prop :=
  members ≠ [] ∧ ∀ id ∈ members, ∃ tag ∈ (desk.document id).tags, tag.id = g ∧
    tag.members = members

/-- No entry of the group changes sides. -/
def Stays (desk : Desk) (g : Nat) (documents : Nat → Document) : Prop :=
  ∀ id, Keeps g (desk.document id) (documents id)

/-- The entry of every member changes sides. -/
def MovesTogether (desk : Desk) (g : Nat) (members : List Nat) (documents : Nat → Document) :
    Prop :=
  ∃ redo, ∀ id ∈ members,
    groupCount g ((desk.document id).source redo).entries = 1 ∧
    groupCount g ((desk.document id).destination redo).entries = 0 ∧
    groupCount g ((documents id).source redo).entries = 0 ∧
    groupCount g ((documents id).destination redo).entries = 1

/-- The flag of a live group is set. -/
theorem Linked.live_flag (h : desk.Linked) {g : Nat} {members : List Nat}
    (hlive : desk.Live g members) : desk.linked g = true ∧ desk.GroupInv g members := by
  obtain ⟨hne, hall⟩ := hlive
  obtain ⟨first, hfirst⟩ := List.exists_mem_of_ne_nil members hne
  obtain ⟨tag, htag, hid, hmembers⟩ := hall first hfirst
  have hpos : 0 < (desk.document first).held g := Document.held_pos.mpr ⟨tag, htag, hid⟩
  obtain ⟨-, hnone⟩ | ⟨all, hinv⟩ := h.groups g
  · rw [hnone first] at hpos
    exact absurd hpos (Nat.lt_irrefl 0)
  · obtain rfl : members = all := hmembers.symm.trans (hinv.tags first tag htag hid)
    refine ⟨?_, hinv⟩
    cases hflag : desk.linked g with
    | true => rfl
    | false =>
      obtain ⟨id, hmem, hlost⟩ := hinv.lost hflag
      obtain ⟨tag, htag, hid, -⟩ := hall id hmem
      have hheld : 0 < (desk.document id).held g := Document.held_pos.mpr ⟨tag, htag, hid⟩
      omega

/-- A live group's entries are on the same side of all members, one in each. -/
theorem Linked.sameSide (h : desk.Linked) {g : Nat} {members : List Nat}
    (hlive : desk.Live g members) : ∃ redo, ∀ id ∈ members,
      groupCount g ((desk.document id).source redo).entries = 1 ∧
      groupCount g ((desk.document id).destination redo).entries = 0 := by
  obtain ⟨hflag, hinv⟩ := h.live_flag hlive
  obtain ⟨redo, hside⟩ := hinv.side hflag
  refine ⟨redo, fun id hid => ⟨hside id hid, ?_⟩⟩
  have honce := hinv.once id
  have hone := hside id hid
  rw [if_pos hid, Document.held] at honce
  cases redo with
  | false =>
    have hone : groupCount g (desk.document id).undo.entries = 1 := hone
    show groupCount g (desk.document id).redo.entries = 0
    omega
  | true =>
    have hone : groupCount g (desk.document id).redo.entries = 1 := hone
    show groupCount g (desk.document id).undo.entries = 0
    omega

/-- A call on one document moves no entry of a live group. -/
theorem Linked.call_stays (h : desk.Linked) {g : Nat} {members : List Nat}
    (hlive : desk.Live g members) (id : Nat) {d : Document} (hstep : Step (desk.document id) d) :
    desk.Stays g (Function.update desk.document id d) := by
  obtain ⟨hflag, -⟩ := h.live_flag hlive
  intro i
  by_cases hi : i = id
  · subst hi
    rw [Function.update_self]
    refine (hstep.localEffect (h.wf i)).keeps g fun tag htag hg => ?_
    rw [h.synced i tag htag, hg, hflag]
  · rw [Function.update_of_ne hi]
    exact Keeps.refl g _

/-- A group operation leaves the entries of a live group, or moves all of them. -/
theorem Linked.group_together (h : desk.Linked) (w : GroupWorld) {group : Nat}
    (hgroup : desk.nextGroup ≤ group) {mutation : GroupMutation}
    (hvalid : validGroup mutation = true) {g : Nat} {members : List Nat}
    (hlive : desk.Live g members) :
    desk.Stays g (runGroup w group desk.document mutation).2 ∨
      desk.MovesTogether g members (runGroup w group desk.document mutation).2 := by
  obtain ⟨hflag, hinv⟩ := h.live_flag hlive
  have hfresh : g ≠ group := by
    have hlt := h.flags g hflag
    omega
  have hmove : ∀ {redo : Bool} {expected : Nat} {ids : List Nat} {documents : Nat → Document},
      GroupMovedAll redo expected desk.document ids documents →
        desk.Stays g documents ∨ desk.MovesTogether g members documents := by
    intro redo expected ids documents hmoved
    obtain ⟨all, hall, hmove⟩ := h.moved hmoved
    by_cases hids : g = expected ∧ ids ≠ []
    · obtain ⟨rfl, hids⟩ := hids
      refine .inr ⟨redo, ?_⟩
      obtain ⟨first, hfirst⟩ := List.exists_mem_of_ne_nil ids hids
      obtain ⟨tag, hmem, htag, htagMembers⟩ := (hmove first hfirst).exists_tag
      have heq : all = members := htagMembers.symm.trans (hinv.tags first tag hmem htag)
      intro id hid
      have hone := (hmove id (hall.mem_iff.mp (heq ▸ hid))).count g
      have honce := hinv.once id
      rw [if_pos rfl] at hone
      rw [if_pos hid, Document.held_sides _ redo] at honce
      omega
    · refine .inl fun id => ?_
      by_cases hid : id ∈ ids
      · exact (hmove id hid).keeps fun heq => hids ⟨heq, List.ne_nil_of_mem hid⟩
      · exact (hmoved.others id hid).evicts.keeps g
  obtain ⟨e, -, hevict, -⟩ | ⟨-, hchanged⟩ :=
    runGroup_cases (w := w) group (fun id => (h.wf id).root) h.ids hvalid
  · exact .inl fun id => (hevict id).keeps g
  · cases mutation with
    | undo expected participants => exact hmove hchanged
    | redo expected participants => exact hmove hchanged
    | apply edits =>
      obtain ⟨all, -, -, -, hedited⟩ := hchanged.edited
      refine .inl fun id => ?_
      by_cases hid : id ∈ (edits.map fun target => (target.1.id, target.2)).map Prod.fst
      · obtain ⟨target, htarget, rfl⟩ := List.mem_map.mp hid
        exact (hedited target htarget).keeps hfresh
      · exact (hchanged.others id hid).keeps g

/-- Once a member has lost its entry, the flag of the group is clear. -/
theorem Linked.unlinked (h : desk.Linked) {id : Nat} {tag : GroupTag}
    (htag : tag ∈ (desk.document id).tags)
    (hlost : ∃ other ∈ tag.members, (desk.document other).held tag.id = 0) : tag.linked = false := by
  rw [h.synced id tag htag]
  obtain ⟨other, hother, hnone⟩ := hlost
  obtain ⟨hflag, -⟩ | ⟨members, hinv⟩ := h.groups tag.id
  · exact hflag
  · refine Bool.eq_false_iff.mpr fun hflag => ?_
    obtain ⟨redo, hside⟩ := hinv.side hflag
    have hone := hside other (hinv.tags id tag htag rfl ▸ hother)
    rw [Document.held] at hnone
    cases redo with
    | false =>
      have hone : groupCount tag.id (desk.document other).undo.entries = 1 := hone
      omega
    | true =>
      have hone : groupCount tag.id (desk.document other).redo.entries = 1 := hone
      omega

end Desk

/-- A receipt that does not fit is no linked entry. -/
theorem AppliedChange.owned_error {sizes : Layout} {documentId beforeRevision afterRevision
    beforeState afterState : Nat} {direction : ChangeDirection} {edits : List OwnedEdit}
    {heap : Heap} {e : Error} (h : AppliedChange.owned sizes documentId beforeRevision afterRevision
      beforeState afterState direction edits heap = .error e) : e = .budgetExceeded := by
  rw [AppliedChange.owned] at h
  split at h
  · exact (Except.error.inj h).symm
  · rw [Heap.reserve] at h
    split_ifs at h
    · cases h
    · exact (Except.error.inj h).symm

theorem HistoryStack.tryReserve_error {stack : HistoryStack} {size available additional : Nat}
    {e : Error} (h : stack.tryReserve size available additional = .error e) :
    e = .budgetExceeded := by
  rw [HistoryStack.tryReserve] at h
  split at h
  · exact (Except.error.inj h).symm
  split_ifs at h
  dsimp only at h
  split at h
  · exact (Except.error.inj h).symm
  split at h
  · exact (Except.error.inj h).symm
  split_ifs at h
  exact (Except.error.inj h).symm

theorem Document.nextRevision_error {d : Document} {e : Error} (h : d.nextRevision = .error e) :
    e = .revisionOverflow := by
  rw [Document.nextRevision] at h
  split_ifs at h
  exact (Except.error.inj h).symm

/-- An undo is refused for its partners only while its entry is linked. -/
theorem Document.undo_not_locked {relieve : Relief} {env : Env} {d : Document}
    (h : linkedEntry d.undo.entries.getLast? = false) :
    (d.undoRelieved relieve env).1 ≠ .error .linkedUndoRequired := by
  rw [undoRelieved, h, if_neg Bool.false_ne_true]
  split
  · rename_i e herror
    rw [nextRevision_error herror]
    exact fun heq => (by cases heq)
  split
  · exact fun heq => (by cases heq)
  dsimp only
  split
  · rename_i e herror
    rw [HistoryStack.tryReserve_error herror]
    exact fun heq => (by cases heq)
  split
  · exact fun heq => (by cases heq)
  split
  · rename_i e herror
    rw [AppliedChange.owned_error herror]
    exact fun heq => (by cases heq)
  · exact fun heq => (by cases heq)

theorem Document.redo_not_locked {relieve : Relief} {env : Env} {d : Document}
    (h : linkedEntry d.redo.entries.getLast? = false) :
    (d.redoRelieved relieve env).1 ≠ .error .linkedUndoRequired := by
  rw [redoRelieved, h, if_neg Bool.false_ne_true]
  split
  · rename_i e herror
    rw [nextRevision_error herror]
    exact fun heq => (by cases heq)
  split
  · exact fun heq => (by cases heq)
  dsimp only
  split
  · rename_i e herror
    rw [HistoryStack.tryReserve_error herror]
    exact fun heq => (by cases heq)
  split
  · exact fun heq => (by cases heq)
  split
  · rename_i e herror
    rw [AppliedChange.owned_error herror]
    exact fun heq => (by cases heq)
  · exact fun heq => (by cases heq)

namespace Desk

/-- Linked groups in one state: where their entries are, who may move them, and what a group
operation does from here. -/
structure Coherent (desk : Desk) : Prop where
  sameSide : ∀ g members, desk.Live g members → ∃ redo, ∀ id ∈ members,
    groupCount g ((desk.document id).source redo).entries = 1 ∧
    groupCount g ((desk.document id).destination redo).entries = 0
  alone : ∀ g members, desk.Live g members → ∀ id d, Step (desk.document id) d →
    desk.Stays g (Function.update desk.document id d)
  together : ∀ g members, desk.Live g members → ∀ w group mutation, desk.nextGroup ≤ group →
    validGroup mutation = true →
      desk.Stays g (runGroup w group desk.document mutation).2 ∨
        desk.MovesTogether g members (runGroup w group desk.document mutation).2
  /-- Once a member has lost its entry, the others undo and redo theirs locally. -/
  released : ∀ id redo rest entry tag, ((desk.document id).source redo).entries = rest ++ [entry] →
    entry.group = some tag → (∃ other ∈ tag.members, (desk.document other).held tag.id = 0) →
      ∀ relieve env, (if redo then (desk.document id).redoRelieved relieve env
        else (desk.document id).undoRelieved relieve env).1 ≠ .error .linkedUndoRequired
  /-- All members or none. -/
  allOrNone : ∀ w group mutation, desk.nextGroup ≤ group → validGroup mutation = true →
    (∃ e, (runGroup w group desk.document mutation).1 = .error e ∧
      ∀ id, ((runGroup w group desk.document mutation).2 id).current =
        (desk.document id).current) ∨
    ((runGroup w group desk.document mutation).1 = .ok (mutation.answer group) ∧
      GroupChanged w group desk.document (runGroup w group desk.document mutation).2 mutation)

/-- Group operations that are refused under this condition keep every history. -/
def RefusalsKeep (desk : Desk)
    (condition : GroupWorld → (Nat → Document) → GroupMutation → Prop) : Prop :=
  ∀ w group mutation e, desk.nextGroup ≤ group → validGroup mutation = true →
    condition w desk.document mutation →
    (runGroup w group desk.document mutation).1 = .error e →
      AllSame desk.document (runGroup w group desk.document mutation).2

theorem Linked.coherent {desk : Desk} (h : desk.Linked) : desk.Coherent := by
  refine ⟨fun g members hlive => h.sameSide hlive,
    fun g members hlive id d hstep => h.call_stays hlive id hstep,
    fun g members hlive w group mutation hgroup hvalid =>
      h.group_together w hgroup hvalid hlive, ?_, fun w group mutation _ hvalid => ?_⟩
  · intro id redo rest entry tag hlast hgroup hlost relieve env
    have hmem : tag ∈ stackTags ((desk.document id).source redo).entries := by
      rw [hlast, stackTags_append, stackTags_tagged hgroup]
      exact List.mem_append_right _ List.mem_cons_self
    have hunlinked : ∀ entries : List History, entries = rest ++ [entry] →
        tag ∈ (desk.document id).tags → Document.linkedEntry entries.getLast? = false := by
      intro entries hentries htag
      rw [hentries, List.getLast?_concat, Document.linkedEntry, Option.bind_some, hgroup, Option.any_some]
      exact h.unlinked htag hlost
    cases redo with
    | false => exact Document.undo_not_locked (hunlinked _ hlast (List.mem_append_left _ hmem))
    | true => exact Document.redo_not_locked (hunlinked _ hlast (List.mem_append_right _ hmem))
  · refine (runGroup_cases (w := w) group (fun id => (h.wf id).root) h.ids hvalid).imp_left ?_
    rintro ⟨e, herror, hevict, -⟩
    exact ⟨e, herror, fun id => (hevict id).current⟩

end Desk

/-- In every run of group operations and local calls, linked groups stay coherent, and a
refused group operation keeps every history while nobody disturbs its budgets. -/
theorem linked_groups_all_or_nothing {desk : Desk} (h : desk.Reachable) :
    desk.Coherent ∧ desk.RefusalsKeep Quiet := by
  refine ⟨h.linked.coherent, fun w group mutation e _ hvalid hquiet herror => ?_⟩
  obtain ⟨e', -, -, hsame⟩ | ⟨hok, -⟩ :=
    runGroup_cases (w := w) group (fun id => (h.linked.wf id).root) h.linked.ids hvalid
  · exact hsame hquiet
  · rw [hok] at herror
    exact nomatch herror

/-- A document in which "a" was typed and replaced twice. -/
def typedDocument (id : Nat) : Document :=
  let d := Document.opened none DocumentMetadata.default id 1
  let worlds (unique : Nat) : Nat → Env :=
    fun _ => { Env.roomy with contentState := unique, sequence := unique + 1 }
  let d := (d.apply (worlds 2) ⟨0, [⟨⟨0, 0⟩, [97]⟩]⟩).2
  let d := (d.apply (worlds 4) ⟨1, [⟨⟨0, 1⟩, [98]⟩]⟩).2
  (d.apply (worlds 6) ⟨2, [⟨⟨0, 1⟩, [99]⟩]⟩).2

/-- Two such documents on a desk of empty ones. -/
def typedDesk : Desk where
  document := fun id =>
    if id < 2 then typedDocument id else .opened none DocumentMetadata.default id 1
  linked := fun _ => false
  nextGroup := 0

theorem typedDesk_reachable : typedDesk.Reachable := by
  have htext : fromText [] ⟨1048576, 0, 2⟩ = .ok (none, ⟨1048576, 0, 2⟩) := by decide +kernel
  have hopened : ∀ id, Reachable (.opened none DocumentMetadata.default id 1) := by
    intro id
    have hnew : Document.fromUtf8 ⟨1048576, 0, 2⟩ id 1 [] =
        .ok (.opened none DocumentMetadata.default id 1) := by
      rw [Document.fromUtf8, htext]
      rfl
    exact .fromUtf8 hnew
  have htyped : ∀ id, Reachable (typedDocument id) := fun id =>
    (((hopened id).step (.apply ownRelief_onlyEvicts _ _ none)).step
      (.apply ownRelief_onlyEvicts _ _ none)).step (.apply ownRelief_onlyEvicts _ _ none)
  refine .opened (fun id => ?_) fun id => ?_
  · split
    · exact htyped id
    · exact hopened id
  · split
    · rename_i hid
      obtain rfl | rfl : id = 0 ∨ id = 1 := by omega
      · decide +kernel
      · decide +kernel
    · rfl

theorem typedDesk_coherent : typedDesk.Coherent ∧ typedDesk.RefusalsKeep Quiet :=
  linked_groups_all_or_nothing typedDesk_reachable

/-- Both documents share one history budget, of which others leave this much room. -/
def sharedWorld (room : Nat → Nat) : GroupWorld where
  env := fun _ => { Env.roomy with contentState := 8, sequence := 9 }
  budget := fun _ => 0
  busy := fun _ => false
  registered := []
  nodup := List.nodup_nil
  available := fun turn documents charged _ => room turn -
    (([0, 1].map fun id =>
      (documents id).slotBytes Env.roomy + (documents id).entryBytes Env.roomy).sum +
        (charged.map fun member => member.prepared.entry.claimBytes).sum)

/-- One insertion in each document. -/
def pairedEdit : GroupMutation :=
  .apply [(⟨0, (typedDocument 0).current⟩, ⟨3, [⟨⟨1, 1⟩, [100]⟩]⟩),
    (⟨1, (typedDocument 1).current⟩, ⟨3, [⟨⟨1, 1⟩, [100]⟩]⟩)]

/-- The group was found admissible, then another worker took room of the shared budget: both
histories are evicted and the group is refused. -/
theorem refused_group_costs_history :
    (runGroup (sharedWorld fun turn => if turn ≤ 1 then 7000 else 2500) 0 typedDesk.document
      pairedEdit).1 = .error .budgetExceeded ∧
    ¬∀ desk : Desk, desk.Reachable → desk.Coherent ∧ desk.RefusalsKeep fun _ _ _ => True := by
  have hrefused : (runGroup (sharedWorld fun turn => if turn ≤ 1 then 7000 else 2500) 0
      typedDesk.document pairedEdit).1 = .error .budgetExceeded := by decide +kernel
  refine ⟨hrefused, fun hall => ?_⟩
  have hsame := (hall typedDesk typedDesk_reachable).2 _ 0 pairedEdit _ (Nat.zero_le 0)
    (by decide +kernel) trivial hrefused
  have hbefore : (typedDesk.document 0).undo.entries.length = 3 := by decide +kernel
  have hafter : ((runGroup (sharedWorld fun turn => if turn ≤ 1 then 7000 else 2500) 0
      typedDesk.document pairedEdit).2 0).undo.entries.length = 0 := by decide +kernel
  rw [(hsame 0).undo, hbefore] at hafter
  exact nomatch hafter

end BareLine
