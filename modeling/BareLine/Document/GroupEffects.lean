import BareLine.Document.GroupTags

/-!
# What a group operation does to each document

Refused, it leaves every snapshot as it was and at most drops old history.  Accepted, a
group edit commits one tagged entry in each member, and a group undo or redo moves the last
entry of each member to the other side.
-/

namespace BareLine

open Lib BareLine.Tree

/-! ## §1 The same content and history -/

/-- The snapshot and the entries of both stacks are the same; slots may differ. -/
structure SameHistory (d d' : Document) : Prop where
  current : d'.current = d.current
  undo : d'.undo.entries = d.undo.entries
  redo : d'.redo.entries = d.redo.entries
  rest : d' = { d with undo := d'.undo, redo := d'.redo }

namespace SameHistory

theorem refl (d : Document) : SameHistory d d := ⟨rfl, rfl, rfl, rfl⟩

theorem trans {a b c : Document} (h : SameHistory a b) (h' : SameHistory b c) :
    SameHistory a c :=
  ⟨h'.current.trans h.current, h'.undo.trans h.undo, h'.redo.trans h.redo, by
    rw [h'.rest, h.rest]⟩

theorem evicts {d d' : Document} (h : SameHistory d d') : Evicts d d' :=
  ⟨⟨0, h.undo⟩, ⟨0, h.redo⟩, h.rest⟩

/-- Another slot in one stack. -/
theorem of_reserve {d : Document} {undo redo : HistoryStack}
    (hundo : undo.entries = d.undo.entries) (hredo : redo.entries = d.redo.entries) :
    SameHistory d { d with undo := undo, redo := redo } := ⟨rfl, hundo, hredo, rfl⟩

end SameHistory

/-- Every document keeps its snapshot and loses old history at most. -/
def AllEvict (documents documents' : Nat → Document) : Prop :=
  ∀ id, Evicts (documents id) (documents' id)

/-- Every document keeps its snapshot and its history. -/
def AllSame (documents documents' : Nat → Document) : Prop :=
  ∀ id, SameHistory (documents id) (documents' id)

theorem AllEvict.refl (documents : Nat → Document) : AllEvict documents documents :=
  fun _ => Evicts.refl _

theorem AllEvict.trans {a b c : Nat → Document} (h : AllEvict a b) (h' : AllEvict b c) :
    AllEvict a c := fun id => (h id).trans (h' id)

theorem AllSame.refl (documents : Nat → Document) : AllSame documents documents :=
  fun _ => SameHistory.refl _

theorem AllSame.trans {a b c : Nat → Document} (h : AllSame a b) (h' : AllSame b c) :
    AllSame a c := fun id => (h id).trans (h' id)

theorem AllSame.allEvict {a b : Nat → Document} (h : AllSame a b) : AllEvict a b :=
  fun id => (h id).evicts

/-- One document of a family is replaced. -/
theorem AllEvict.update {documents : Nat → Document} {id : Nat} {d : Document}
    (h : Evicts (documents id) d) : AllEvict documents (Function.update documents id d) := by
  intro i
  by_cases hi : i = id
  · subst hi
    rwa [Function.update_self]
  · rw [Function.update_of_ne hi]
    exact Evicts.refl _

theorem AllSame.update {documents : Nat → Document} {id : Nat} {d : Document}
    (h : SameHistory (documents id) d) : AllSame documents (Function.update documents id d) := by
  intro i
  by_cases hi : i = id
  · subst hi
    rwa [Function.update_self]
  · rw [Function.update_of_ne hi]
    exact SameHistory.refl _

/-- Only the listed documents may differ. -/
def Touches (ids : List Nat) (documents documents' : Nat → Document) : Prop :=
  ∀ id, id ∉ ids → documents' id = documents id

theorem Touches.refl (ids : List Nat) (documents : Nat → Document) :
    Touches ids documents documents := fun _ _ => rfl

theorem Touches.trans {ids : List Nat} {a b c : Nat → Document} (h : Touches ids a b)
    (h' : Touches ids b c) : Touches ids a c := fun id hid => (h' id hid).trans (h id hid)

theorem Touches.update {ids : List Nat} {documents : Nat → Document} {id : Nat} (hid : id ∈ ids)
    (d : Document) : Touches ids documents (Function.update documents id d) := by
  intro i hi
  have hne : i ≠ id := fun heq => hi (heq ▸ hid)
  exact Function.update_of_ne hne _ _

theorem Touches.mono {ids ids' : List Nat} {documents documents' : Nat → Document}
    (h : Touches ids documents documents') (hsub : ids ⊆ ids') :
    Touches ids' documents documents' := fun id hid => h id fun hmem => hid (hsub hmem)

/-! ## §2 Admitting members -/

section Admission

variable {w : GroupWorld}

theorem evictOldest_allEvict {documents documents' : Nat → Document} {ids : List Nat}
    {budget : Nat} (h : evictOldest w documents ids budget = some documents') :
    AllEvict documents documents' := by
  obtain ⟨found, -, h⟩ := Option.bind_eq_some_iff.mp h
  obtain ⟨⟨released, d⟩, hevict, rfl⟩ := Option.map_eq_some_iff.mp h
  exact AllEvict.update (Document.evictOldestEntry_evicts hevict)

/-- The document that eviction picks is one of the list. -/
theorem oldestAmong_mem {documents : Nat → Document} {budget : Nat} {ids : List Nat}
    {found : Nat × Nat} (h : oldestAmong w documents budget ids = some found) :
    found.2 ∈ ids ∧ w.budget found.2 = budget ∧
      (documents found.2).oldestHistory (0, 0) = some found.1 := by
  induction ids generalizing found with
  | nil => exact nomatch h
  | cons id rest ih =>
    rw [oldestAmong] at h
    have hfirst : ∀ {sequence : Nat}, (if w.budget id = budget then
        (documents id).oldestHistory (0, 0) else none) = some sequence →
          w.budget id = budget ∧ (documents id).oldestHistory (0, 0) = some sequence := by
      intro sequence hsome
      split_ifs at hsome with hbudget
      exact ⟨hbudget, hsome⟩
    split at h
    · obtain ⟨hmem, hfound⟩ := ih h
      exact ⟨List.mem_cons_of_mem _ hmem, hfound⟩
    · rename_i hsome _
      rw [← Option.some.inj h]
      exact ⟨List.mem_cons_self, hfirst hsome⟩
    · rename_i hsome hrest
      split_ifs at h
      · rw [← Option.some.inj h]
        exact ⟨List.mem_cons_self, hfirst hsome⟩
      · obtain ⟨hmem, hfound⟩ := ih (hrest.trans h)
        exact ⟨List.mem_cons_of_mem _ hmem, hfound⟩

theorem evictOldest_touches {documents documents' : Nat → Document} {ids : List Nat}
    {budget : Nat} (h : evictOldest w documents ids budget = some documents') :
    Touches ids documents documents' := by
  obtain ⟨found, hfound, h⟩ := Option.bind_eq_some_iff.mp h
  obtain ⟨⟨released, d⟩, -, rfl⟩ := Option.map_eq_some_iff.mp h
  exact Touches.update (oldestAmong_mem hfound).1 _

theorem evictWhile_touches (turn : Nat) (charged : List Member) (ids : List Nat)
    (member : Member) (fuel : Nat) (documents : Nat → Document) :
    Touches ids documents (evictWhile w turn charged ids member fuel documents) := by
  induction fuel generalizing documents with
  | zero => exact Touches.refl _ _
  | succ fuel ih =>
    rw [evictWhile]
    split
    · split
      · exact Touches.refl _ _
      · rename_i documents' hevict
        exact (evictOldest_touches hevict).trans (ih documents')
    · exact Touches.refl _ _

/-- Admission touches members and peers only. -/
theorem admitMembers_touches (relieve : Bool) (ids : List Nat) (turn : Nat)
    (documents : Nat → Document) (charged rest : List Member)
    (hids : ∀ member ∈ rest, member.id ∈ ids) :
    Touches ids documents (admitMembers w relieve ids turn documents charged rest).2 := by
  induction rest generalizing turn documents charged with
  | nil => exact Touches.refl _ _
  | cons member rest ih =>
    rw [admitMembers]
    dsimp only
    have hmember := hids member List.mem_cons_self
    have htouch : Touches ids documents (if relieve = true then
        relieveMember w turn charged ids member documents else documents) := by
      split
      · exact Touches.trans (Touches.update hmember _)
          (evictWhile_touches turn charged ids member _ _)
      · exact Touches.refl _ _
    generalize (if relieve = true then relieveMember w turn charged ids member documents
      else documents) = documents₁ at htouch ⊢
    split
    · exact htouch
    split
    · exact htouch.trans (Touches.update hmember _)
    exact (htouch.trans (Touches.update hmember _)).trans
      (ih _ _ _ fun other hother => hids other (List.mem_cons_of_mem _ hother))

theorem evictWhile_allEvict (turn : Nat) (charged : List Member) (ids : List Nat)
    (member : Member) (fuel : Nat) (documents : Nat → Document) :
    AllEvict documents (evictWhile w turn charged ids member fuel documents) := by
  induction fuel generalizing documents with
  | zero => exact AllEvict.refl _
  | succ fuel ih =>
    rw [evictWhile]
    split
    · split
      · exact AllEvict.refl _
      · rename_i documents' hevict
        exact (evictOldest_allEvict hevict).trans (ih documents')
    · exact AllEvict.refl _

theorem relieveMember_allEvict (turn : Nat) (charged : List Member) (ids : List Nat)
    (member : Member) (documents : Nat → Document) :
    AllEvict documents (relieveMember w turn charged ids member documents) :=
  AllEvict.trans (AllEvict.update (Document.relieveRedo_evicts _ _ _))
    (evictWhile_allEvict turn charged ids member _ _)

/-- What admission made of a staged member. -/
def Charged (member member' : Member) : Prop :=
  member'.id = member.id ∧ member'.next = member.next ∧
    Admitted member.prepared member'.prepared ∧ member'.prepared.tracked = true

theorem charge_tracked {env : Env} {d : Document} {p p' : PreparedEdit} {selections : Nat}
    (h : d.charge env p selections = some p') : p'.tracked = true := by
  rw [Document.charge] at h
  dsimp only at h
  split_ifs at h <;> rw [← Option.some.inj h]

/-- Admission drops history at most, and only when it relieves; accepted members are
charged in their order. -/
theorem admitMembers_spec (relieve : Bool) (ids : List Nat) (turn : Nat)
    (documents : Nat → Document) (charged rest : List Member) :
    AllEvict documents (admitMembers w relieve ids turn documents charged rest).2 ∧
    (relieve = false →
      AllSame documents (admitMembers w relieve ids turn documents charged rest).2) ∧
    ∀ members, (admitMembers w relieve ids turn documents charged rest).1 = .ok members →
      ∃ admitted, members = charged ++ admitted ∧ List.Forall₂ Charged rest admitted := by
  induction rest generalizing turn documents charged with
  | nil =>
    refine ⟨AllEvict.refl _, fun _ => AllSame.refl _, fun members h => ⟨[], ?_, .nil⟩⟩
    rw [List.append_nil]
    exact (Except.ok.inj h).symm
  | cons member rest ih =>
    rw [admitMembers]
    dsimp only
    have hevict : AllEvict documents (if relieve = true then
        relieveMember w turn charged ids member documents else documents) := by
      split
      · exact relieveMember_allEvict turn charged ids member documents
      · exact AllEvict.refl _
    have hsame : relieve = false → (if relieve = true then
        relieveMember w turn charged ids member documents else documents) = documents :=
      fun h => if_neg (by rw [h]; exact Bool.false_ne_true)
    generalize (if relieve = true then relieveMember w turn charged ids member documents
      else documents) = documents₁ at hevict hsame ⊢
    split
    · exact ⟨hevict, fun h => hsame h ▸ AllSame.refl _, fun _ h => nomatch h⟩
    rename_i undo hreserve
    have hreserved : AllSame documents₁ (Function.update documents₁ member.id
        { documents₁ member.id with undo := undo }) :=
      AllSame.update (SameHistory.of_reserve (HistoryStack.tryReserve_ok hreserve).1 rfl)
    split
    · exact ⟨hevict.trans hreserved.allEvict, fun h => hsame h ▸ hreserved,
        fun _ h => nomatch h⟩
    rename_i prepared hcharge
    obtain ⟨hall, hquiet, hmembers⟩ := ih (turn + 3) (Function.update documents₁ member.id
      { documents₁ member.id with undo := undo })
      (charged ++ [{ member with prepared := prepared }])
    refine ⟨(hevict.trans hreserved.allEvict).trans hall, fun h => ?_, fun members h => ?_⟩
    · have := hquiet h
      rw [hsame h] at this hreserved
      rw [hsame h]
      exact hreserved.trans this
    · obtain ⟨admitted, rfl, hforall⟩ := hmembers members h
      refine ⟨{ member with prepared := prepared } :: admitted, ?_, .cons ?_ hforall⟩
      · rw [List.append_assoc]
        rfl
      · exact ⟨rfl, rfl, Document.charge_admitted hcharge, charge_tracked hcharge⟩

/-- Members are staged on the documents as they are. -/
theorem stageMembers_spec {documents : Nat → Document}
    (hroot : ∀ id, RootWf .resident (documents id).current.root)
    {targets : List (Nat × EditTransaction)} {members : List Member}
    (h : stageMembers w documents targets = .ok members) :
    List.Forall₂ (fun target member => member.id = target.1 ∧ target.2.edits ≠ [] ∧
      Staged (w.env target.1) (documents target.1) target.2 member.prepared) targets members := by
  induction targets generalizing members with
  | nil => cases h; exact .nil
  | cons target rest ih =>
    rw [stageMembers] at h
    split at h
    · exact nomatch h
    rename_i prepared heap hstage
    split at h
    · exact nomatch h
    rename_i others hothers
    cases h
    exact .cons ⟨rfl, Document.stage_nonempty hstage, Document.stage_spec (hroot _) hstage⟩
      (ih hothers)

end Admission

/-! ## §3 `group::commit` -/

/-- Updates of other keys leave a member of a family as it is. -/
theorem foldl_update_other {α β : Type} (key : β → Nat) (g : β → α → α) (family : Nat → α)
    (items : List β) {i : Nat} (hi : i ∉ items.map key) :
    items.foldl (fun f item => Function.update f (key item) (g item (f (key item)))) family i =
      family i := by
  induction items generalizing family with
  | nil => rfl
  | cons item rest ih =>
    rw [List.map_cons, List.mem_cons, not_or] at hi
    rw [List.foldl_cons, ih _ hi.2, Function.update_of_ne hi.1]

/-- Each key of a list is updated once, from the family before the updates. -/
theorem foldl_update_mem {α β : Type} (key : β → Nat) (g : β → α → α) (family : Nat → α)
    {items : List β} (hnodup : (items.map key).Nodup) {item : β} (hitem : item ∈ items) :
    items.foldl (fun f item => Function.update f (key item) (g item (f (key item)))) family
      (key item) = g item (family (key item)) := by
  induction items generalizing family with
  | nil => exact absurd hitem List.not_mem_nil
  | cons first rest ih =>
    rw [List.map_cons, List.nodup_cons] at hnodup
    obtain ⟨hfirst, hrest⟩ := hnodup
    rw [List.foldl_cons]
    obtain rfl | hitem := List.mem_cons.mp hitem
    · rw [foldl_update_other key g _ rest hfirst, Function.update_self]
    · have hne : key item ≠ key first := fun heq => hfirst (heq ▸ List.mem_map_of_mem hitem)
      rw [ih _ hrest hitem, Function.update_of_ne hne]

/-- A sorted list whose neighbours differ has no element twice. -/
theorem nodup_of_sorted {ids : List Nat} (hsorted : ids.Pairwise (· ≤ ·))
    (hneighbours : ((ids.zip ids.tail).any fun pair => pair.1 == pair.2) = false) :
    ids.Nodup := by
  induction ids with
  | nil => exact List.nodup_nil
  | cons first rest ih =>
    cases rest with
    | nil => exact List.nodup_singleton _
    | cons second rest =>
      simp only [List.tail_cons, List.zip_cons_cons, List.any_cons, Bool.or_eq_false_iff,
        beq_eq_false_iff_ne] at hneighbours
      obtain ⟨hne, hothers⟩ := hneighbours
      obtain ⟨hle, hsorted⟩ := List.pairwise_cons.mp hsorted
      refine List.nodup_cons.mpr ⟨fun hmem => ?_, ih hsorted hothers⟩
      have hlt : first < second := Nat.lt_of_le_of_ne (hle second List.mem_cons_self) hne
      obtain rfl | hmem := List.mem_cons.mp hmem
      · exact Nat.lt_irrefl _ hlt
      · exact absurd ((List.pairwise_cons.mp hsorted).1 first hmem) (Nat.not_le_of_lt hlt)

/-- `group::members` answers the ids of at least two different documents. -/
theorem groupMembers_ok {documents : List Document} {ids : List Nat}
    (h : groupMembers documents = .ok ids) :
    2 ≤ ids.length ∧ ids.Nodup ∧ ids.Perm (documents.map fun d => d.current.documentId) := by
  rw [groupMembers] at h
  dsimp only at h
  split_ifs at h with hcount hsame
  obtain rfl := Except.ok.inj h
  have hperm := List.perm_insertionSort (· ≤ ·) (documents.map fun d => d.current.documentId)
  refine ⟨?_, nodup_of_sorted (List.pairwise_insertionSort _ _) (Bool.eq_false_of_not_eq_true hsame),
    hperm⟩
  rw [hperm.length_eq, List.length_map]
  omega

/-- A slot is free in the undo stack. -/
def Document.HasSlot (d : Document) : Prop := d.undo.entries.length < d.undo.capacity

section Commit

variable {w : GroupWorld}

/-- The slots of a commit change no history. -/
theorem reserveSlots_spec (charged : List Member) (turn : Nat) (documents : Nat → Document)
    (members : List Member) :
    AllSame documents (reserveSlots w charged turn documents members).2 ∧
    (∀ id, (documents id).HasSlot → ((reserveSlots w charged turn documents members).2 id).HasSlot) ∧
    ((reserveSlots w charged turn documents members).1 = .ok () →
      ∀ member ∈ members, ((reserveSlots w charged turn documents members).2 member.id).HasSlot ∧
        (documents member.id).validatePrepared member.prepared = .ok ()) := by
  induction members generalizing turn documents with
  | nil => exact ⟨AllSame.refl _, fun _ h => h, fun _ _ h => absurd h List.not_mem_nil⟩
  | cons member rest ih =>
    rw [reserveSlots]
    split
    · exact ⟨AllSame.refl _, fun _ h => h, fun h => nomatch h⟩
    rename_i hvalid
    split
    · exact ⟨AllSame.refl _, fun _ h => h, fun h => nomatch h⟩
    rename_i undo hreserve
    obtain ⟨hentries, hslot⟩ := HistoryStack.tryReserve_ok hreserve
    have hreserved : AllSame documents (Function.update documents member.id
        { documents member.id with undo := undo }) :=
      AllSame.update (SameHistory.of_reserve hentries rfl)
    obtain ⟨hsame, hkeeps, hslots⟩ := ih (turn + 1) (Function.update documents member.id
      { documents member.id with undo := undo })
    have hupdated : ∀ id, (documents id).HasSlot ∨ id = member.id →
        (Function.update documents member.id
          { documents member.id with undo := undo } id).HasSlot := by
      intro id hid
      by_cases heq : id = member.id
      · subst heq
        rw [Function.update_self]
        exact hslot
      · rw [Function.update_of_ne heq]
        exact hid.resolve_right heq
    refine ⟨hreserved.trans hsame, fun id hid => hkeeps id (hupdated id (.inl hid)),
      fun hok other hother => ?_⟩
    obtain rfl | hother := List.mem_cons.mp hother
    · exact ⟨hkeeps _ (hupdated _ (.inr rfl)), hvalid⟩
    · obtain ⟨hslot', hvalid'⟩ := hslots hok other hother
      refine ⟨hslot', ?_⟩
      rw [Document.validatePrepared, (hreserved other.id).current] at hvalid'
      exact hvalid'

theorem reserveSlots_touches (charged : List Member) (turn : Nat) (documents : Nat → Document)
    (members : List Member) :
    Touches (members.map Member.id) documents
      (reserveSlots w charged turn documents members).2 := by
  induction members generalizing turn documents with
  | nil => exact Touches.refl _ _
  | cons member rest ih =>
    rw [reserveSlots]
    split
    · exact Touches.refl _ _
    split
    · exact Touches.refl _ _
    exact (Touches.update List.mem_cons_self _).trans
      ((ih _ _).mono (List.subset_cons_self _ _))

end Commit

namespace Document

/-- The document with one more entry, before its policy trims it. -/
def pushed (d : Document) (p : PreparedEdit) : Document :=
  { d with
    current := d.published p, redo := d.redo.clear, lastUntracked := !p.tracked
    undo := d.undo.push p.entry, lastMerged := false }

/-- A tagged entry never joins a typing run. -/
theorem commit_tagged {env : Env} {d : Document} {p : PreparedEdit} (next : Nat)
    (htracked : p.tracked = true) (hgroup : p.entry.group.isSome) :
    commitPreparedUnchecked env next d p = (d.pushed p).trimHistory := by
  have hnone : p.entry.group.isNone = false := by
    rw [← Option.not_isSome, hgroup]
    rfl
  rw [commitPreparedUnchecked]
  dsimp only
  rw [if_neg (by rw [htracked]; exact Bool.noConfusion)]
  split
  · rw [if_neg]
    · rfl
    · rw [merges, hnone]
      simp
  · rfl

/-- What an accepted group edit does to a member: one tagged entry on the undo stack of the
document that relief left, and the document's own trimming. -/
def GroupEdited (env : Env) (tag : GroupTag) (tr : EditTransaction) (d d' : Document) : Prop :=
  ∃ d₁ p, Evicts d d₁ ∧ Ready env d₁ tr none p ∧ p.tracked = true ∧
    d' = (d₁.pushed (p.tagged tag)).trimHistory

namespace GroupEdited

variable {env : Env} {tag : GroupTag} {tr : EditTransaction} {d d' : Document}

theorem wf (h : GroupEdited env tag tr d d') (hd : d.Wf) : d'.Wf := by
  obtain ⟨d₁, p, hev, hready, htracked, rfl⟩ := h
  have hd₁ := hev.wf hd
  obtain ⟨hentry, horigin, hmeta⟩ := hready.entry_wf hd₁.root
  refine (trimHistory_evicts _).wf (pushed_wf (p := p.tagged tag) hd₁ ?_ horigin hmeta
    (hready.slot htracked) _)
  exact ⟨hentry.before, hentry.after, hentry.rewrites, hentry.typing⟩

theorem documentId (h : GroupEdited env tag tr d d') :
    d'.current.documentId = d.current.documentId := by
  obtain ⟨d₁, p, hev, -, -, rfl⟩ := h
  rw [trimHistory_current, ← hev.current]
  rfl

/-- The stacks: older entries may be gone, the new one is the last. -/
theorem entries (h : GroupEdited env tag tr d d') :
    ∃ d₁ entry, Evicts d d₁ ∧ entry.group = some tag ∧
      d'.undo.entries = (d₁.undo.entries ++ [entry]).drop
        (d₁.undo.entries.length + 1 - d.historyPolicy.maxChanges) ∧
      d'.redo.entries = [] := by
  obtain ⟨d₁, p, hev, hready, htracked, rfl⟩ := h
  refine ⟨d₁, (p.tagged tag).entry, hev, rfl, ?_, List.drop_nil⟩
  have hpolicy : d₁.historyPolicy = d.historyPolicy := by rw [hev.rest]
  have hpush := HistoryStack.push_entries (hready.slot htracked) (p.tagged tag).entry
  rw [trimHistory, ← hpolicy]
  simp only [pushed, HistoryStack.drain_entries, hpush, List.length_append, List.length_singleton]

theorem mem_tags (h : GroupEdited env tag tr d d') {t : GroupTag} (ht : t ∈ d'.tags) :
    t ∈ d.tags ∨ t = tag := by
  obtain ⟨d₁, entry, hev, hgroup, hundo, hredo⟩ := h.entries
  rw [tags, hredo, stackTags_nil, List.append_nil, hundo] at ht
  have hmem := (stackTags_drop _ _).subset ht
  rw [stackTags_append, stackTags_tagged hgroup, List.mem_append, List.mem_singleton] at hmem
  exact hmem.imp_left fun hmem => hev.noNewTags t (List.mem_append_left _ hmem)

/-- Entries of another group are dropped at most. -/
theorem keeps (h : GroupEdited env tag tr d d') {g : Nat} (hg : g ≠ tag.id) : Keeps g d d' := by
  obtain ⟨d₁, entry, hev, hgroup, hundo, hredo⟩ := h.entries
  have hentry : groupCount g [entry] = 0 := by
    rw [groupCount, stackTags_tagged hgroup, List.map_singleton, List.count_singleton,
      if_neg (by simpa using hg.symm)]
  refine ⟨?_, by rw [hredo]; exact Nat.zero_le _⟩
  have hdrop := groupCount_drop g (d₁.undo.entries ++ [entry])
    (d₁.undo.entries.length + 1 - d.historyPolicy.maxChanges)
  rw [← hundo, groupCount_append, hentry, Nat.add_zero] at hdrop
  exact hdrop.trans (hev.keeps g).undo

/-- A new group has one entry in the member, on the undo side, unless the policy keeps none. -/
theorem count (h : GroupEdited env tag tr d d') (hnew : d.held tag.id = 0) :
    groupCount tag.id d'.undo.entries = min 1 d.historyPolicy.maxChanges ∧
      groupCount tag.id d'.redo.entries = 0 := by
  obtain ⟨d₁, entry, hev, hgroup, hundo, hredo⟩ := h.entries
  have hold : groupCount tag.id d₁.undo.entries = 0 := by
    have := (hev.keeps tag.id).held_le
    rw [hnew, held] at this
    omega
  have hentry : groupCount tag.id [entry] = 1 := by
    rw [groupCount, stackTags_tagged hgroup, List.map_singleton, List.count_singleton_self]
  refine ⟨?_, by rw [hredo]; rfl⟩
  rw [hundo]
  by_cases hpolicy : d.historyPolicy.maxChanges = 0
  · rw [hpolicy, Nat.sub_zero, List.drop_eq_nil_of_le (by simp)]
    rfl
  · have hdrop : groupCount tag.id (d₁.undo.entries.drop
        (d₁.undo.entries.length + 1 - d.historyPolicy.maxChanges)) = 0 :=
      Nat.eq_zero_of_le_zero (hold ▸ groupCount_drop tag.id _ _)
    rw [List.drop_append_of_le_length (by omega), groupCount_append, hdrop, hentry]
    omega

end GroupEdited

end Document

/-! ## §4 A whole group edit -/

theorem map_eq_of_forall₂ {α β γ : Type} {R : α → β → Prop} {f : α → γ} {g : β → γ}
    {as : List α} {bs : List β} (h : List.Forall₂ R as bs) (hR : ∀ a b, R a b → g b = f a) :
    bs.map g = as.map f := by
  induction h with
  | nil => rfl
  | cons hab _ ih => rw [List.map_cons, List.map_cons, hR _ _ hab, ih]

section Apply

variable {w : GroupWorld}

/-- A charged member is ready to be committed. -/
theorem Charged.ready {member member' : Member} (h : Charged member member') {d d' : Document}
    {tr : EditTransaction} (hne : tr.edits ≠ [])
    (hstaged : Staged (w.env member.id) d tr member.prepared) (hev : Evicts d d')
    (hslot : d'.HasSlot) :
    Document.Ready (w.env member.id) d' tr none member'.prepared := by
  obtain ⟨-, -, hadmitted, -⟩ := h
  have hstaged' := hstaged.of_evicts hev
  refine ⟨hne, ⟨member.prepared, member'.prepared, hstaged', hadmitted, rfl, rfl, rfl, ?_⟩,
    fun _ => hslot⟩
  obtain ⟨_, _, _, heq⟩ := hadmitted
  rw [heq, hstaged'.entry]
  rfl

theorem commitMembers_other (w : GroupWorld) (tag : GroupTag) (documents : Nat → Document)
    (members : List Member) {id : Nat} (hid : id ∉ members.map Member.id) :
    commitMembers w tag documents members id = documents id :=
  foldl_update_other Member.id (fun member (d : Document) =>
    d.commitPreparedUnchecked (w.env member.id) member.next (member.prepared.tagged tag)) _ _ hid

theorem commitMembers_mem (w : GroupWorld) (tag : GroupTag) (documents : Nat → Document)
    {members : List Member} (hnodup : (members.map Member.id).Nodup) {member : Member}
    (hmember : member ∈ members) :
    commitMembers w tag documents members member.id =
      (documents member.id).commitPreparedUnchecked (w.env member.id) member.next
        (member.prepared.tagged tag) :=
  foldl_update_mem Member.id (fun member (d : Document) =>
    d.commitPreparedUnchecked (w.env member.id) member.next (member.prepared.tagged tag)) _
    hnodup hmember

/-- What an accepted group edit leaves. -/
structure GroupApplied (w : GroupWorld) (group : Nat) (documents : Nat → Document)
    (targets : List (Nat × EditTransaction)) (documents' : Nat → Document) : Prop where
  edited : ∃ members : List Nat, members.Nodup ∧ 2 ≤ members.length ∧
    members.Perm (targets.map fun target => (documents target.1).current.documentId) ∧
    ∀ target ∈ targets, Document.GroupEdited (w.env target.1) ⟨group, members, true⟩ target.2
      (documents target.1) (documents' target.1)
  others : ∀ id, id ∉ targets.map Prod.fst → Evicts (documents id) (documents' id)

/-- The `Apply` branch either edits every member or changes no snapshot. -/
theorem applyGroup_cases (group : Nat) {documents : Nat → Document}
    (hroot : ∀ id, RootWf .resident (documents id).current.root)
    (targets : List (Participant × EditTransaction))
    (hnodup : (targets.map fun target => target.1.id).Nodup) :
    (∃ e, (applyGroup w group documents targets).1 = .error e ∧
      AllEvict documents (applyGroup w group documents targets).2) ∨
    ((applyGroup w group documents targets).1 = .ok group ∧
      GroupApplied w group documents (targets.map fun target => (target.1.id, target.2))
        (applyGroup w group documents targets).2) := by
  rw [applyGroup]
  split
  · exact .inl ⟨_, rfl, AllEvict.refl _⟩
  rename_i members hstage
  have hstaged := stageMembers_spec hroot hstage
  dsimp only
  generalize (members.map Member.id ++ if pressured w documents members = true then
    w.registered.filter fun id => !members.any fun member => member.id == id else []) = ids
  generalize (pressured w documents members && groupAdmissible w documents ids members) = relieve
  obtain ⟨hevict, -, hadmitted⟩ := admitMembers_spec (w := w) relieve ids 2 documents [] members
  generalize admitMembers w relieve ids 2 documents [] members = answer at hevict hadmitted ⊢
  obtain ⟨result, documents₁⟩ := answer
  cases result with
  | error e => exact .inl ⟨e, rfl, hevict⟩
  | ok charged =>
    obtain ⟨admitted, heq, hcharged⟩ := hadmitted charged rfl
    have hall : charged = admitted := heq
    subst hall
    dsimp only at hevict ⊢
    rw [groupCommit]
    split
    · exact .inl ⟨_, rfl, hevict⟩
    rename_i memberIds hmembers
    obtain ⟨hsame, -, hslots⟩ := reserveSlots_spec (w := w) charged (3 * members.length + 2)
      documents₁ charged
    generalize reserveSlots w charged (3 * members.length + 2) documents₁ charged = answer
      at hsame hslots ⊢
    obtain ⟨reserved, documents₂⟩ := answer
    cases reserved with
    | error e => exact .inl ⟨e, rfl, hevict.trans hsame.allEvict⟩
    | ok u =>
      -- Every step may fail up to here; the commit itself cannot.
      refine .inr ⟨rfl, ?_⟩
      have hev₂ := hevict.trans hsame.allEvict
      have hids : members.map Member.id = (targets.map fun target => target.1.id) := by
        rw [map_eq_of_forall₂ (f := Prod.fst) hstaged fun a b h => h.1, List.map_map]
        rfl
      have hadmittedIds : charged.map Member.id = members.map Member.id :=
        map_eq_of_forall₂ hcharged fun a b h => h.1
      have hnodupCharged : (charged.map Member.id).Nodup := by
        rw [hadmittedIds, hids]
        exact hnodup
      obtain ⟨hcount, hmemberNodup, hperm⟩ := groupMembers_ok hmembers
      refine ⟨⟨memberIds, hmemberNodup, hcount, ?_, fun target htarget => ?_⟩, fun id hid => ?_⟩
      · refine hperm.trans (List.Perm.of_eq ?_)
        rw [List.map_map, List.map_map]
        have hdocs : charged.map (fun member => (documents₁ member.id).current.documentId) =
            (charged.map Member.id).map fun id => (documents id).current.documentId := by
          rw [List.map_map]
          exact List.map_congr_left fun member _ => by
            rw [Function.comp_apply, (hevict member.id).current]
        rw [show ((fun d : Document => d.current.documentId) ∘ fun member : Member =>
          documents₁ member.id) = fun member => (documents₁ member.id).current.documentId from rfl,
          hdocs, hadmittedIds, hids, List.map_map]
        rfl
      · obtain ⟨member, hmember, hid, hne, hstagedMember⟩ := exists_of_forall₂ hstaged target htarget
        obtain ⟨member', hmember', hchargedMember⟩ := exists_of_forall₂ hcharged member hmember
        have hid' : member'.id = target.1 := hchargedMember.1.trans hid
        have hslot := (hslots rfl member' hmember').1
        rw [hid'] at hslot
        rw [← hid] at hstagedMember hslot ⊢
        refine ⟨documents₂ member.id, member'.prepared, hev₂ member.id,
          hchargedMember.ready hne hstagedMember (hev₂ member.id) hslot, hchargedMember.2.2.2, ?_⟩
        have hcommit := commitMembers_mem w ⟨group, memberIds, true⟩ documents₂ hnodupCharged hmember'
        rw [hchargedMember.1] at hcommit
        exact hcommit.trans (Document.commit_tagged _ hchargedMember.2.2.2 rfl)
      · have hnot : id ∉ charged.map Member.id := by
          rw [hadmittedIds, hids]
          rwa [List.map_map] at hid
        show Evicts (documents id) (commitMembers w ⟨group, memberIds, true⟩ documents₂ charged id)
        rw [commitMembers_other w _ documents₂ charged hnot]
        exact hev₂ id

/-- Documents that the `Apply` branch may lock: members and free peers. -/
theorem applyGroup_touches (group : Nat) (documents : Nat → Document)
    (targets : List (Participant × EditTransaction)) {ids : List Nat}
    (hids : ∀ target ∈ targets, target.1.id ∈ ids) (hpeers : w.registered ⊆ ids)
    (hroot : ∀ id, RootWf .resident (documents id).current.root) :
    Touches ids documents (applyGroup w group documents targets).2 := by
  rw [applyGroup]
  split
  · exact Touches.refl _ _
  rename_i members hstage
  have hmembers : members.map Member.id ⊆ ids := by
    have hstaged := stageMembers_spec hroot hstage
    rw [map_eq_of_forall₂ (f := Prod.fst) hstaged fun a b h => h.1, List.map_map]
    intro id hid
    obtain ⟨target, htarget, rfl⟩ := List.mem_map.mp hid
    exact hids target htarget
  have hlocked : (members.map Member.id ++ if pressured w documents members = true then
      w.registered.filter fun id => !members.any fun member => member.id == id else []) ⊆ ids := by
    refine List.append_subset.mpr ⟨hmembers, ?_⟩
    split
    · exact fun id hid => hpeers (List.mem_filter.mp hid).1
    · exact List.nil_subset _
  have hin : ∀ member ∈ members, member.id ∈ (members.map Member.id ++
      if pressured w documents members = true then
        w.registered.filter fun id => !members.any fun member => member.id == id else []) :=
    fun member hmember => List.mem_append_left _ (List.mem_map_of_mem hmember)
  dsimp only
  generalize (members.map Member.id ++ if pressured w documents members = true then
    w.registered.filter fun id => !members.any fun member => member.id == id else []) = locked
    at hlocked hin ⊢
  generalize (pressured w documents members && groupAdmissible w documents locked members) = relieve
  have haccept := (admitMembers_touches (w := w) relieve locked 2 documents [] members hin).mono hlocked
  obtain ⟨-, -, hadmitted⟩ := admitMembers_spec (w := w) relieve locked 2 documents [] members
  generalize admitMembers w relieve locked 2 documents [] members = answer at haccept hadmitted ⊢
  obtain ⟨result, documents₁⟩ := answer
  cases result with
  | error e => exact haccept
  | ok charged =>
    obtain ⟨admitted, heq, hcharged⟩ := hadmitted charged rfl
    have hall : charged = admitted := heq
    subst hall
    have hchargedIds : charged.map Member.id = members.map Member.id :=
      map_eq_of_forall₂ hcharged fun a b h => h.1
    dsimp only
    rw [groupCommit]
    split
    · exact haccept
    rename_i memberIds hmemberIds
    have hreserve := reserveSlots_touches (w := w) charged (3 * members.length + 2) documents₁
      charged
    rw [hchargedIds] at hreserve
    generalize reserveSlots w charged (3 * members.length + 2) documents₁ charged = answer
      at hreserve ⊢
    obtain ⟨reserved, documents₂⟩ := answer
    have haccept₂ := haccept.trans (hreserve.mono hmembers)
    cases reserved with
    | error e => exact haccept₂
    | ok u =>
      refine haccept₂.trans fun id hid => ?_
      exact commitMembers_other w _ documents₂ charged fun hmem => hid (hmembers (hchargedIds ▸ hmem))

end Apply

/-! ## §5 `move_history` -/

namespace Document

/-- The stack that a move takes from. -/
def source (d : Document) (redo : Bool) : HistoryStack := if redo then d.redo else d.undo

/-- The stack that a move adds to. -/
def destination (d : Document) (redo : Bool) : HistoryStack := if redo then d.undo else d.redo

/-- What an accepted group undo or redo does to a member: its last entry, one of the group,
changes sides. -/
def GroupMoved (redo : Bool) (expected : Nat) (members : List Nat) (d d' : Document) : Prop :=
  ∃ d₁ entry rest tag move, SameHistory d d₁ ∧ (d₁.source redo).entries = rest ++ [entry] ∧
    entry.group = some tag ∧ tag.id = expected ∧ tag.members = members ∧ tag.linked = true ∧
    (d₁.destination redo).entries.length < (d₁.destination redo).capacity ∧
    d' = d₁.moveEntry redo move

/-- The two stacks after a move. -/
theorem moveEntry_spec {d : Document} {redo : Bool} {entry : History} {rest : List History}
    (hlast : (d.source redo).entries = rest ++ [entry])
    (hslot : (d.destination redo).entries.length < (d.destination redo).capacity) (move : Move) :
    ((d.moveEntry redo move).source redo).entries = rest ∧
    ((d.moveEntry redo move).destination redo).entries =
      (d.destination redo).entries ++ [entry] ∧
    (d.moveEntry redo move).version = (if redo then entry.result else entry.origin) ∧
    (d.moveEntry redo move).current.root = (if redo then entry.after else entry.before) ∧
    (d.moveEntry redo move).current.documentId = d.current.documentId := by
  cases redo with
  | false =>
    have hlast : d.undo.entries = rest ++ [entry] := hlast
    have hslot : d.redo.entries.length < d.redo.capacity := hslot
    simp only [moveEntry, Bool.false_eq_true, if_false, hlast, List.getLast?_concat,
      List.dropLast_concat, source, destination, HistoryStack.push_entries hslot]
    exact ⟨trivial, trivial, rfl, trivial, trivial⟩
  | true =>
    have hlast : d.redo.entries = rest ++ [entry] := hlast
    have hslot : d.undo.entries.length < d.undo.capacity := hslot
    simp only [moveEntry, if_true, hlast, List.getLast?_concat,
      List.dropLast_concat, source, destination, HistoryStack.push_entries hslot]
    exact ⟨trivial, trivial, rfl, trivial, trivial⟩

namespace GroupMoved

variable {redo : Bool} {expected : Nat} {members : List Nat} {d d' : Document}

theorem wf (h : GroupMoved redo expected members d d') (hd : d.Wf) : d'.Wf := by
  obtain ⟨d₁, entry, rest, tag, move, hsame, hlast, -, -, -, -, hslot, rfl⟩ := h
  have hd₁ := hsame.evicts.wf hd
  obtain ⟨hsource, hdest, hversion, hroot, -⟩ := moveEntry_spec hlast hslot move
  have hchain := hd₁.chained
  cases redo with
  | false =>
    have hsource : (d₁.moveEntry false move).undo.entries = rest := hsource
    have hdest : (d₁.moveEntry false move).redo.entries = d₁.redo.entries ++ [entry] := hdest
    have hlast : d₁.undo.entries = rest ++ [entry] := hlast
    have hentry := hd₁.undo entry (by rw [hlast]; exact List.mem_append_right _ List.mem_cons_self)
    refine ⟨hroot ▸ hentry.before, fun e he => hd₁.undo e ?_, fun e he => ?_, ?_⟩
    · rw [hlast]
      exact List.mem_append_left _ (hsource ▸ he)
    · rw [hdest] at he
      obtain he | he := List.mem_append.mp he
      · exact hd₁.redo e he
      · exact List.mem_singleton.mp he ▸ hentry
    · rw [Chained, hlast] at hchain
      rw [Chained, hsource, hdest, hversion]
      exact hchain.undo entry rfl rfl
  | true =>
    have hsource : (d₁.moveEntry true move).redo.entries = rest := hsource
    have hdest : (d₁.moveEntry true move).undo.entries = d₁.undo.entries ++ [entry] := hdest
    have hlast : d₁.redo.entries = rest ++ [entry] := hlast
    have hentry := hd₁.redo entry (by rw [hlast]; exact List.mem_append_right _ List.mem_cons_self)
    refine ⟨hroot ▸ hentry.after, fun e he => ?_, fun e he => hd₁.redo e ?_, ?_⟩
    · rw [hdest] at he
      obtain he | he := List.mem_append.mp he
      · exact hd₁.undo e he
      · exact List.mem_singleton.mp he ▸ hentry
    · rw [hlast]
      exact List.mem_append_left _ (hsource ▸ he)
    · rw [Chained, hlast] at hchain
      rw [Chained, hsource, hdest, hversion]
      exact hchain.redo entry rfl rfl

theorem documentId (h : GroupMoved redo expected members d d') :
    d'.current.documentId = d.current.documentId := by
  obtain ⟨d₁, entry, rest, tag, move, hsame, hlast, -, -, -, -, hslot, rfl⟩ := h
  obtain ⟨-, -, -, -, hid⟩ := moveEntry_spec hlast hslot move
  rw [hid, hsame.current]

/-- One tag leaves the end of one stack and comes to the end of the other. -/
theorem entries (h : GroupMoved redo expected members d d') :
    ∃ entry rest tag, (d.source redo).entries = rest ++ [entry] ∧ entry.group = some tag ∧
      tag.id = expected ∧ tag.members = members ∧ tag.linked = true ∧
      (d'.source redo).entries = rest ∧
      (d'.destination redo).entries = (d.destination redo).entries ++ [entry] ∧
      d'.version = (if redo then entry.result else entry.origin) := by
  obtain ⟨d₁, entry, rest, tag, move, hsame, hlast, hgroup, hid, hmembers, hlinked, hslot, rfl⟩ := h
  obtain ⟨hsource, hdest, hversion, -, -⟩ := moveEntry_spec hlast hslot move
  have hstacks : (d₁.source redo).entries = (d.source redo).entries ∧
      (d₁.destination redo).entries = (d.destination redo).entries := by
    cases redo with
    | false => exact ⟨hsame.undo, hsame.redo⟩
    | true => exact ⟨hsame.redo, hsame.undo⟩
  rw [hstacks.1] at hlast
  rw [hstacks.2] at hdest
  exact ⟨entry, rest, tag, hlast, hgroup, hid, hmembers, hlinked, hsource, hdest, hversion⟩

/-- The tags of both stacks together stay. -/
theorem mem_tags (h : GroupMoved redo expected members d d') {t : GroupTag} (ht : t ∈ d'.tags) :
    t ∈ d.tags := by
  obtain ⟨entry, rest, tag, hlast, -, -, -, -, hsource, hdest, -⟩ := h.entries
  have hstacks : t ∈ stackTags (d'.source redo).entries ++ stackTags (d'.destination redo).entries := by
    cases redo with
    | false => exact ht
    | true => exact List.mem_append.mpr (List.mem_append.mp ht).symm
  have hback : t ∈ stackTags (d.source redo).entries ++ stackTags (d.destination redo).entries := by
    rw [hsource, hdest, stackTags_append] at hstacks
    rw [hlast, stackTags_append]
    simp only [List.mem_append] at hstacks ⊢
    tauto
  cases redo with
  | false => exact hback
  | true => exact List.mem_append.mpr (List.mem_append.mp hback).symm

/-- Entries of a group on each side. -/
theorem count (h : GroupMoved redo expected members d d') (g : Nat) :
    groupCount g (d'.source redo).entries + (if g = expected then 1 else 0) =
      groupCount g (d.source redo).entries ∧
    groupCount g (d'.destination redo).entries =
      groupCount g (d.destination redo).entries + (if g = expected then 1 else 0) := by
  obtain ⟨entry, rest, tag, hlast, hgroup, hid, -, -, hsource, hdest, -⟩ := h.entries
  have hentry : groupCount g [entry] = if g = expected then 1 else 0 := by
    rw [groupCount, stackTags_tagged hgroup, List.map_singleton, List.count_singleton, hid]
    by_cases hg : g = expected
    · rw [if_pos hg, if_pos (beq_iff_eq.mpr hg.symm)]
    · rw [if_neg hg, if_neg fun h => hg (beq_iff_eq.mp h).symm]
  rw [hsource, hdest, hlast, groupCount_append, groupCount_append, hentry]
  exact ⟨rfl, rfl⟩

/-- The tag that moves names the group and its members. -/
theorem exists_tag (h : GroupMoved redo expected members d d') :
    ∃ tag ∈ d.tags, tag.id = expected ∧ tag.members = members := by
  obtain ⟨entry, rest, tag, hlast, hgroup, hid, hmembers, -⟩ := h.entries
  refine ⟨tag, ?_, hid, hmembers⟩
  have hsource : tag ∈ stackTags (d.source redo).entries := by
    rw [hlast, stackTags_append, stackTags_tagged hgroup]
    exact List.mem_append_right _ List.mem_cons_self
  cases redo
  · exact List.mem_append_left _ hsource
  · exact List.mem_append_right _ hsource

theorem keeps (h : GroupMoved redo expected members d d') {g : Nat} (hg : g ≠ expected) :
    Keeps g d d' := by
  have hone := h.count g
  rw [if_neg hg] at hone
  cases redo
  · exact ⟨Nat.le_of_eq hone.1, Nat.le_of_eq hone.2⟩
  · exact ⟨Nat.le_of_eq hone.2, Nat.le_of_eq hone.1⟩

end GroupMoved

theorem held_sides (d : Document) (redo : Bool) (g : Nat) : d.held g =
    groupCount g (d.source redo).entries + groupCount g (d.destination redo).entries := by
  cases redo
  · exact rfl
  · exact Nat.add_comm _ _

end Document

section Moves

variable {w : GroupWorld}

/-- A member that `move_history` accepts: its last entry carries the group's linked tag. -/
def Movable (redo : Bool) (expected : Nat) (members : List Nat) (d : Document) : Prop :=
  ∃ entry rest tag, (d.source redo).entries = rest ++ [entry] ∧ entry.group = some tag ∧
    tag.id = expected ∧ tag.members = members ∧ tag.linked = true

/-- A slot is free on the side that entries move to. -/
def HasRoom (redo : Bool) (d : Document) : Prop :=
  (d.destination redo).entries.length < (d.destination redo).capacity

/-- Preparing changes no history; prepared members are movable and have a slot. -/
theorem prepareMoves_spec (expected : Nat) (members : List Nat) (redo : Bool) (turn : Nat)
    (documents : Nat → Document) (ids : List Nat) :
    AllSame documents (prepareMoves w expected members redo turn documents ids).2 ∧
    (∀ id, HasRoom redo (documents id) →
      HasRoom redo ((prepareMoves w expected members redo turn documents ids).2 id)) ∧
    ∀ moves, (prepareMoves w expected members redo turn documents ids).1 = .ok moves →
      moves.map Move.id = ids ∧ ∀ id ∈ ids, Movable redo expected members (documents id) ∧
        HasRoom redo ((prepareMoves w expected members redo turn documents ids).2 id) := by
  induction ids generalizing turn documents with
  | nil =>
    refine ⟨AllSame.refl _, fun _ h => h, fun moves h => ?_⟩
    rw [← Except.ok.inj h]
    exact ⟨rfl, fun _ h => absurd h List.not_mem_nil⟩
  | cons id rest ih =>
    rw [prepareMoves]
    dsimp only
    split
    · exact ⟨AllSame.refl _, fun _ h => h, fun _ h => nomatch h⟩
    rename_i entry hlast
    split
    · exact ⟨AllSame.refl _, fun _ h => h, fun _ h => nomatch h⟩
    rename_i tag hgroup
    split
    · exact ⟨AllSame.refl _, fun _ h => h, fun _ h => nomatch h⟩
    rename_i htag
    split
    · exact ⟨AllSame.refl _, fun _ h => h, fun _ h => nomatch h⟩
    rename_i revision _
    split
    · exact ⟨AllSame.refl _, fun _ h => h, fun _ h => nomatch h⟩
    rename_i change _ _
    split
    · exact ⟨AllSame.refl _, fun _ h => h, fun _ h => nomatch h⟩
    rename_i stack hreserve
    obtain ⟨hentries, hslot⟩ := HistoryStack.tryReserve_ok hreserve
    -- The reserved document differs from the old one in the slots of one stack.
    have hreserved : SameHistory (documents id) (if redo = true then
          { documents id with undo := stack } else { documents id with redo := stack }) ∧
        HasRoom redo (if redo = true then
          { documents id with undo := stack } else { documents id with redo := stack }) := by
      cases redo with
      | false => exact ⟨SameHistory.of_reserve rfl hentries, hslot⟩
      | true => exact ⟨SameHistory.of_reserve hentries rfl, hslot⟩
    generalize (if redo = true then ({ documents id with undo := stack } : Document)
      else { documents id with redo := stack }) = reserved at hreserved ⊢
    obtain ⟨hsame, hroom⟩ := hreserved
    obtain ⟨hall, hkeeps, hmoves⟩ := ih (turn + 1) (Function.update documents id reserved)
    have hupdate : AllSame documents (Function.update documents id reserved) :=
      AllSame.update hsame
    have hrooms : ∀ i, HasRoom redo (documents i) ∨ i = id →
        HasRoom redo (Function.update documents id reserved i) := by
      intro i hi
      by_cases heq : i = id
      · subst heq
        rw [Function.update_self]
        exact hroom
      · rw [Function.update_of_ne heq]
        exact hi.resolve_right heq
    generalize prepareMoves w expected members redo (turn + 1)
      (Function.update documents id reserved) rest = answer at hall hkeeps hmoves ⊢
    obtain ⟨result, documents'⟩ := answer
    cases result with
    | error e =>
      exact ⟨hupdate.trans hall, fun i hi => hkeeps i (hrooms i (.inl hi)), fun _ h => nomatch h⟩
    | ok moves =>
      refine ⟨hupdate.trans hall, fun i hi => hkeeps i (hrooms i (.inl hi)), fun all h => ?_⟩
      rw [← Except.ok.inj h]
      obtain ⟨hids, hothers⟩ := hmoves moves rfl
      refine ⟨by rw [List.map_cons, hids], fun i hi => ?_⟩
      by_cases heq : i = id
      · subst heq
        obtain ⟨front, hfront⟩ := List.getLast?_eq_some_iff.mp hlast
        simp only [not_or, not_not, Bool.not_eq_false] at htag
        exact ⟨⟨entry, front, tag, hfront, hgroup, htag.1, htag.2.1, htag.2.2⟩,
          hkeeps i (hrooms i (.inr rfl))⟩
      · have hrest := hothers i ((List.mem_cons.mp hi).resolve_left heq)
        rwa [Function.update_of_ne heq] at hrest

theorem prepareMoves_touches (expected : Nat) (members : List Nat) (redo : Bool) (turn : Nat)
    (documents : Nat → Document) (ids : List Nat) :
    Touches ids documents (prepareMoves w expected members redo turn documents ids).2 := by
  induction ids generalizing turn documents with
  | nil => exact Touches.refl _ _
  | cons id rest ih =>
    rw [prepareMoves]
    dsimp only
    split
    · exact Touches.refl _ _
    split
    · exact Touches.refl _ _
    split
    · exact Touches.refl _ _
    split
    · exact Touches.refl _ _
    split
    · exact Touches.refl _ _
    split
    · exact Touches.refl _ _
    rename_i stack _
    have hrest := (ih (turn + 1) (Function.update documents id (if redo = true then
      { documents id with undo := stack } else { documents id with redo := stack }))).mono
        (List.subset_cons_self id rest)
    have hall := (Touches.update (List.mem_cons_self (a := id) (l := rest)) _).trans hrest
    generalize prepareMoves w expected members redo (turn + 1) _ rest = answer at hall ⊢
    obtain ⟨result, documents'⟩ := answer
    cases result with
    | error e => exact hall
    | ok moves => exact hall

theorem moveMembers_other (redo : Bool) (documents : Nat → Document) (moves : List Move) {id : Nat}
    (hid : id ∉ moves.map Move.id) : moveMembers redo documents moves id = documents id :=
  foldl_update_other Move.id (fun move (d : Document) => d.moveEntry redo move) _ _ hid

theorem moveMembers_mem (redo : Bool) (documents : Nat → Document) {moves : List Move}
    (hnodup : (moves.map Move.id).Nodup) {move : Move} (hmove : move ∈ moves) :
    moveMembers redo documents moves move.id = (documents move.id).moveEntry redo move :=
  foldl_update_mem Move.id (fun move (d : Document) => d.moveEntry redo move) _ hnodup hmove

/-- What an accepted group undo or redo leaves. -/
structure GroupMovedAll (redo : Bool) (expected : Nat) (documents : Nat → Document)
    (ids : List Nat) (documents' : Nat → Document) : Prop where
  moved : ∃ members : List Nat, members.Perm (ids.map fun id => (documents id).current.documentId) ∧
    ∀ id ∈ ids, Document.GroupMoved redo expected members (documents id) (documents' id)
  others : ∀ id, id ∉ ids → SameHistory (documents id) (documents' id)

/-- `move_history` moves the entry of every member or changes no history. -/
theorem moveHistory_cases (documents : Nat → Document) {ids : List Nat} (hnodup : ids.Nodup)
    (expected : Nat) (redo : Bool) :
    (∃ e, (moveHistory w documents ids expected redo).1 = .error e ∧
      AllSame documents (moveHistory w documents ids expected redo).2) ∨
    ((moveHistory w documents ids expected redo).1 = .ok () ∧
      GroupMovedAll redo expected documents ids
        (moveHistory w documents ids expected redo).2) := by
  rw [moveHistory]
  split
  · exact .inl ⟨_, rfl, AllSame.refl _⟩
  rename_i members hmembers
  obtain ⟨hsame, -, hmoves⟩ := prepareMoves_spec (w := w) expected members redo 0 documents ids
  generalize prepareMoves w expected members redo 0 documents ids = answer at hsame hmoves ⊢
  obtain ⟨result, documents₁⟩ := answer
  cases result with
  | error e => exact .inl ⟨e, rfl, hsame⟩
  | ok moves =>
    obtain ⟨hids, hall⟩ := hmoves moves rfl
    have hnodupMoves : (moves.map Move.id).Nodup := by
      rw [hids]
      exact hnodup
    obtain ⟨-, -, hperm⟩ := groupMembers_ok hmembers
    refine .inr ⟨rfl, ⟨members, ?_, fun id hid => ?_⟩, fun id hid => ?_⟩
    · rwa [List.map_map] at hperm
    · obtain ⟨⟨entry, rest, tag, hlast, hgroup, htag⟩, hroom⟩ := hall id hid
      obtain ⟨move, hmove, rfl⟩ := List.mem_map.mp (hids ▸ hid)
      have hlast₁ : ((documents₁ move.id).source redo).entries = rest ++ [entry] := by
        cases redo with
        | false => exact (hsame move.id).undo.trans hlast
        | true => exact (hsame move.id).redo.trans hlast
      exact ⟨documents₁ move.id, entry, rest, tag, move, hsame move.id, hlast₁, hgroup, htag.1,
        htag.2.1, htag.2.2, hroom, moveMembers_mem redo documents₁ hnodupMoves hmove⟩
    · show SameHistory (documents id) (moveMembers redo documents₁ moves id)
      rw [moveMembers_other redo documents₁ moves (hids ▸ hid)]
      exact hsame id

theorem moveHistory_touches (documents : Nat → Document) (ids : List Nat) (expected : Nat)
    (redo : Bool) : Touches ids documents (moveHistory w documents ids expected redo).2 := by
  rw [moveHistory]
  split
  · exact Touches.refl _ _
  rename_i members _
  have hprepare := prepareMoves_touches (w := w) expected members redo 0 documents ids
  obtain ⟨-, -, hmoves⟩ := prepareMoves_spec (w := w) expected members redo 0 documents ids
  generalize prepareMoves w expected members redo 0 documents ids = answer at hprepare hmoves ⊢
  obtain ⟨result, documents₁⟩ := answer
  cases result with
  | error e => exact hprepare
  | ok moves =>
    refine hprepare.trans fun id hid => moveMembers_other redo documents₁ moves ?_
    rwa [(hmoves moves rfl).1]

end Moves

end BareLine
