import BareLine.Document.Group

/-!
# Group tags on the stacks of one document

A call on one document never gives it a new tag, and it moves no entry of a group whose
members are still linked: such an entry stays on its side or is dropped.
-/

namespace BareLine

open Lib BareLine.Tree

/-! ## §1 Tags -/

/-- The tags of a stack's entries. -/
def stackTags (entries : List History) : List GroupTag := entries.filterMap History.group

@[simp] theorem stackTags_append (a b : List History) :
    stackTags (a ++ b) = stackTags a ++ stackTags b := List.filterMap_append

@[simp] theorem stackTags_nil : stackTags [] = [] := rfl

/-- An entry of no group adds no tag. -/
theorem stackTags_untagged {entry : History} (h : entry.group = none) :
    stackTags [entry] = [] := by
  rw [stackTags, List.filterMap_cons_none h]
  rfl

theorem stackTags_tagged {entry : History} {tag : GroupTag} (h : entry.group = some tag) :
    stackTags [entry] = [tag] := by
  rw [stackTags, List.filterMap_cons_some h]
  rfl

theorem stackTags_singleton_congr {a b : History} (h : a.group = b.group) :
    stackTags [a] = stackTags [b] := by
  cases ha : a.group with
  | none => rw [stackTags_untagged ha, stackTags_untagged (h ▸ ha)]
  | some tag => rw [stackTags_tagged ha, stackTags_tagged (h ▸ ha)]

theorem stackTags_drop (entries : List History) (n : Nat) :
    (stackTags (entries.drop n)).Sublist (stackTags entries) :=
  (List.drop_sublist n entries).filterMap _

/-- Entries of a group on one side of a document. -/
def groupCount (g : Nat) (entries : List History) : Nat :=
  ((stackTags entries).map GroupTag.id).count g

@[simp] theorem groupCount_append (g : Nat) (a b : List History) :
    groupCount g (a ++ b) = groupCount g a + groupCount g b := by
  simp only [groupCount, stackTags_append, List.map_append, List.count_append]

@[simp] theorem groupCount_nil (g : Nat) : groupCount g [] = 0 := rfl

theorem groupCount_drop (g : Nat) (entries : List History) (n : Nat) :
    groupCount g (entries.drop n) ≤ groupCount g entries :=
  ((stackTags_drop entries n).map _).count_le g

theorem groupCount_singleton_congr (g : Nat) {a b : History} (h : a.group = b.group) :
    groupCount g [a] = groupCount g [b] := by
  rw [groupCount, groupCount, stackTags_singleton_congr h]

theorem groupCount_untagged (g : Nat) {entry : History} (h : entry.group = none) :
    groupCount g [entry] = 0 := by
  rw [groupCount, stackTags_untagged h]
  rfl

theorem groupCount_pos {g : Nat} {entries : List History} :
    0 < groupCount g entries ↔ ∃ tag ∈ stackTags entries, tag.id = g := by
  rw [groupCount, List.count_pos_iff, List.mem_map]

namespace Document

/-- The tags of both stacks. -/
def tags (d : Document) : List GroupTag := stackTags d.undo.entries ++ stackTags d.redo.entries

/-- The entries of a group in a document. -/
def held (d : Document) (g : Nat) : Nat :=
  groupCount g d.undo.entries + groupCount g d.redo.entries

theorem held_pos {d : Document} {g : Nat} : 0 < d.held g ↔ ∃ tag ∈ d.tags, tag.id = g := by
  rw [held, ← groupCount_append, groupCount_pos, stackTags_append, tags]

end Document

/-! ## §2 Losing tags -/

/-- Neither side of `d'` has more entries of the group than the same side of `d`. -/
structure Keeps (g : Nat) (d d' : Document) : Prop where
  undo : groupCount g d'.undo.entries ≤ groupCount g d.undo.entries
  redo : groupCount g d'.redo.entries ≤ groupCount g d.redo.entries

theorem Keeps.refl (g : Nat) (d : Document) : Keeps g d d := ⟨Nat.le_refl _, Nat.le_refl _⟩

theorem Keeps.trans {g : Nat} {a b c : Document} (h : Keeps g a b) (h' : Keeps g b c) :
    Keeps g a c := ⟨h'.undo.trans h.undo, h'.redo.trans h.redo⟩

theorem Keeps.held_le {g : Nat} {d d' : Document} (h : Keeps g d d') : d'.held g ≤ d.held g :=
  Nat.add_le_add h.undo h.redo

theorem Evicts.keeps {d d' : Document} (g : Nat) (h : Evicts d d') : Keeps g d d' := by
  obtain ⟨⟨n, hn⟩, ⟨m, hm⟩, -⟩ := h
  exact ⟨hn ▸ groupCount_drop g _ n, hm ▸ groupCount_drop g _ m⟩

/-- `d'` has no tag that `d` lacks. -/
def NoNewTags (d d' : Document) : Prop := ∀ tag ∈ d'.tags, tag ∈ d.tags

theorem NoNewTags.trans {a b c : Document} (h : NoNewTags a b) (h' : NoNewTags b c) :
    NoNewTags a c := fun tag hmem => h tag (h' tag hmem)

theorem Evicts.noNewTags {d d' : Document} (h : Evicts d d') : NoNewTags d d' := by
  obtain ⟨⟨n, hn⟩, ⟨m, hm⟩, -⟩ := h
  intro tag hmem
  rw [Document.tags, List.mem_append, hn, hm] at hmem
  exact List.mem_append.mpr (hmem.imp ((stackTags_drop _ n).subset ·)
    ((stackTags_drop _ m).subset ·))

/-- Stacks whose tags are the same. -/
theorem noNewTags_of_eq {d d' : Document}
    (hundo : stackTags d'.undo.entries = stackTags d.undo.entries)
    (hredo : stackTags d'.redo.entries = stackTags d.redo.entries) : NoNewTags d d' := by
  intro tag hmem
  rwa [Document.tags, hundo, hredo] at hmem

theorem keeps_of_eq (g : Nat) {d d' : Document}
    (hundo : stackTags d'.undo.entries = stackTags d.undo.entries)
    (hredo : stackTags d'.redo.entries = stackTags d.redo.entries) : Keeps g d d' := by
  constructor
  · rw [groupCount, groupCount, hundo]
  · rw [groupCount, groupCount, hredo]

/-! ## §3 What one call does -/

/-- All tags of the group in the document are linked. -/
def Document.LinkedIn (d : Document) (g : Nat) : Prop :=
  ∀ tag ∈ d.tags, tag.id = g → tag.linked = true

/-- What a call on one document does to its tags. -/
structure LocalEffect (d d' : Document) : Prop where
  id : d'.current.documentId = d.current.documentId
  noNewTags : NoNewTags d d'
  keeps : ∀ g, d.LinkedIn g → Keeps g d d'
  held : ∀ g, d'.held g ≤ d.held g

namespace LocalEffect

/-- A call that drops tags at most. -/
theorem of_keeps {d d' : Document} (hid : d'.current.documentId = d.current.documentId)
    (htags : NoNewTags d d') (h : ∀ g, Keeps g d d') : LocalEffect d d' :=
  ⟨hid, htags, fun g _ => h g, fun g => (h g).held_le⟩

theorem refl (d : Document) : LocalEffect d d :=
  of_keeps rfl (fun _ h => h) fun g => Keeps.refl g d

theorem trans {a b c : Document} (h : LocalEffect a b) (h' : LocalEffect b c) :
    LocalEffect a c :=
  ⟨h'.id.trans h.id, h.noNewTags.trans h'.noNewTags, fun g hg =>
    (h.keeps g hg).trans (h'.keeps g fun tag hmem => hg tag (h.noNewTags tag hmem)),
    fun g => (h'.held g).trans (h.held g)⟩

theorem of_evicts {d d' : Document} (h : Evicts d d') : LocalEffect d d' :=
  of_keeps (by rw [h.current]) h.noNewTags fun g => h.keeps g

end LocalEffect

namespace Document

variable {env : Env} {d : Document} {p : PreparedEdit} {tr : EditTransaction}
  {m : Option EditMetadata}

/-- The committed entry of an edit of its own has no group. -/
theorem Ready.entry_group (h : Ready env d tr m p) : p.entry.group = none := by
  obtain ⟨-, ⟨p₀, p₁, hstaged, ⟨_, _, _, rfl⟩, -, -, -, hentry⟩, -⟩ := h
  rw [hentry]
  show p₀.entry.group = none
  rw [hstaged.entry]
  rfl

/-- Pushing an entry: the stack, then perhaps the entry. -/
theorem stackTags_push (stack : HistoryStack) (entry : History) :
    stackTags (stack.push entry).entries = stackTags stack.entries ∨
      stackTags (stack.push entry).entries = stackTags stack.entries ++ stackTags [entry] := by
  rw [HistoryStack.push]
  split
  · exact .inr (stackTags_append _ _)
  · exact .inl rfl

theorem stackTags_push_untagged (stack : HistoryStack) {entry : History}
    (h : entry.group = none) :
    stackTags (stack.push entry).entries = stackTags stack.entries := by
  obtain heq | heq := stackTags_push stack entry
  · exact heq
  · rw [heq, stackTags_untagged h, List.append_nil]

/-- An edit's own commit drops tags at most. -/
theorem commit_localEffect (h : p.entry.group = none) (next : Nat) :
    LocalEffect d (commitPreparedUnchecked env next d p) := by
  have hdrop : ∀ d' : Document, d'.current.documentId = d.current.documentId →
      stackTags d'.undo.entries = stackTags d.undo.entries → d'.redo.entries = [] →
        LocalEffect d d' := by
    intro d' hid hundo hredo
    refine .of_keeps hid (fun tag hmem => ?_) fun g => ⟨?_, ?_⟩
    · rw [tags, hundo, hredo, stackTags_nil, List.append_nil] at hmem
      exact List.mem_append_left _ hmem
    · rw [groupCount, groupCount, hundo]
    · rw [hredo]
      exact Nat.zero_le _
  rw [commitPreparedUnchecked]
  dsimp only
  split
  · refine .of_keeps rfl (fun tag hmem => ?_) fun g => ⟨Nat.zero_le _, Nat.zero_le _⟩
    exact absurd hmem List.not_mem_nil
  · have hpushed : LocalEffect d ({ d with
        current := d.published p, redo := d.redo.clear, lastUntracked := !p.tracked
        undo := d.undo.push p.entry, lastMerged := false } : Document) :=
      hdrop _ rfl (stackTags_push_untagged _ h) rfl
    split
    · rename_i last hlast
      split
      · rename_i hmerge
        obtain ⟨us, hus⟩ := List.getLast?_eq_some_iff.mp hlast
        refine LocalEffect.trans ?_ (LocalEffect.of_evicts (trimHistory_evicts _))
        refine hdrop _ rfl ?_ rfl
        simp only [hus, List.dropLast_concat, stackTags_append]
        rw [stackTags_singleton_congr (show (mergeEntry _ last p.entry).group = last.group
          from rfl)]
      · exact hpushed.trans (.of_evicts (trimHistory_evicts _))
    · exact hpushed.trans (.of_evicts (trimHistory_evicts _))

/-- Ending a typing run touches no tag. -/
theorem stackTags_endTyping (entries : List History) :
    stackTags (endTyping entries) = stackTags entries := by
  rw [endTyping]
  split
  · rename_i last hlast
    obtain ⟨us, rfl⟩ := List.getLast?_eq_some_iff.mp hlast
    rw [List.dropLast_concat, stackTags_append, stackTags_append]
    exact congrArg (stackTags us ++ ·) (stackTags_singleton_congr rfl)
  · rfl

/-- A popped entry that is not linked takes no linked tag along. -/
theorem groupCount_unlinked {entry : History} {g : Nat} (hlinked : linkedEntry (some entry) = false)
    (hall : ∀ tag, entry.group = some tag → tag.id = g → tag.linked = true) :
    groupCount g [entry] = 0 := by
  cases hgroup : entry.group with
  | none => exact groupCount_untagged g hgroup
  | some tag =>
    refine Nat.eq_zero_of_not_pos fun hpos => ?_
    obtain ⟨tag', hmem, hid⟩ := groupCount_pos.mp hpos
    rw [stackTags_tagged hgroup, List.mem_singleton] at hmem
    subst hmem
    have htrue := hall tag' hgroup hid
    simp only [linkedEntry, Option.bind_some, hgroup, Option.any_some, htrue] at hlinked
    exact nomatch hlinked

/-- Pushing such an entry adds nothing to a linked group. -/
theorem groupCount_push_unlinked {entry : History} {g : Nat} (stack : HistoryStack)
    (hlinked : linkedEntry (some entry) = false)
    (hall : ∀ tag, entry.group = some tag → tag.id = g → tag.linked = true) :
    groupCount g (stack.push { entry with typingInsert := false }).entries ≤
      groupCount g stack.entries := by
  have hcopy : groupCount g [{ entry with typingInsert := false }] = groupCount g [entry] :=
    groupCount_singleton_congr g rfl
  rw [groupCount_unlinked hlinked hall] at hcopy
  obtain heq | heq := stackTags_push stack { entry with typingInsert := false }
  · rw [groupCount, heq, ← groupCount]
  · rw [groupCount, heq, ← stackTags_append, ← groupCount, groupCount_append, hcopy]
    exact Nat.le_refl _

/-- At most the pushed entry is added. -/
theorem groupCount_push_le (g : Nat) (stack : HistoryStack) (entry : History) :
    groupCount g (stack.push entry).entries ≤
      groupCount g stack.entries + groupCount g [entry] := by
  obtain heq | heq := stackTags_push stack entry
  · rw [groupCount, heq, ← groupCount]
    exact Nat.le_add_right ..
  · rw [groupCount, heq, ← stackTags_append, ← groupCount, groupCount_append]

theorem groupCount_endTyping (g : Nat) (entries : List History) :
    groupCount g (endTyping entries) = groupCount g entries := by
  rw [groupCount, stackTags_endTyping, groupCount]

theorem mem_tags_push {stack : HistoryStack} {entry : History} {tag : GroupTag}
    (h : tag ∈ stackTags (stack.push entry).entries) :
    tag ∈ stackTags stack.entries ∨ entry.group = some tag := by
  obtain heq | heq := stackTags_push stack entry
  · exact .inl (heq ▸ h)
  · rw [heq, List.mem_append] at h
    refine h.imp_right fun h => ?_
    cases hgroup : entry.group with
    | none =>
      rw [stackTags_untagged hgroup] at h
      exact absurd h List.not_mem_nil
    | some tag' =>
      rw [stackTags_tagged hgroup, List.mem_singleton] at h
      rw [h]

/-- An undo that succeeds passed the check of its entry. -/
theorem undoRelieved_unlinked {relieve : Relief} {revision : Nat} {d' : Document}
    (h : d.undoRelieved relieve env = (.ok revision, d')) :
    linkedEntry d.undo.entries.getLast? = false := by
  rw [undoRelieved] at h
  split at h
  · cases (Prod.mk.inj h).1
  · rename_i hlinked
    exact Bool.eq_false_of_not_eq_true hlinked

theorem redoRelieved_unlinked {relieve : Relief} {revision : Nat} {d' : Document}
    (h : d.redoRelieved relieve env = (.ok revision, d')) :
    linkedEntry d.redo.entries.getLast? = false := by
  rw [redoRelieved] at h
  split at h
  · cases (Prod.mk.inj h).1
  · rename_i hlinked
    exact Bool.eq_false_of_not_eq_true hlinked

/-- The last entry stays the last when older ones are dropped. -/
theorem getLast?_of_drop {entries : List History} {n : Nat} {us : List History} {entry : History}
    (h : us ++ [entry] = entries.drop n) : entries.getLast? = some entry := by
  rw [← List.take_append_drop n entries, ← h, ← List.append_assoc, List.getLast?_concat]

theorem undoRelieved_localEffect {relieve : Relief} (hr : OnlyEvicts relieve) (env : Env)
    (d : Document) : LocalEffect d (d.undoRelieved relieve env).2 := by
  rcases undoRelieved_cases hr env d with ⟨e, d', heq, hev⟩ |
    ⟨d₁, us, entry, change, revision, hev, hus, -, -, -, heq⟩
  · rw [heq]
    exact .of_evicts hev
  · have hunlinked := undoRelieved_unlinked heq
    obtain ⟨n, hn⟩ := hev.undo
    rw [getLast?_of_drop (hus.symm.trans hn)] at hunlinked
    have hentry : ∀ tag, entry.group = some tag → tag ∈ d₁.tags := by
      intro tag htag
      rw [tags, hus, stackTags_append, stackTags_tagged htag]
      simp
    rw [heq]
    refine (LocalEffect.of_evicts hev).trans
      ⟨rfl, fun tag hmem => ?_, fun g hlinked => ⟨?_, ?_⟩, fun g => ?_⟩
    · rw [tags, List.mem_append] at hmem
      obtain hmem | hmem := hmem
      · rw [undone, hus, List.dropLast_concat, stackTags_endTyping] at hmem
        rw [tags, hus, stackTags_append]
        simp [hmem]
      · obtain hmem | hmem := mem_tags_push hmem
        · exact List.mem_append_right _ hmem
        · exact hentry tag hmem
    · rw [undone, groupCount, hus, List.dropLast_concat, stackTags_endTyping, ← groupCount,
        groupCount_append]
      exact Nat.le_add_right ..
    · exact groupCount_push_unlinked _ hunlinked fun tag htag => hlinked tag (hentry tag htag)
    · have hpush := groupCount_push_le g d₁.redo { entry with typingInsert := false }
      have hcopy : groupCount g [{ entry with typingInsert := false }] = groupCount g [entry] :=
        groupCount_singleton_congr g rfl
      rw [hcopy] at hpush
      show (d₁.undone entry change revision).held g ≤ d₁.held g
      simp only [held, undone, hus, List.dropLast_concat, groupCount_endTyping, groupCount_append]
      omega

theorem redoRelieved_localEffect {relieve : Relief} (hr : OnlyEvicts relieve) (env : Env)
    (d : Document) : LocalEffect d (d.redoRelieved relieve env).2 := by
  rcases redoRelieved_cases hr env d with ⟨e, d', heq, hev⟩ |
    ⟨d₁, rs, entry, change, revision, hev, hrs, -, -, -, heq⟩
  · rw [heq]
    exact .of_evicts hev
  · have hunlinked := redoRelieved_unlinked heq
    obtain ⟨n, hn⟩ := hev.redo
    rw [getLast?_of_drop (hrs.symm.trans hn)] at hunlinked
    have hentry : ∀ tag, entry.group = some tag → tag ∈ d₁.tags := by
      intro tag htag
      rw [tags, hrs, stackTags_append, stackTags_tagged htag]
      simp
    rw [heq]
    refine (LocalEffect.of_evicts hev).trans
      ⟨rfl, fun tag hmem => ?_, fun g hlinked => ⟨?_, ?_⟩, fun g => ?_⟩
    · rw [tags, List.mem_append] at hmem
      obtain hmem | hmem := hmem
      · obtain hmem | hmem := mem_tags_push hmem
        · exact List.mem_append_left _ hmem
        · exact hentry tag hmem
      · rw [redone, hrs, List.dropLast_concat] at hmem
        rw [tags, hrs, stackTags_append]
        simp [hmem]
    · exact groupCount_push_unlinked _ hunlinked fun tag htag => hlinked tag (hentry tag htag)
    · rw [redone, hrs, List.dropLast_concat, groupCount_append]
      exact Nat.le_add_right ..
    · have hpush := groupCount_push_le g d₁.undo { entry with typingInsert := false }
      have hcopy : groupCount g [{ entry with typingInsert := false }] = groupCount g [entry] :=
        groupCount_singleton_congr g rfl
      rw [hcopy] at hpush
      show (d₁.redone entry change revision).held g ≤ d₁.held g
      simp only [held, redone, hrs, List.dropLast_concat, groupCount_append]
      omega

theorem applyRelieved_localEffect {relieve : Relief} (hr : OnlyEvicts relieve)
    (worlds : Nat → Env) (hroot : RootWf .resident d.current.root) (tr : EditTransaction)
    (m : Option EditMetadata) : LocalEffect d (d.applyRelieved relieve worlds tr m).2 := by
  rcases applyRelieved_cases hr worlds hroot tr m with ⟨e, d', heq, hev⟩ | ⟨-, -, heq⟩ |
    ⟨d₁, p, next, hev, hready, heq⟩
  · rw [heq]
    exact .of_evicts hev
  · rw [heq]
    exact .refl d
  · rw [heq]
    exact (LocalEffect.of_evicts hev).trans (commit_localEffect hready.entry_group next)

theorem applyMetadataRelieved_localEffect {relieve : Relief} (hr : OnlyEvicts relieve)
    (env : Env) (d : Document) (baseRevision : Nat) (metadata : DocumentMetadata) :
    LocalEffect d (d.applyMetadataRelieved relieve env baseRevision metadata).2 := by
  rw [applyMetadataRelieved]
  split
  · exact .refl d
  split
  · exact .refl d
  split
  · exact .refl d
  split
  · exact .refl d
  have hev := hr env d (.edit (saturatingAdd metadata.charge 128))
  dsimp only
  generalize relieve env d (.edit (saturatingAdd metadata.charge 128)) = d₁ at hev ⊢
  split
  · split
    · exact .of_evicts hev
    · rename_i undo hres
      have hentries := (HistoryStack.tryReserve_ok hres).1
      refine (LocalEffect.of_evicts hev).trans
        (LocalEffect.trans ?_ (LocalEffect.of_evicts (trimHistory_evicts _)))
      refine .of_keeps rfl (fun tag hmem => ?_) fun g => ⟨?_, Nat.zero_le _⟩
      · rw [tags, stackTags_push_untagged _ rfl, hentries] at hmem
        exact List.mem_append_left _ ((List.mem_append.mp hmem).elim id fun h =>
          absurd h List.not_mem_nil)
      · rw [groupCount, stackTags_push_untagged _ rfl, hentries, ← groupCount]
  · exact .of_evicts hev

theorem clearHistory_localEffect (d : Document) : LocalEffect d d.clearHistory :=
  .of_keeps rfl (fun _ h => absurd h List.not_mem_nil) fun _ => ⟨Nat.zero_le _, Nat.zero_le _⟩

/-- Fields beside the snapshot's id and the stacks do not matter. -/
theorem localEffect_of_stacks {d d' : Document} (hid : d'.current.documentId = d.current.documentId)
    (hundo : d'.undo = d.undo) (hredo : d'.redo = d.redo) : LocalEffect d d' :=
  .of_keeps hid (noNewTags_of_eq (by rw [hundo]) (by rw [hredo]))
    fun g => keeps_of_eq g (by rw [hundo]) (by rw [hredo])

end Document

/-- Every call on a well-formed document moves no linked entry and adds no tag. -/
theorem Step.localEffect {d d' : Document} (h : Step d d') (hd : d.Wf) : LocalEffect d d' := by
  cases h with
  | apply hr worlds tr m => exact Document.applyRelieved_localEffect hr worlds hd.root tr m
  | applyMetadata hr env base metadata =>
    exact Document.applyMetadataRelieved_localEffect hr env d base metadata
  | undo hr env => exact Document.undoRelieved_localEffect hr env d
  | redo hr env => exact Document.redoRelieved_localEffect hr env d
  | setHistoryPolicy policy =>
    refine LocalEffect.trans ?_ (LocalEffect.of_evicts (Document.trimHistory_evicts _))
    exact Document.localEffect_of_stacks rfl rfl rfl
  | clearHistory => exact Document.clearHistory_localEffect d
  | markSaved captured =>
    rw [Document.markSaved]
    split_ifs <;> exact Document.localEffect_of_stacks rfl rfl rfl
  | markSavedState state => exact Document.localEffect_of_stacks rfl rfl rfl
  | relieveHistory env demand => exact .of_evicts (Document.relieveHistory_evicts env d demand)
  | evictOldestEntry h => exact .of_evicts (Document.evictOldestEntry_evicts h)

end BareLine
