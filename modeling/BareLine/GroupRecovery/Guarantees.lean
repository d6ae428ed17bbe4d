import BareLine.GroupRecovery.Preparing

/-!
# Group commits are atomic

- §1: the marker.
- §2: the journals after the marker.
- §3: one attempt.
- §4: histories of a recovery root.
-/

namespace BareLine.GroupRecovery

open Lib

/-! ## §1 The marker -/

/-- One more protected revision, which the journal has not reached. -/
theorem JournalSafe.protect {isProtected isProtected' : Nat → Prop} {journal : Journal}
    (h : JournalSafe isProtected journal)
    (hnew : ∀ revision, isProtected' revision →
      isProtected revision ∨ journal.poisoned = false ∧ ¬journal.Reached revision) :
    JournalSafe isProtected' journal := by
  have hmentioned : ∀ revision, journal.Mentions revision → isProtected' revision →
      isProtected revision := fun revision hmentions hprotected => by
    rcases hnew revision hprotected with hold | ⟨hwritable, hnot⟩
    · exact hold
    · exact absurd (h.reached hwritable revision hmentions) hnot
  refine ⟨h.reached, fun name hname hp => ?_, fun entry hentry hp => ?_,
    fun entry hentry name hname hp => ?_, fun store hstore hp => ?_⟩
  · exact h.stale name hname (hmentioned _ (.inr (.inl ⟨name, hname, rfl⟩)) hp)
  · exact h.roots entry hentry (hmentioned _ (.inl ⟨entry, hentry, .inl rfl⟩) hp)
  · exact h.owned entry hentry name hname
      (hmentioned _ (.inl ⟨entry, hentry, .inr ⟨name, hname, rfl⟩⟩) hp)
  · exact h.store store hstore (hmentioned _ (.inr (.inr ⟨store, hstore, rfl⟩)) hp)

section Marker

variable {sha256 : Bytes → Digest} {w₀ w : World} {parent : String} {id : Nat}
  {members : List (Directory × Snapshot)}

/-- The marker of a group. -/
def groupMarker (sha256 : Bytes → Digest) (id : Nat) (members : List (Directory × Snapshot)) :
    Marker :=
  ⟨1, id, members.map fun m => groupMember sha256 m.1 m.2⟩

/-- What holds when all members are prepared. -/
structure Prepared (sha256 : Bytes → Digest) (w₀ : World) (parent : String) (id : Nat)
    (members : List (Directory × Snapshot)) (w : World) : Prop where
  preparing : Preparing w₀ parent id w
  ready : ∀ m ∈ members, Ready sha256 w₀ id w m.1 m.2
  others : ∀ d, d ∉ members.map Prod.fst → w.folder d = w₀.folder d

/-- Distinct journals of one recovery root. -/
structure Grouped (parent : String) (members : List (Directory × Snapshot)) : Prop where
  parents : ∀ m ∈ members, m.1.parent = parent
  distinct : (members.map Prod.fst).Nodup

/-- What a group must be like for its marker to be readable. -/
structure Readable (sha256 : Bytes → Digest) (id : Nat) (members : List (Directory × Snapshot)) :
    Prop where
  two_le : 2 ≤ members.length
  le_hundred : members.length ≤ 100
  small : (Json.bytes (groupMarker sha256 id members).json).length ≤ SMALL
  receipts : ∀ m ∈ members, (Json.bytes (groupReceipt sha256 m.2).json).length ≤ SMALL

@[simp] theorem setMarker_folder {marker : Marker} :
    (w.setMarker parent id marker).folder = w.folder := rfl

theorem setMarker_same {marker : Marker} :
    (w.setMarker parent id marker).marker parent id = some marker := by
  simp [World.setMarker]

theorem setMarker_other {marker : Marker} {p : String} {i : Nat} (h : ¬(p = parent ∧ i = id)) :
    (w.setMarker parent id marker).marker p i = w.marker p i := by
  by_cases hp : p = parent
  · subst hp
    have hi : i ≠ id := fun hi => h ⟨rfl, hi⟩
    simp [World.setMarker, hi]
  · simp [World.setMarker, hp]

/-- A member that is ready is as the marker says. -/
theorem Ready.memberSound {d : Directory} {snapshot : Snapshot}
    (h : Ready sha256 w₀ id w d snapshot)
    (hsmall : (Json.bytes (groupReceipt sha256 snapshot).json).length ≤ SMALL) :
    MemberSound sha256 w d id (groupMember sha256 d snapshot) (groupReceipt sha256 snapshot) where
  directory := rfl
  intent := h.intent
  small := hsmall
  hash := rfl
  revision := rfl
  version := rfl
  base := rfl
  file := rfl
  recipe := ⟨_, h.recipe, rfl⟩
  owned := by
    rintro owned ⟨⟩
    exact ⟨rfl, _, h.owned, rfl, rfl⟩

/-- A named revision was named before, or is the new one of a member. -/
theorem named_setMarker (hgrouped : Grouped parent members)
    (h : Prepared sha256 w₀ parent id members w) {d : Directory} {revision : Nat}
    (hnamed : Named (w.setMarker parent id (groupMarker sha256 id members)) d revision) :
    Named w₀ d revision ∨ ∃ m ∈ members, m.1 = d ∧ m.2.revision = revision := by
  obtain ⟨i, marker, hmarker, member, hmember, hname, hrevision⟩ := hnamed
  by_cases hnew : d.parent = parent ∧ i = id
  · rw [hnew.1, hnew.2, setMarker_same] at hmarker
    cases hmarker
    obtain ⟨m, hm, rfl⟩ := List.mem_map.mp hmember
    exact .inr ⟨m, hm, directory_ext ((hgrouped.parents m hm).trans hnew.1.symm) hname, hrevision⟩
  · rw [setMarker_other hnew, h.preparing.marker] at hmarker
    exact .inl ⟨i, marker, hmarker, member, hmember, hname, hrevision⟩

/-- The journals know nothing of the revisions that the marker names. -/
theorem Prepared.journals (h : Prepared sha256 w₀ parent id members w)
    (hgrouped : Grouped parent members) (d : Directory) :
    JournalSafe (Named (w.setMarker parent id (groupMarker sha256 id members)) d)
      (w.journal d) := by
  refine (h.preparing.journal d).protect fun revision hnamed => ?_
  rcases named_setMarker hgrouped h hnamed with hold | ⟨m, hm, rfl, rfl⟩
  · exact .inl hold
  · exact .inr ⟨(h.ready m hm).writable, (h.ready m hm).new⟩

/-- The recovery root stays sound when the marker appears. -/
theorem Prepared.sound (h : Prepared sha256 w₀ parent id members w) (h₀ : Sound sha256 w₀)
    (hfresh : Fresh w₀ parent id) (hgrouped : Grouped parent members)
    (hreadable : Readable sha256 id members) :
    Sound sha256 (w.setMarker parent id (groupMarker sha256 id members)) := by
  have hbefore := h.preparing.sound h₀ hfresh
  refine ⟨fun p i marker hmarker => ?_, fun d pointer hpointer => ?_, fun d => ?_⟩
  · by_cases hnew : p = parent ∧ i = id
    · obtain ⟨rfl, rfl⟩ := hnew
      rw [setMarker_same] at hmarker
      cases hmarker
      refine ⟨rfl, rfl, hreadable.small, ?_, ?_, ?_, fun member hmember => ?_⟩
      · exact (List.length_map ..).symm ▸ hreadable.two_le
      · exact (List.length_map ..).symm ▸ hreadable.le_hundred
      · have hnames : (groupMarker sha256 i members).members.map Member.directory =
            (members.map Prod.fst).map fun d => d.name.text := by
          rw [groupMarker, List.map_map, List.map_map]
          rfl
        rw [hnames]
        refine hgrouped.distinct.map_on fun d hd d' hd' heq => ?_
        obtain ⟨m, hm, rfl⟩ := List.mem_map.mp hd
        obtain ⟨m', hm', rfl⟩ := List.mem_map.mp hd'
        exact directory_ext ((hgrouped.parents m hm).trans (hgrouped.parents m' hm').symm) heq
      · obtain ⟨m, hm, rfl⟩ := List.mem_map.mp hmember
        have hmember := (h.ready m hm).memberSound (hreadable.receipts m hm)
        exact ⟨m.1, _, hgrouped.parents m hm, hmember.transfer rfl fun _ _ => rfl⟩
    · rw [setMarker_other hnew] at hmarker
      exact (hbefore.markers p i marker hmarker).transfer hmarker (fun _ _ => rfl) fun _ _ _ => rfl
  · have hsound := hbefore.pointers d pointer hpointer
    by_cases hd : d ∈ members.map Prod.fst
    · obtain ⟨m, hm, rfl⟩ := List.mem_map.mp hd
      have hready := (h.ready m hm).pointer
      rw [setMarker_folder, hready] at hpointer
      cases hpointer
      refine ⟨rfl, hsound.depth, fun _ => ⟨groupMarker sha256 id members, ?_,
        groupMember sha256 m.1 m.2, List.mem_map.mpr ⟨m, hm, rfl⟩, rfl, rfl⟩, fun hnone => ?_⟩
      · rw [hgrouped.parents m hm]
        exact setMarker_same
      · rw [hgrouped.parents m hm, setMarker_same] at hnone
        exact nomatch hnone
    · -- The id is fresh, so the pointers of other directories do not name it.
      have hold : ∀ i, (∃ p ∈ (w₀.folder d).pointer, p.id = i ∨ ∃ q ∈ p.previous, q.id = i) →
          ¬(d.parent = parent ∧ i = id) := by
        rintro i ⟨p, hp, hi⟩ ⟨hparent, rfl⟩
        have hne := hfresh.pointer d hparent p hp
        rcases hi with hi | ⟨q, hq, hi⟩
        · exact hne.1 hi
        · exact hne.2 q hq hi
      have hp : pointer ∈ (w₀.folder d).pointer := h.others d hd ▸ hpointer
      have hown := hold pointer.id ⟨pointer, hp, .inl rfl⟩
      refine ⟨hsound.version, hsound.depth, fun hmarker => ?_, fun hnone previous hprevious => ?_⟩
      · rw [setMarker_other hown] at hmarker
        obtain ⟨marker, hmarker, hlisted⟩ := hsound.own hmarker
        exact ⟨marker, (setMarker_other hown).trans hmarker, hlisted⟩
      · rw [setMarker_other hown] at hnone
        obtain ⟨marker, hmarker, hlisted⟩ := hsound.carried hnone previous hprevious
        have hq := hold previous.id ⟨pointer, hp, .inr ⟨previous, hprevious, rfl⟩⟩
        exact ⟨marker, (setMarker_other hq).trans hmarker, hlisted⟩
  · exact h.journals hgrouped d

/-- Every other directory selects what it selected. -/
theorem Prepared.selected_other (h : Prepared sha256 w₀ parent id members w)
    (h₀ : Sound sha256 w₀) (hfresh : Fresh w₀ parent id) {d : Directory} (hd : d ∉ members.map Prod.fst) :
    selected (w.setMarker parent id (groupMarker sha256 id members)) d = selected w₀ d := by
  rw [← h.preparing.selected_eq h₀ hfresh d]
  unfold selected
  rw [setMarker_folder]
  cases hpointer : (w.folder d).pointer with
  | none => rfl
  | some pointer =>
    have hold : ¬(d.parent = parent ∧ pointer.id = id) := by
      rintro ⟨hparent, hi⟩
      exact (hfresh.pointer d hparent pointer (h.others d hd ▸ hpointer)).1 hi
    simp only [Option.bind_some, setMarker_other hold]

end Marker

/-! ## §2 The journals after the marker -/

/-- The worlds after a marker, while the journals go on. -/
structure Continuing (w₀ w : World) : Prop where
  marker : w.marker = w₀.marker
  pointer : ∀ d, (w.folder d).pointer = (w₀.folder d).pointer
  intent : ∀ d, (w.folder d).intent = (w₀.folder d).intent
  asset : ∀ d name, Named w₀ d name.revision →
    (w.folder d).asset name = (w₀.folder d).asset name
  journal : ∀ d, JournalSafe (Named w₀ d) (w.journal d)

section Continuing

variable {queriesFail : Prop} {sha256 : Bytes → Digest} {w₀ w : World} {d : Directory}

theorem Continuing.refl (h : ∀ d, JournalSafe (Named w d) (w.journal d)) : Continuing w w :=
  ⟨rfl, fun _ => rfl, fun _ => rfl, fun _ _ _ => rfl, h⟩

/-- Journals that go on leave the recovery root sound. -/
theorem Continuing.sound (h : Continuing w₀ w) (h₀ : Sound sha256 w₀) : Sound sha256 w := by
  have hnamed : Named w = Named w₀ := by
    unfold Named
    rw [h.marker]
  have hlisted : Listed w = Listed w₀ := by
    unfold Listed
    rw [h.marker]
  refine ⟨fun p i marker hmarker => ?_, fun d pointer hpointer => ?_, fun d => ?_⟩
  · rw [h.marker] at hmarker
    exact (h₀.markers p i marker hmarker).transfer hmarker (fun d _ => by rw [h.intent d]) h.asset
  · have hsound := h₀.pointers d pointer (h.pointer d ▸ hpointer)
    refine ⟨hsound.version, hsound.depth, ?_, ?_⟩
    · rw [h.marker, hlisted]
      exact hsound.own
    · rw [h.marker, hlisted]
      exact hsound.carried
  · rw [hnamed]
    exact h.journal d

theorem Continuing.selected_eq (h : Continuing w₀ w) (d : Directory) :
    selected w d = selected w₀ d := by
  unfold selected
  rw [h.pointer, h.marker, h.intent]

theorem Continuing.inside (h : Continuing w₀ w) {w' : World}
    (h' : Inside (Named w₀ d) d w w') : Continuing w₀ w' where
  marker := h'.marker.trans h.marker
  pointer d' := by
    by_cases heq : d' = d
    · subst heq
      exact h'.pointer.trans (h.pointer d')
    · rw [h'.folders d' heq]
      exact h.pointer d'
  intent d' := by
    by_cases heq : d' = d
    · subst heq
      exact h'.intent.trans (h.intent d')
    · rw [h'.folders d' heq]
      exact h.intent d'
  asset d' name hname := by
    by_cases heq : d' = d
    · subst heq
      exact (h'.asset name hname).trans (h.asset d' name hname)
    · rw [h'.folders d' heq]
      exact h.asset d' name hname
  journal d' := by
    by_cases heq : d' = d
    · subst heq
      exact h'.safe
    · rw [h'.journals d' heq]
      exact h.journal d'

theorem holds_groupRootCommitted {isProtected : Nat → Prop} {snapshot : Snapshot}
    {post : Unit → World → Prop} (h : Inside isProtected d w₀ w)
    (hreached : (w.journal d).poisoned = false → (w.journal d).Reached snapshot.revision)
    (hpost : ∀ w', Inside isProtected d w₀ w' → post () w') :
    Holds (machine queriesFail) (Inside isProtected d w₀)
      (groupRootCommitted d (groupReceipt sha256 snapshot)) post w := by
  refine .andThen (holds_memory h ?_)
  have hsafe := h.safe.groupRoot snapshot.revision
  have h₁ := h.setJournal hsafe (.of_eq rfl rfl)
  refine .andThen (holds_assign h h₁ (holds_rememberRoot h₁ ?_ hpost))
  rw [setJournal_same]
  refine hsafe.remember (fun _ => List.mem_cons_self ..) ?_ fun hwritable => ?_
  · rintro name ⟨⟩ _
    rfl
  · refine ⟨hreached hwritable, ?_⟩
    rintro name ⟨⟩
    exact hreached hwritable

/-- The ordinary journal of a member goes on, or its writer stops. -/
theorem holds_continueMember {isProtected : Nat → Prop} {snapshot : Snapshot}
    {post : Unit → World → Prop} (h : Inside isProtected d w₀ w)
    (hpost : ∀ w', Inside isProtected d w₀ w' → post () w') :
    Holds (machine queriesFail) (Inside isProtected d w₀)
      (continueMember d (groupReceipt sha256 snapshot)) post w := by
  refine .andThen (holds_resultOf (.andThen (holds_attempt h (.andThen (holds_appendRecord h
    fun _ h₁ => holds_checkpoint h₁ ?_)))) fun error w₁ h₁ => ?_)
  · refine .andThen (.pure h₁ (holds_groupRootCommitted h₁ (fun _ => ?_) hpost))
    rw [setJournal_same]
    exact ⟨snapshot.revision, rfl, Nat.le_refl _⟩
  · refine .andThen (.andThen (holds_memory h₁ ?_))
    have h₂ := h₁.setJournal h₁.safe.poison ⟨fun _ => rfl, fun _ => id⟩
    refine holds_assign h₁ h₂ (holds_groupRootCommitted h₂ (fun hwritable => ?_) hpost)
    rw [setJournal_same] at hwritable
    exact nomatch hwritable

theorem holds_continueMembers {members : List (Directory × Snapshot)}
    {post : Unit → World → Prop} (h : Continuing w₀ w)
    (hpost : ∀ w', Continuing w₀ w' → post () w') :
    Holds (machine queriesFail) (Continuing w₀)
      (continueMembers (members.map fun m => (m.1, groupReceipt sha256 m.2))) post w := by
  induction members generalizing w with
  | nil => exact .pure h (hpost w h)
  | cons m members ih =>
    refine .andThen (Holds.relax (holds_continueMember (.refl (h.journal m.1))
      fun w' h' => ih (h.inside h')) fun w' h' => h.inside h')

end Continuing

/-! ## §3 One attempt -/

/-- The arguments of a group commit. -/
structure Attempt where
  journals : List Directory
  snapshots : List Snapshot
  edits : List GroupEdits
  id : Nat

namespace Attempt

/-- The recovery root of the first journal. -/
def parent (a : Attempt) : String := (a.journals.head?.map Directory.parent).getD ""

def members (a : Attempt) : List (Directory × Snapshot) := a.journals.zip a.snapshots

/-- `group::commit` with these arguments. -/
def task (sha256 : Bytes → Digest) (a : Attempt) : Task Unit :=
  commit sha256 a.journals a.snapshots a.edits a.id

end Attempt

/-- What an attempt from `w₀` has come to in a world of its run. -/
structure Outcome (sha256 : Bytes → Digest) (a : Attempt) (w₀ w : World) : Prop where
  marker : w.marker a.parent a.id = none ∨
    w.marker a.parent a.id = some (groupMarker sha256 a.id a.members)
  pointer : (w.marker a.parent a.id).isSome = true → ∀ m ∈ a.members,
    (w.folder m.1).pointer = some ⟨1, a.id, m.2.revision, carriedPointer w₀ m.1⟩
  intent : (w.marker a.parent a.id).isSome = true → ∀ m ∈ a.members,
    (w.folder m.1).intent a.id = some (groupReceipt sha256 m.2)
  uncommitted : w.marker a.parent a.id = none → ∀ d, selected w d = selected w₀ d
  others : ∀ d, d ∉ a.journals → selected w d = selected w₀ d
  grouped : (w.marker a.parent a.id).isSome = true → Grouped a.parent a.members
  sound : (∀ m ∈ a.members, (Json.bytes (groupReceipt sha256 m.2).json).length ≤ SMALL) →
    Sound sha256 w

section Attempt

variable {sha256 : Bytes → Digest} {a : Attempt} {w₀ w : World}

/-- Before the marker. -/
theorem Outcome.preparing (h : Preparing w₀ a.parent a.id w) (h₀ : Sound sha256 w₀)
    (hfresh : Fresh w₀ a.parent a.id) : Outcome sha256 a w₀ w := by
  have hnone : w.marker a.parent a.id = none := by rw [h.marker, hfresh.marker]
  have hunpublished : ∀ {p : Prop}, (w.marker a.parent a.id).isSome = true → p := by
    rw [hnone]
    exact fun hmarker => nomatch hmarker
  exact ⟨.inl hnone, hunpublished, hunpublished, fun _ => h.selected_eq h₀ hfresh,
    fun d _ => h.selected_eq h₀ hfresh d, hunpublished, fun _ => h.sound h₀ hfresh⟩

/-- After the marker. -/
theorem Outcome.continuing {w₁ : World} (h₁ : Prepared sha256 w₀ a.parent a.id a.members w₁)
    (h : Continuing (w₁.setMarker a.parent a.id (groupMarker sha256 a.id a.members)) w)
    (h₀ : Sound sha256 w₀) (hfresh : Fresh w₀ a.parent a.id)
    (hgrouped : Grouped a.parent a.members)
    (hreadable : (∀ m ∈ a.members,
      (Json.bytes (groupReceipt sha256 m.2).json).length ≤ SMALL) →
      Readable sha256 a.id a.members)
    (hjournals : a.members.map Prod.fst = a.journals) : Outcome sha256 a w₀ w where
  marker := by
    rw [h.marker]
    exact .inr setMarker_same
  pointer _ m hm := (h.pointer m.1).trans (h₁.ready m hm).pointer
  intent _ m hm := by
    rw [h.intent]
    exact (h₁.ready m hm).intent
  uncommitted hnone := by
    rw [h.marker, setMarker_same] at hnone
    exact nomatch hnone
  others d hd := (h.selected_eq d).trans (h₁.selected_other h₀ hfresh (hjournals ▸ hd))
  grouped _ := hgrouped
  sound hsmall := h.sound (h₁.sound h₀ hfresh hgrouped (hreadable hsmall))

/-- Once the marker is published every member selects the new group. -/
theorem Outcome.selected_member (h : Outcome sha256 a w₀ w)
    (hmarker : (w.marker a.parent a.id).isSome = true) {m : Directory × Snapshot}
    (hm : m ∈ a.members) : selected w m.1 = some (groupReceipt sha256 m.2) := by
  unfold selected
  rw [h.pointer hmarker m hm, (h.grouped hmarker).parents m hm]
  simp only [Option.bind_some, hmarker, if_true]
  exact h.intent hmarker m hm

theorem holds_publishMarker {queriesFail : Prop} {inv : World → Prop} {parent : String} {id : Nat}
    {marker : Marker} {post : Unit → World → Prop} (hinv : inv w)
    (hafter : inv (w.setMarker parent id marker)) (hpost : post () (w.setMarker parent id marker)) :
    Holds (machine queriesFail) inv (publishMarker parent id marker) post w :=
  Meets.ask hinv fun _ _ hstep => published_ok hstep hinv hafter hpost

theorem zip_map_zip {α β γ : Type} (f : α × β → γ) (as : List α) (bs : List β) :
    as.zip ((as.zip bs).map f) = (as.zip bs).map fun m => (m.1, f m) := by
  induction as generalizing bs with
  | nil => rfl
  | cons x as ih =>
    cases bs with
    | nil => rfl
    | cons y bs =>
      rw [List.zip_cons_cons, List.map_cons, List.zip_cons_cons, List.map_cons, ih]

/-- Every world of an attempt's run: the new group for all members, or nothing new. -/
theorem holds_commit (h₀ : Sound sha256 w₀) (hfresh : Fresh w₀ a.parent a.id)
    (hdistinct : a.journals.Nodup)
    (hprepares : ∀ m ∈ a.members, Prepares w₀ m.1 m.2.revision) :
    Holds (machine False) (Outcome sha256 a w₀) (a.task sha256) (fun _ _ => True) w₀ := by
  have houtcome : ∀ w, Preparing w₀ a.parent a.id w → Outcome sha256 a w₀ w :=
    fun w h => .preparing h h₀ hfresh
  have hstart := houtcome w₀ (.refl h₀)
  refine .andThen (holds_refuseIf hstart fun hcounts => ?_)
  refine .andThen (holds_refuseIf hstart fun hroots => ?_)
  refine .andThen (holds_attempt hstart ?_)
  have hlength : a.journals.length = a.snapshots.length := by
    by_contra hne
    exact hcounts (.inr (.inr (.inl hne)))
  have hjournals : a.members.map Prod.fst = a.journals :=
    List.map_fst_zip (Nat.le_of_eq hlength)
  have hnodup : (a.members.map Prod.fst).Nodup := by
    rw [hjournals]
    exact hdistinct
  have hparents : ∀ m ∈ a.members, m.1.parent = a.parent := by
    intro m hm
    by_contra hne
    exact hroots ⟨m.1, hjournals ▸ List.mem_map_of_mem hm, hne⟩
  refine .andThen (Holds.relax (holds_prepareMembers (.refl h₀) hparents hnodup hprepares
    (fun _ _ => rfl) (fun _ _ => rfl) fun w₁ h₁ hsame hready => ?_) houtcome)
  have hmap : (a.members.map fun m => (groupMember sha256 m.1 m.2, groupReceipt sha256 m.2)).map
      Prod.fst = (groupMarker sha256 a.id a.members).members := by
    rw [List.map_map]
    rfl
  have hcontinue : a.journals.zip
      ((a.members.map fun m => (groupMember sha256 m.1 m.2, groupReceipt sha256 m.2)).map
        Prod.snd) = a.members.map fun m => (m.1, groupReceipt sha256 m.2) := by
    rw [List.map_map]
    exact zip_map_zip _ _ _
  rw [show a.journals.zip a.snapshots = a.members from rfl, hcontinue]
  simp only [hmap]
  refine .andThen (holds_refuseIf (houtcome w₁ h₁) fun hsmall => ?_)
  refine .andThen (holds_attempt (houtcome w₁ h₁) ?_)
  have hmembers : a.members.length = a.journals.length := by
    rw [← hjournals, List.length_map]
  have hgrouped : Grouped a.parent a.members := ⟨hparents, hnodup⟩
  have hreadable : (∀ m ∈ a.members,
      (Json.bytes (groupReceipt sha256 m.2).json).length ≤ SMALL) →
      Readable sha256 a.id a.members :=
    fun hreceipts => ⟨by omega, by omega, Nat.not_lt.mp hsmall, hreceipts⟩
  have hprepared : Prepared sha256 w₀ a.parent a.id a.members w₁ :=
    ⟨h₁, hready, fun d hd => (hsame d hd).1⟩
  have hafter : ∀ w, Continuing
      (w₁.setMarker a.parent a.id (groupMarker sha256 a.id a.members)) w →
      Outcome sha256 a w₀ w :=
    fun w h => .continuing hprepared h h₀ hfresh hgrouped hreadable hjournals
  have hgo := Continuing.refl (hprepared.journals hgrouped)
  exact .andThen (holds_publishMarker (houtcome w₁ h₁) (hafter _ hgo)
    (Holds.relax (holds_continueMembers hgo fun _ _ => trivial) hafter))

end Attempt

/-! ## §4 Histories of a recovery root -/

/-- What the steps of a history are held to. -/
structure Limits where
  /-- Existence queries may fail. -/
  queriesFail : Prop
  prepares : World → Directory → Nat → Prop
  publishes : Snapshot → Prop

/-- Every step the code can take. -/
def Limits.none : Limits := ⟨True, fun _ _ _ => True, fun _ => True⟩

/-- Existence queries succeed, no journal prepares a revision again that a published marker
already names, and every receipt is small enough to be read back. -/
def Limits.careful (sha256 : Bytes → Digest) : Limits where
  queriesFail := False
  prepares w d revision := (w.journal d).Refuses (Named w d) revision
  publishes snapshot := (Json.bytes (groupReceipt sha256 snapshot).json).length ≤ SMALL

/-- An attempt of distinct journals with a fresh id, within limits. -/
structure Attempt.Admitted (limits : Limits) (w : World) (a : Attempt) : Prop where
  distinct : a.journals.Nodup
  fresh : Fresh w a.parent a.id
  prepares : ∀ m ∈ a.members, limits.prepares w m.1 m.2.revision
  deferred : ∀ m ∈ a.members, ∀ batch ∈ (w.journal m.1).deferred,
    limits.prepares w m.1 batch.revision
  publishes : ∀ m ∈ a.members, limits.publishes m.2

/-- A journal without a writer. -/
def Journal.lost : Journal := { Journal.new with poisoned := true }

def World.empty : World := ⟨fun _ => Folder.new, fun _ _ => Option.none, fun _ => Journal.lost⟩

/-- The worlds of a recovery root: journals are created and append, groups are attempted, each
up to any point, and a crash loses what the journals keep in memory. -/
inductive History (sha256 : Bytes → Digest) (limits : Limits) : World → Prop
  | start : History sha256 limits World.empty
  | create {w : World} {d : Directory} (h : History sha256 limits w)
      (hnew : w.folder d = Folder.new) (hlost : w.journal d = Journal.lost) :
      History sha256 limits (w.setJournal d Journal.new)
  | defer {w : World} {d : Directory} {batch : DeferredAppend} (h : History sha256 limits w) :
      History sha256 limits (w.setJournal d { w.journal d with deferred := some batch })
  | flush {w w' : World} {d : Directory} {result : Option (Except String Unit)}
      (h : History sha256 limits w)
      (hbatch : ∀ batch ∈ (w.journal d).deferred, limits.prepares w d batch.revision)
      (hrun : Run (machine limits.queriesFail) w (flushDeferred sha256 d).run result w') :
      History sha256 limits w'
  | attempt {w w' : World} {a : Attempt} {result : Option (Except String Unit)}
      (h : History sha256 limits w) (ha : a.Admitted limits w)
      (hrun : Run (machine limits.queriesFail) w (a.task sha256).run result w') :
      History sha256 limits w'
  | crash {w : World} (h : History sha256 limits w) :
      History sha256 limits { w with journal := fun _ => Journal.lost }

/-- A group commit is atomic: its members select the new roots once its marker is published,
and until then every directory selects what it selected before. -/
structure Atomic (sha256 : Bytes → Digest) (a : Attempt) (w₀ w : World) : Prop where
  committed : (w.marker a.parent a.id).isSome = true → ∀ m ∈ a.members,
    committedRoot sha256 w m.1 = .ok (some (groupReceipt sha256 m.2))
  uncommitted : w.marker a.parent a.id = Option.none → ∀ d,
    committedRoot sha256 w d = committedRoot sha256 w₀ d
  others : ∀ d, d ∉ a.journals → committedRoot sha256 w d = committedRoot sha256 w₀ d
  succeeds : ∀ d, ∃ root, committedRoot sha256 w d = .ok root

section History

variable {sha256 : Bytes → Digest} {w₀ w : World} {a : Attempt}
  {result : Option (Except String Unit)}

theorem JournalSafe.lost {isProtected : Nat → Prop} : JournalSafe isProtected Journal.lost :=
  JournalSafe.new.poison

/-- A journal that changes alone, and safely, leaves the recovery root sound. -/
theorem Sound.setJournal (h : Sound sha256 w) {d : Directory} {journal : Journal}
    (hsafe : JournalSafe (Named w d) journal) : Sound sha256 (w.setJournal d journal) := by
  have hsame : Continuing w (w.setJournal d journal) := by
    refine ⟨rfl, fun _ => rfl, fun _ => rfl, fun _ _ _ => rfl, fun d' => ?_⟩
    by_cases heq : d' = d
    · subst heq
      rw [setJournal_same]
      exact hsafe
    · rw [setJournal_other heq]
      exact h.journals d'
  exact hsame.sound h

theorem Attempt.outcome (h₀ : Sound sha256 w₀) {limits : Limits} (ha : a.Admitted limits w₀)
    (hprepares : ∀ m ∈ a.members, Prepares w₀ m.1 m.2.revision)
    (hrun : Run (machine False) w₀ (a.task sha256).run result w) : Outcome sha256 a w₀ w :=
  (Meets.run (holds_commit h₀ ha.fresh ha.distinct hprepares) hrun).1

/-- A careful attempt, wherever its run ends. -/
theorem Attempt.Admitted.outcome (ha : a.Admitted (.careful sha256) w₀) (h₀ : Sound sha256 w₀)
    (hrun : Run (machine False) w₀ (a.task sha256).run result w) : Outcome sha256 a w₀ w :=
  Attempt.outcome h₀ ha (fun m hm => ⟨ha.prepares m hm, ha.deferred m hm⟩) hrun

/-- Every careful history leaves the recovery root sound. -/
theorem History.sound (h : History sha256 (.careful sha256) w) : Sound sha256 w := by
  induction h with
  | start =>
    exact ⟨fun _ _ _ hm => (nomatch hm), fun _ _ hp => (nomatch hp), fun _ => JournalSafe.lost⟩
  | create h hnew hlost ih => exact ih.setJournal .new
  | @defer w d batch h ih => exact ih.setJournal ((ih.journals d).defer _)
  | @flush w w' d result h hbatch hrun ih =>
    have hflush : Holds (machine False) (Inside (Named w d) d w) (flushDeferred sha256 d)
        (fun _ _ => True) w :=
      holds_flushDeferred (.refl (ih.journals d)) hbatch fun _ _ => trivial
    exact ((Continuing.refl ih.journals).inside (Meets.run hflush hrun).1).sound ih
  | attempt h ha hrun ih => exact (ha.outcome ih hrun).sound ha.publishes
  | @crash w h ih =>
    have hsame : Continuing w { w with journal := fun _ => Journal.lost } :=
      ⟨rfl, fun _ => rfl, fun _ => rfl, fun _ _ _ => rfl, fun _ => JournalSafe.lost⟩
    exact hsame.sound ih

/-- In every careful history each group commit is atomic, wherever its run ends. -/
theorem group_commit_atomic (h : History sha256 (.careful sha256) w₀)
    (ha : a.Admitted (.careful sha256) w₀)
    (hrun : Run (machine False) w₀ (a.task sha256).run result w) : Atomic sha256 a w₀ w := by
  have h₀ := h.sound
  have houtcome := ha.outcome h₀ hrun
  have hselects := committedRoot_eq (houtcome.sound ha.publishes)
  have hselected := committedRoot_eq h₀
  refine ⟨fun hmarker m hm => ?_, fun hmarker d => ?_, fun d hd => ?_, fun d => ⟨_, hselects d⟩⟩
  · rw [hselects, houtcome.selected_member hmarker hm]
  · rw [hselects, hselected, houtcome.uncommitted hmarker d]
  · rw [hselects, hselected, houtcome.others d hd]

/-- A published group with a receipt that is too long to read is lost to all its members. -/
theorem Outcome.unreadable (h : Outcome sha256 a w₀ w)
    (hmarker : (w.marker a.parent a.id).isSome = true) {m : Directory × Snapshot}
    (hm : m ∈ a.members) (hlong : SMALL < (Json.bytes (groupReceipt sha256 m.2).json).length)
    {m' : Directory × Snapshot} (hm' : m' ∈ a.members) (root : Option RootReceipt) :
    committedRoot sha256 w m'.1 ≠ .ok root := by
  intro hroot
  have hparents := (h.grouped hmarker).parents
  have hpublished : w.marker m'.1.parent a.id = some (groupMarker sha256 a.id a.members) := by
    rw [hparents m' hm']
    rcases h.marker with hnone | hsome
    · rw [hnone] at hmarker
      exact nomatch hmarker
    · exact hsome
  obtain ⟨receipt, hreceipt, hsmall⟩ := committedRoot_small (h.pointer hmarker m' hm') hpublished
    hroot (List.mem_map.mpr ⟨m, hm, rfl⟩) ((hparents m hm).trans (hparents m' hm').symm) rfl
  rw [h.intent hmarker m hm] at hreceipt
  cases hreceipt
  exact Nat.not_lt.mpr hsmall hlong

end History

/-! ## §5 Two documents -/

/-- The answers of an environment in which nothing fails that can succeed. -/
def answer (w : World) : (op : Op) → op.Answer × World
  | .attempt => (.ok (), w)
  | .memory d => (w.journal d, w)
  | .assign d journal => ((), w.setJournal d journal)
  | .createNew d name =>
    match (w.folder d).asset name with
    | none => (.ok (), w.setAsset d name (some []))
    | some _ => (.error "exists", w)
  | .append d name content =>
    (.ok (), w.setAsset d name (((w.folder d).asset name).map fun before => before ++ content))
  | .readBack d name =>
    match (w.folder d).asset name with
    | none => (.error "not found", w)
    | some content => (.ok content, w)
  | .tryExists d name => (.ok ((w.folder d).asset name).isSome, w)
  | .publishReceipt d name content => (.ok (), w.setAsset d name (some content))
  | .remove d name => (.ok (), w.setAsset d name none)
  | .publishIntent d id receipt => (.ok (), w.setIntent d id receipt)
  | .pointerExists d => ((w.folder d).pointer.isSome, w)
  | .readPointer d =>
    match (w.folder d).pointer with
    | none => (.error "not found", w)
    | some pointer => (.ok pointer, w)
  | .publishPointer d pointer => (.ok (), w.setPointer d pointer)
  | .markerExists parent id => ((w.marker parent id).isSome, w)
  | .publishMarker parent id marker => (.ok (), w.setMarker parent id marker)

theorem machine_answer {queriesFail : Prop} (w : World) (op : Op) :
    machine queriesFail w op (answer w op).1 (answer w op).2 := by
  cases op with
  | attempt => rfl
  | memory d => exact ⟨rfl, rfl⟩
  | assign d journal => rfl
  | createNew d name =>
    cases hasset : (w.folder d).asset name with
    | none =>
      left
      refine ⟨hasset, .inl ?_⟩
      simp only [answer, hasset, and_self]
    | some content =>
      right
      refine ⟨"exists", ?_⟩
      simp only [answer, hasset, and_true]
      rfl
  | append d name content => exact .inl ⟨rfl, rfl⟩
  | readBack d name =>
    cases hasset : (w.folder d).asset name with
    | none =>
      refine ⟨.inr ⟨"not found", ?_⟩, by simp only [answer, hasset]⟩
      simp only [answer, hasset]
      rfl
    | some content =>
      refine ⟨.inl ⟨content, ?_, hasset⟩, by simp only [answer, hasset]⟩
      simp only [answer, hasset]
      rfl
  | tryExists d name => exact ⟨.inl rfl, rfl⟩
  | publishReceipt d name content => exact .inl ⟨rfl, rfl⟩
  | remove d name => exact .inl ⟨rfl, rfl⟩
  | publishIntent d id receipt => exact .inl ⟨rfl, rfl⟩
  | pointerExists d => exact ⟨.inl rfl, rfl⟩
  | readPointer d =>
    cases hpointer : (w.folder d).pointer with
    | none =>
      refine ⟨.inr ⟨"not found", ?_⟩, by simp only [answer, hpointer]⟩
      simp only [answer, hpointer]
      rfl
    | some pointer =>
      refine ⟨.inl ⟨pointer, ?_, hpointer⟩, by simp only [answer, hpointer]⟩
      simp only [answer, hpointer]
      rfl
  | publishPointer d pointer => exact .inl ⟨rfl, rfl⟩
  | markerExists parent id => exact ⟨.inl rfl, rfl⟩
  | publishMarker parent id marker => exact .inl ⟨rfl, rfl⟩


/-- A digest that tells the texts below apart: their first bytes. -/
def leadingBytes (content : Bytes) : Digest :=
  ⟨((List.range 32).map fun i => content.getD i 0).toArray, by simp⟩

def firstJournal : Directory := ⟨"recovery", ⟨"paged-1".toList, by decide⟩⟩

def secondJournal : Directory := ⟨"recovery", ⟨"paged-2".toList, by decide⟩⟩

def noMetadata : DocumentMetadata := ⟨[], by decide, by decide, by decide⟩

theorem metadataBytes_replicate (n : Nat) :
    metadataBytes [(['k'], List.replicate n 'v')] = n + 1 := by
  rw [metadataBytes, List.map_singleton, List.sum_singleton, bytes_replicate]
  show 1 + n * 1 = n + 1
  omega

/-- Metadata as long as `DocumentMetadata::new` takes it. -/
def longMetadata : DocumentMetadata where
  values := [(['k'], List.replicate 65535 'v')]
  count_le := by decide
  bytes_le := Nat.le_of_eq (metadataBytes_replicate 65535)
  keys_nonempty entry hentry := by
    rw [List.mem_singleton.mp hentry]
    exact List.cons_ne_nil _ _

def noForeign : ForeignSources := ⟨[], by decide⟩

def firstDocument (metadata : DocumentMetadata) : Directory × Snapshot :=
  (firstJournal, ⟨1, metadata, noForeign, [.text [65]]⟩)

def secondDocument : Directory × Snapshot :=
  (secondJournal, ⟨2, noMetadata, noForeign, [.text [66, 66]]⟩)

/-- Both documents, the first with some metadata. -/
def twoDocuments (metadata : DocumentMetadata) : Attempt where
  journals := [firstJournal, secondJournal]
  snapshots := [(firstDocument metadata).2, secondDocument.2]
  edits := [.history, .source]
  id := 7

/-- A recovery root with both journals. -/
def twoJournals : World :=
  (World.empty.setJournal firstJournal Journal.new).setJournal secondJournal Journal.new

def committedTwo (metadata : DocumentMetadata) : World :=
  (((twoDocuments metadata).task leadingBytes).run.follow answer twoJournals).2

theorem committedTwo_run {queriesFail : Prop} (metadata : DocumentMetadata) :
    ∃ result, Run (machine queriesFail) twoJournals ((twoDocuments metadata).task leadingBytes).run
      result (committedTwo metadata) :=
  ⟨_, Run.follow machine_answer _ _⟩

theorem twoJournals_history (limits : Limits) : History leadingBytes limits twoJournals :=
  .create (.create .start rfl rfl) rfl rfl

/-- Nothing has been published yet. -/
theorem twoJournals_refuses (d : Directory) (revision : Nat) :
    (twoJournals.journal d).Refuses (Named twoJournals d) revision :=
  fun ⟨_, _, hmarker, _⟩ => (nomatch hmarker)

theorem twoDocuments_admitted {limits : Limits} {metadata : DocumentMetadata}
    (hprepares : ∀ d revision, limits.prepares twoJournals d revision)
    (hpublishes : ∀ m ∈ (twoDocuments metadata).members, limits.publishes m.2) :
    (twoDocuments metadata).Admitted limits twoJournals where
  distinct := by
    show [firstJournal, secondJournal].Nodup
    decide
  fresh := ⟨rfl, fun _ _ pointer hpointer => (nomatch hpointer)⟩
  prepares m _ := hprepares m.1 m.2.revision
  deferred m _ batch _ := hprepares m.1 batch.revision
  publishes := hpublishes

set_option maxRecDepth 4000 in
theorem committedTwo_published :
    ((committedTwo longMetadata).marker (twoDocuments longMetadata).parent
      (twoDocuments longMetadata).id).isSome = true := by
  decide +kernel

/-- A group commit succeeds, and then no member can find its group. -/
theorem long_receipt_hides_group :
    History leadingBytes .none twoJournals ∧ (twoDocuments longMetadata).Admitted .none twoJournals ∧
      (∃ result, Run (machine True) twoJournals ((twoDocuments longMetadata).task leadingBytes).run
        result (committedTwo longMetadata)) ∧
      ¬Atomic leadingBytes (twoDocuments longMetadata) twoJournals (committedTwo longMetadata) := by
  refine ⟨twoJournals_history _, twoDocuments_admitted (fun _ _ => trivial) fun _ _ => trivial,
    committedTwo_run longMetadata, fun hatomic => ?_⟩
  obtain ⟨result, hrun⟩ := @committedTwo_run False longMetadata
  have houtcome := Attempt.outcome (twoJournals_history (.careful leadingBytes)).sound
    (@twoDocuments_admitted .none longMetadata (fun _ _ => trivial) fun _ _ => trivial)
    (fun m _ => ⟨twoJournals_refuses _ _, nofun⟩) hrun
  have hmem : firstDocument longMetadata ∈ (twoDocuments longMetadata).members := .head _
  have hlong : SMALL <
      (Json.bytes (groupReceipt leadingBytes (firstDocument longMetadata).2).json).length := by
    have hvalue : (['k'], List.replicate 65535 'v') ∈
        (groupReceipt leadingBytes (firstDocument longMetadata).2).metadata.values := .head _
    have hle := metadata_le_receipt hvalue
    rw [List.length_replicate] at hle
    rw [SMALL]
    omega
  exact houtcome.unreadable committedTwo_published hmem hlong hmem _
    (hatomic.committed committedTwo_published _ hmem)

set_option maxRecDepth 4000 in
theorem twoDocuments_publishes : ∀ m ∈ (twoDocuments noMetadata).members,
    (Limits.careful leadingBytes).publishes m.2 := by
  show ∀ m ∈ (twoDocuments noMetadata).members,
    (Json.bytes (groupReceipt leadingBytes m.2).json).length ≤ SMALL
  decide +kernel

theorem group_commit_atomic_twoDocuments :
    ∃ result, Run (machine False) twoJournals ((twoDocuments noMetadata).task leadingBytes).run
        result (committedTwo noMetadata) ∧
      Atomic leadingBytes (twoDocuments noMetadata) twoJournals (committedTwo noMetadata) := by
  obtain ⟨result, hrun⟩ := @committedTwo_run False noMetadata
  exact ⟨result, hrun, group_commit_atomic (twoJournals_history _)
    (twoDocuments_admitted twoJournals_refuses twoDocuments_publishes) hrun⟩

end BareLine.GroupRecovery
