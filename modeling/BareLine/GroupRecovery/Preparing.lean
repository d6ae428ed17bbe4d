import BareLine.GroupRecovery.Selection

/-!
# A group before its marker

Until the marker exists, every new pointer carries the committed group before it, so every
directory selects what it selected.
-/

namespace BareLine.GroupRecovery

open Lib

/-! ## §1 Members that are being prepared -/

/-- The previous committed group, as a new pointer has to carry it. -/
def carriedPointer (w : World) (d : Directory) : Option Pointer :=
  (w.folder d).pointer.bind fun pointer =>
    if (w.marker d.parent pointer.id).isSome then some { pointer with previous := none }
    else pointer.previous

/-- The receipt of a group root. -/
def groupReceipt (sha256 : Bytes → Digest) (snapshot : Snapshot) : RootReceipt :=
  rootReceipt sha256 snapshot.revision false (OwnedStore.new snapshot.revision) snapshot.draft
    snapshot.draft.recipe

/-- No marker and no pointer of a recovery root carries the id. -/
structure Fresh (w : World) (parent : String) (id : Nat) : Prop where
  marker : w.marker parent id = none
  pointer : ∀ d, d.parent = parent → ∀ pointer ∈ (w.folder d).pointer, pointer.id ≠ id ∧
    ∀ previous ∈ pointer.previous, previous.id ≠ id

/-- The worlds of a group commit before its marker. -/
structure Preparing (w₀ : World) (parent : String) (id : Nat) (w : World) : Prop where
  marker : w.marker = w₀.marker
  elsewhere : ∀ d, d.parent ≠ parent → w.folder d = w₀.folder d
  pointer : ∀ d, (w.folder d).pointer = (w₀.folder d).pointer ∨ d.parent = parent ∧
    ∃ revision, (w.folder d).pointer = some ⟨1, id, revision, carriedPointer w₀ d⟩
  intent : ∀ d i, i ≠ id → (w.folder d).intent i = (w₀.folder d).intent i
  asset : ∀ d name, Named w₀ d name.revision →
    (w.folder d).asset name = (w₀.folder d).asset name
  journal : ∀ d, JournalSafe (Named w₀ d) (w.journal d)

section Preparing

variable {sha256 : Bytes → Digest} {w₀ w : World} {parent : String} {id : Nat}

theorem Preparing.refl (h : Sound sha256 w₀) : Preparing w₀ parent id w₀ where
  marker := rfl
  elsewhere _ _ := rfl
  pointer _ := .inl rfl
  intent _ _ _ := rfl
  asset _ _ _ := rfl
  journal := h.journals

/-- A sound member stays so while its receipt and what it names stay. -/
theorem MemberSound.transfer {d : Directory} {i : Nat} {member : Member} {receipt : RootReceipt}
    (h : MemberSound sha256 w₀ d i member receipt)
    (hintent : (w.folder d).intent i = (w₀.folder d).intent i)
    (hasset : ∀ name : AssetName, name.revision = receipt.revision →
      (w.folder d).asset name = (w₀.folder d).asset name) :
    MemberSound sha256 w d i member receipt where
  directory := h.directory
  intent := hintent.trans h.intent
  small := h.small
  hash := h.hash
  revision := h.revision
  version := h.version
  base := h.base
  file := h.file
  recipe := by
    rw [hasset _ rfl]
    exact h.recipe
  owned := by
    rw [hasset _ rfl]
    exact h.owned

/-- A marker stays sound while the receipts and the named roots of its group stay. -/
theorem MarkerSound.transfer {marker : Marker} {i : Nat}
    (h : MarkerSound sha256 w₀ parent i marker) (hmarker : w₀.marker parent i = some marker)
    (hintent : ∀ d, d.parent = parent → (w.folder d).intent i = (w₀.folder d).intent i)
    (hasset : ∀ d name, Named w₀ d name.revision →
      (w.folder d).asset name = (w₀.folder d).asset name) :
    MarkerSound sha256 w parent i marker where
  version := h.version
  named := h.named
  small := h.small
  two_le := h.two_le
  le_hundred := h.le_hundred
  distinct := h.distinct
  members member hmember := by
    obtain ⟨d, receipt, hparent, hsound⟩ := h.members member hmember
    refine ⟨d, receipt, hparent, hsound.transfer (hintent d hparent) fun name hname => ?_⟩
    refine hasset d name ⟨i, marker, ?_, member, hmember, hsound.directory, ?_⟩
    · rw [hparent]
      exact hmarker
    · rw [hname]
      exact hsound.revision.symm

/-- What a pointer carries is committed and of no further depth. -/
theorem carriedPointer_sound {d : Directory} (h : Sound sha256 w₀) {pointer : Pointer}
    (hpointer : pointer ∈ carriedPointer w₀ d) :
    pointer.previous = none ∧ Listed w₀ d pointer := by
  obtain ⟨p, hp, hcarried⟩ := Option.bind_eq_some_iff.mp hpointer
  have hsound := h.pointers d p hp
  by_cases hmarker : (w₀.marker d.parent p.id).isSome = true
  · rw [if_pos hmarker] at hcarried
    cases hcarried
    exact ⟨rfl, hsound.own hmarker⟩
  · rw [if_neg hmarker] at hcarried
    have hnone : w₀.marker d.parent p.id = none := Option.not_isSome_iff_eq_none.mp hmarker
    exact ⟨hsound.depth pointer hcarried, hsound.carried hnone pointer hcarried⟩

/-- The receipts of committed groups are as they were. -/
theorem Preparing.committed_intent (h : Preparing w₀ parent id w) (hfresh : Fresh w₀ parent id)
    {d : Directory} {i : Nat} (hmarker : (w₀.marker d.parent i).isSome = true) :
    (w.folder d).intent i = (w₀.folder d).intent i := by
  by_cases hparent : d.parent = parent
  · apply h.intent d i
    rintro rfl
    rw [hparent, hfresh.marker] at hmarker
    exact nomatch hmarker
  · rw [h.elsewhere d hparent]

/-- Before the marker the recovery root is sound. -/
theorem Preparing.sound (h : Preparing w₀ parent id w) (h₀ : Sound sha256 w₀)
    (hfresh : Fresh w₀ parent id) : Sound sha256 w := by
  have hnamed : Named w = Named w₀ := by
    unfold Named
    rw [h.marker]
  have hlisted : Listed w = Listed w₀ := by
    unfold Listed
    rw [h.marker]
  refine ⟨fun p i marker hmarker => ?_, fun d pointer hpointer => ?_, fun d => ?_⟩
  · rw [h.marker] at hmarker
    refine (h₀.markers p i marker hmarker).transfer hmarker ?_ h.asset
    rintro d rfl
    exact h.committed_intent hfresh (by rw [hmarker]; rfl)
  · rcases h.pointer d with hsame | ⟨hparent, revision, hnew⟩
    · have hsound := h₀.pointers d pointer (hsame ▸ hpointer)
      refine ⟨hsound.version, hsound.depth, ?_, ?_⟩
      · rw [h.marker, hlisted]
        exact hsound.own
      · rw [h.marker, hlisted]
        exact hsound.carried
    · rw [hnew] at hpointer
      cases hpointer
      refine ⟨rfl, fun previous hprevious => (carriedPointer_sound h₀ hprevious).1, fun hown => ?_,
        fun _ previous hprevious => hlisted ▸ (carriedPointer_sound h₀ hprevious).2⟩
      -- The id is fresh, so the new group has no marker yet.
      rw [h.marker, hparent, hfresh.marker] at hown
      exact nomatch hown
  · rw [hnamed]
    exact h.journal d

/-- Before the marker every directory selects what it selected. -/
theorem Preparing.selected_eq (h : Preparing w₀ parent id w) (h₀ : Sound sha256 w₀)
    (hfresh : Fresh w₀ parent id) (d : Directory) : selected w d = selected w₀ d := by
  have hcommitted : ∀ {i}, (w₀.marker d.parent i).isSome = true →
      (w.folder d).intent i = (w₀.folder d).intent i := h.committed_intent hfresh
  have hlisted : ∀ {pointer}, Listed w₀ d pointer →
      (w.folder d).intent pointer.id = (w₀.folder d).intent pointer.id := by
    rintro pointer ⟨marker, hmarker, -⟩
    exact hcommitted (by rw [hmarker]; rfl)
  rcases h.pointer d with hsame | ⟨hparent, revision, hnew⟩
  · unfold selected
    rw [hsame, h.marker]
    cases hpointer : (w₀.folder d).pointer with
    | none => rfl
    | some pointer =>
      have hsound := h₀.pointers d pointer hpointer
      simp only [Option.bind_some]
      by_cases hmarker : (w₀.marker d.parent pointer.id).isSome = true
      · rw [if_pos hmarker, if_pos hmarker, hcommitted hmarker]
      · rw [if_neg hmarker, if_neg hmarker]
        cases hprevious : pointer.previous with
        | none => rfl
        | some previous =>
          exact hlisted (hsound.carried (Option.not_isSome_iff_eq_none.mp hmarker) _ hprevious)
  · have hunpublished : (w.marker d.parent id).isSome = false := by
      rw [h.marker, hparent, hfresh.marker]
      rfl
    have hcarried : ∀ {pointer}, carriedPointer w₀ d = some pointer →
        (w.folder d).intent pointer.id = (w₀.folder d).intent pointer.id :=
      fun hp => hlisted (carriedPointer_sound h₀ hp).2
    unfold selected
    rw [hnew]
    simp only [Option.bind_some, hunpublished]
    unfold carriedPointer at hcarried ⊢
    cases hpointer : (w₀.folder d).pointer with
    | none => rfl
    | some pointer =>
      simp only [hpointer, Option.bind_some] at hcarried ⊢
      by_cases hmarker : (w₀.marker d.parent pointer.id).isSome = true
      · simp only [if_pos hmarker] at hcarried ⊢
        exact hcarried rfl
      · simp only [if_neg hmarker] at hcarried ⊢
        cases hprevious : pointer.previous with
        | none => rfl
        | some previous => exact hcarried hprevious

/-- What a journal does inside its directory is part of preparing. -/
theorem Preparing.inside (h : Preparing w₀ parent id w) {d : Directory} (hd : d.parent = parent)
    {w' : World} (h' : Inside (Named w₀ d) d w w') : Preparing w₀ parent id w' where
  marker := h'.marker.trans h.marker
  elsewhere d' hd' := by
    rw [h'.folders d' (by rintro rfl; exact hd' hd)]
    exact h.elsewhere d' hd'
  pointer d' := by
    by_cases heq : d' = d
    · subst heq
      rw [h'.pointer]
      exact h.pointer d'
    · rw [h'.folders d' heq]
      exact h.pointer d'
  intent d' i hi := by
    by_cases heq : d' = d
    · subst heq
      rw [h'.intent]
      exact h.intent d' i hi
    · rw [h'.folders d' heq]
      exact h.intent d' i hi
  asset d' name hname := by
    by_cases heq : d' = d
    · subst heq
      rw [h'.asset name hname]
      exact h.asset d' name hname
    · rw [h'.folders d' heq]
      exact h.asset d' name hname
  journal d' := by
    by_cases heq : d' = d
    · subst heq
      exact h'.safe
    · rw [h'.journals d' heq]
      exact h.journal d'

@[simp] theorem setFolder_same {d : Directory} {folder : Folder} :
    (w.setFolder d folder).folder d = folder :=
  Function.update_self ..

/-- A change of a directory of the recovery root that keeps what is committed. -/
theorem Preparing.setFolder (h : Preparing w₀ parent id w) {d : Directory}
    (hd : d.parent = parent) {folder : Folder}
    (hpointer : folder.pointer = (w.folder d).pointer ∨
      ∃ revision, folder.pointer = some ⟨1, id, revision, carriedPointer w₀ d⟩)
    (hintent : ∀ i, i ≠ id → folder.intent i = (w.folder d).intent i)
    (hasset : folder.asset = (w.folder d).asset) :
    Preparing w₀ parent id (w.setFolder d folder) where
  marker := h.marker
  elsewhere d' hd' := by
    rw [setFolder_other (by rintro rfl; exact hd' hd)]
    exact h.elsewhere d' hd'
  pointer d' := by
    by_cases heq : d' = d
    · subst heq
      rw [setFolder_same]
      rcases hpointer with hsame | hnew
      · rw [hsame]
        exact h.pointer d'
      · exact .inr ⟨hd, hnew⟩
    · rw [setFolder_other heq]
      exact h.pointer d'
  intent d' i hi := by
    by_cases heq : d' = d
    · subst heq
      rw [setFolder_same, hintent i hi]
      exact h.intent d' i hi
    · rw [setFolder_other heq]
      exact h.intent d' i hi
  asset d' name hname := by
    by_cases heq : d' = d
    · subst heq
      rw [setFolder_same, hasset]
      exact h.asset d' name hname
    · rw [setFolder_other heq]
      exact h.asset d' name hname
  journal := h.journal

end Preparing

/-! ## §2 One member -/

section Member

variable {queriesFail : Prop} {sha256 : Bytes → Digest} {w₀ w₁ w : World} {parent : String}
  {id : Nat} {d : Directory} {snapshot : Snapshot}

theorem holds_pointerExists {inv : World → Prop} {post : Bool → World → Prop} (hinv : inv w)
    (hpost : post (w.folder d).pointer.isSome w) :
    Holds (machine False) inv (pointerExists d) post w := by
  refine Meets.lift (Meets.ask hinv fun answer w' ⟨hanswer, hw⟩ => ?_)
  subst hw
  rcases hanswer with rfl | ⟨hfail, -⟩
  · exact ⟨hinv, fun a ha => Except.ok.inj ha ▸ hpost⟩
  · exact hfail.elim

theorem holds_markerExists {inv : World → Prop} {i : Nat} {post : Bool → World → Prop}
    (hinv : inv w) (hpost : post (w.marker parent i).isSome w) :
    Holds (machine False) inv (markerExists parent i) post w := by
  refine Meets.lift (Meets.ask hinv fun answer w' ⟨hanswer, hw⟩ => ?_)
  subst hw
  rcases hanswer with rfl | ⟨hfail, -⟩
  · exact ⟨hinv, fun a ha => Except.ok.inj ha ▸ hpost⟩
  · exact hfail.elim

theorem holds_readPointer {inv : World → Prop} {post : Pointer → World → Prop} (hinv : inv w)
    (hpost : ∀ pointer, (w.folder d).pointer = some pointer → post pointer w) :
    Holds (machine queriesFail) inv (readPointer d) post w := by
  refine Meets.ask hinv fun answer w' ⟨hanswer, hw⟩ => ?_
  subst hw
  refine ⟨hinv, fun pointer hpointer => ?_⟩
  rcases hanswer with ⟨p, hp, hfound⟩ | ⟨error, herror⟩
  · rw [hpointer] at hp
    cases hp
    exact hpost pointer hfound
  · rw [hpointer] at herror
    exact nomatch herror

/-- While queries succeed, a new pointer carries what it has to. -/
theorem holds_previousPointer {inv : World → Prop} {post : Option Pointer → World → Prop}
    (hinv : inv w) (hpost : post (carriedPointer w d) w) :
    Holds (machine False) inv (previousPointer d) post w := by
  refine .andThen (holds_pointerExists hinv ?_)
  unfold carriedPointer at hpost
  cases hpointer : (w.folder d).pointer with
  | none =>
    rw [hpointer] at hpost
    exact .pure hinv hpost
  | some pointer =>
    simp only [hpointer, Option.bind_some] at hpost
    refine .andThen (holds_readPointer hinv fun found hfound => ?_)
    cases hpointer.symm.trans hfound
    refine .andThen (holds_refuseIf hinv fun _ => ?_)
    refine .andThen (holds_markerExists hinv ?_)
    split
    · rename_i hmarker
      rw [if_pos hmarker] at hpost
      exact .pure hinv hpost
    · rename_i hmarker
      rw [if_neg hmarker] at hpost
      exact .pure hinv hpost

/-- Every directory but one is as it was. -/
structure Others (d : Directory) (w w' : World) : Prop where
  folders : ∀ d', d' ≠ d → w'.folder d' = w.folder d'
  journals : ∀ d', d' ≠ d → w'.journal d' = w.journal d'

/-- A member whose pointer names the new group. -/
structure Ready (sha256 : Bytes → Digest) (w₀ : World) (id : Nat) (w : World) (d : Directory)
    (snapshot : Snapshot) : Prop where
  pointer : (w.folder d).pointer = some ⟨1, id, snapshot.revision, carriedPointer w₀ d⟩
  intent : (w.folder d).intent id = some (groupReceipt sha256 snapshot)
  recipe : (w.folder d).asset (.root snapshot.revision) = some snapshot.draft.recipe
  owned : (w.folder d).asset (.owned snapshot.revision) = some snapshot.draft.text
  writable : (w.journal d).poisoned = false
  new : ¬(w.journal d).Reached snapshot.revision

/-- The marker's entry for a member. -/
def groupMember (sha256 : Bytes → Digest) (d : Directory) (snapshot : Snapshot) : Member :=
  ⟨d.name.text, snapshot.revision, sha256 (Json.bytes (groupReceipt sha256 snapshot).json)⟩

/-- Preparing one member, of a directory that the group has not touched. -/
theorem holds_prepareMember {post : Member × RootReceipt → World → Prop}
    (h : Preparing w₀ parent id w) (hd : d.parent = parent)
    (hpointer : (w.folder d).pointer = (w₀.folder d).pointer)
    (hdeferred : ∀ batch ∈ (w.journal d).deferred,
      (w.journal d).Refuses (Named w₀ d) batch.revision)
    (hrevision : (w.journal d).Refuses (Named w₀ d) snapshot.revision)
    (hpost : ∀ w', Preparing w₀ parent id w' → Others d w w' →
      Ready sha256 w₀ id w' d snapshot →
      post (groupMember sha256 d snapshot, groupReceipt sha256 snapshot) w') :
    Holds (machine False) (Preparing w₀ parent id) (prepareMember sha256 id d snapshot) post w := by
  have hinside : Inside (Named w₀ d) d w w := .refl (h.journal d)
  -- Up to the receipt only the journal works, inside its directory.
  refine .andThen (holds_attempt h ?_)
  refine .andThen (Holds.relax (holds_flushDeferred hinside hdeferred fun w₁ h₁ => ?_)
    fun w' => h.inside hd)
  refine .andThen (holds_attempt (h.inside hd h₁) ?_)
  refine .andThen (Holds.relax (holds_prepareRecipeRevision h₁ (h₁.grows.refuses hrevision)
    fun w₂ h₂ hjournal₂ hwritable hnew hfree => ?_) fun w' => h.inside hd)
  refine .andThen (holds_attempt (h.inside hd h₂) ?_)
  refine .andThen (Holds.relax (holds_prepareRoot h₂ hfree nofun
    fun store w₃ h₃ hjournal₃ hstore hrecipe howned => ?_) fun w' => h.inside hd)
  cases hstore.resolve_left nofun
  rw [← groupReceipt]
  have hp₃ := h.inside hd h₃
  -- The receipt is published, and then the pointer with the group before it.
  have hp₄ : Preparing w₀ parent id (w₃.setIntent d id (groupReceipt sha256 snapshot)) :=
    hp₃.setFolder hd (.inl rfl) (fun i hi => Function.update_of_ne hi _ _) rfl
  refine .andThen (holds_publishIntent hp₃ hp₄ ?_)
  refine .andThen (holds_previousPointer hp₄ ?_)
  have hcarried : carriedPointer (w₃.setIntent d id (groupReceipt sha256 snapshot)) d =
      carriedPointer w₀ d := by
    have hsame : ((w₃.setIntent d id (groupReceipt sha256 snapshot)).folder d).pointer =
        (w₀.folder d).pointer := by
      rw [World.setIntent, setFolder_same]
      exact h₃.pointer.trans hpointer
    unfold carriedPointer
    rw [hsame, hp₄.marker]
  rw [hcarried]
  have hp₅ : Preparing w₀ parent id ((w₃.setIntent d id (groupReceipt sha256 snapshot)).setPointer d
      ⟨1, id, snapshot.revision, carriedPointer w₀ d⟩) :=
    hp₄.setFolder hd (.inr ⟨snapshot.revision, rfl⟩) (fun _ _ => rfl) rfl
  refine .andThen (holds_publishPointer hp₄ hp₅ (.pure hp₅ (hpost _ hp₅ ⟨?_, h₃.journals⟩ ?_)))
  · intro d' hne
    rw [World.setPointer, setFolder_other hne, World.setIntent, setFolder_other hne]
    exact h₃.folders d' hne
  · have hjournal : w₃.journal d = w₁.journal d := congrFun (hjournal₃.trans hjournal₂) d
    refine ⟨?_, ?_, ?_, ?_, hjournal ▸ hwritable, hjournal ▸ hnew⟩
    all_goals rw [World.setPointer, setFolder_same]
    · rfl
    · rw [World.setIntent, setFolder_same]
      exact Function.update_self ..
    · rw [World.setIntent, setFolder_same]
      exact hrecipe
    · rw [World.setIntent, setFolder_same]
      exact howned rfl

/-! ## §3 All members -/

theorem Ready.of_eq {w' : World} (h : Ready sha256 w₀ id w d snapshot)
    (hfolder : w'.folder d = w.folder d) (hjournal : w'.journal d = w.journal d) :
    Ready sha256 w₀ id w' d snapshot where
  pointer := hfolder ▸ h.pointer
  intent := hfolder ▸ h.intent
  recipe := hfolder ▸ h.recipe
  owned := hfolder ▸ h.owned
  writable := hjournal ▸ h.writable
  new := hjournal ▸ h.new

/-- The journal of a member refuses what a published marker already names, and so it does for
the batch it has deferred. -/
structure Prepares (w : World) (d : Directory) (revision : Nat) : Prop where
  revision : (w.journal d).Refuses (Named w d) revision
  deferred : ∀ batch ∈ (w.journal d).deferred, (w.journal d).Refuses (Named w d) batch.revision

theorem holds_prepareMembers {members : List (Directory × Snapshot)}
    {post : List (Member × RootReceipt) → World → Prop} (h : Preparing w₀ parent id w)
    (hparent : ∀ m ∈ members, m.1.parent = parent) (hdistinct : (members.map Prod.fst).Nodup)
    (hprepares : ∀ m ∈ members, Prepares w₀ m.1 m.2.revision)
    (hfolders : ∀ m ∈ members, w.folder m.1 = w₀.folder m.1)
    (hjournals : ∀ m ∈ members, w.journal m.1 = w₀.journal m.1)
    (hpost : ∀ w', Preparing w₀ parent id w' →
      (∀ d, d ∉ members.map Prod.fst → w'.folder d = w.folder d ∧ w'.journal d = w.journal d) →
      (∀ m ∈ members, Ready sha256 w₀ id w' m.1 m.2) →
      post (members.map fun m => (groupMember sha256 m.1 m.2, groupReceipt sha256 m.2)) w') :
    Holds (machine False) (Preparing w₀ parent id) (prepareMembers sha256 id members) post w := by
  induction members generalizing w post with
  | nil => exact .pure h (hpost w h (fun _ _ => ⟨rfl, rfl⟩) fun m hm => nomatch hm)
  | cons m members ih =>
    obtain ⟨d, snapshot⟩ := m
    rw [List.map_cons, List.nodup_cons] at hdistinct
    have hhead := List.mem_cons_self (a := (d, snapshot)) (l := members)
    have htail : ∀ {m}, m ∈ members → m.1 ≠ d := by
      rintro m hm rfl
      exact hdistinct.1 (List.mem_map.mpr ⟨m, hm, rfl⟩)
    have hjournal := hjournals _ hhead
    have hprepare := hprepares _ hhead
    refine .andThen (holds_prepareMember h (hparent _ hhead) (by rw [hfolders _ hhead])
      (by rw [hjournal]; exact hprepare.deferred) (by rw [hjournal]; exact hprepare.revision)
      fun w₁ h₁ hothers hready => ?_)
    refine .andThen (ih h₁ (fun m hm => hparent m (List.mem_cons_of_mem _ hm)) hdistinct.2
      (fun m hm => hprepares m (List.mem_cons_of_mem _ hm))
      (fun m hm => (hothers.folders m.1 (htail hm)).trans (hfolders m (List.mem_cons_of_mem _ hm)))
      (fun m hm => (hothers.journals m.1 (htail hm)).trans (hjournals m (List.mem_cons_of_mem _ hm)))
      fun w₂ h₂ hsame hrest => ?_)
    refine .pure h₂ (hpost w₂ h₂ (fun d' hd' => ?_) fun m hm => ?_)
    · rw [List.map_cons, List.mem_cons, not_or] at hd'
      obtain ⟨hfolder, hjournal⟩ := hsame d' hd'.2
      exact ⟨hfolder.trans (hothers.folders d' hd'.1), hjournal.trans (hothers.journals d' hd'.1)⟩
    · rcases List.mem_cons.mp hm with rfl | hm
      · obtain ⟨hfolder, hjournal⟩ := hsame d hdistinct.1
        exact hready.of_eq hfolder hjournal
      · exact hrest m hm

end Member

end BareLine.GroupRecovery
