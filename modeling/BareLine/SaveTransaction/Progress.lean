import BareLine.SaveTransaction.Announced

/-!
# Cleanup, step by step

- §1: unlinking.
- §2: the loops of `cleanup`.
- §3: publishing and marking.
-/

namespace BareLine.SaveTransaction

open Lib

variable {save : Save} {d₀ d d' : Disk} {s s' s'' : System} {busy faults : Bool}

/-! ## §1 Unlinking -/

/-- A new disk in one of the states. -/
theorem Kept.changed (h : Kept save d₀ s)
    (hstage : Stage save d₀ d' (s.after d').announced)
    (honly : OnlyReclaimable s.disk → OnlyReclaimable d')
    (hlease : d'.exclusive = s.disk.exclusive) : Kept save d₀ (s.after d') where
  watched := {
    watched := fun i p hp => (h.watched.watched i p hp).mono id honly
    exclusive := fun hholder => hlease.trans (h.watched.exclusive hholder) }
  stage := hstage

/-- From `s` on, entries only went. -/
structure Fewer (save : Save) (d₀ : Disk) (s s' : System) : Prop where
  kept : Kept save d₀ s'
  announced : s'.announced = s.announced
  names : ∀ name, s'.disk.names name = s.disk.names name ∨ s'.disk.names name = none
  object : s'.disk.object = s.disk.object

theorem Fewer.refl (h : Kept save d₀ s) : Fewer save d₀ s s :=
  ⟨h, rfl, fun _ => Or.inl rfl, rfl⟩

theorem Still.fewer (h : Still save d₀ busy s s') : Fewer save d₀ s s' :=
  ⟨h.kept, h.announced, fun name => Or.inl (congrFun h.same.names name), h.same.object⟩

theorem Fewer.trans (h : Fewer save d₀ s s') (h' : Fewer save d₀ s' s'') :
    Fewer save d₀ s s'' where
  kept := h'.kept
  announced := h'.announced.trans h.announced
  names name := by
    rcases h'.names name with hsame | hnone
    · rw [hsame]
      exact h.names name
    · exact Or.inr hnone
  object := h'.object.trans h.object

/-- What is gone stays gone. -/
theorem Fewer.gone (h : Fewer save d₀ s s') {name : Name} (hname : s.disk.names name = none) :
    s'.disk.names name = none := by
  rcases h.names name with hsame | hnone
  · exact hsame.trans hname
  · exact hnone

theorem Sound.unlink (h : Sound save d₀ d) {entry : Entry} (hrecords : save.records entry) :
    Sound save d₀ (d.setName (.entry entry) none) where
  fresh name node hnode := by
    rw [Disk.setName_names] at hnode
    split at hnode
    · cases hnode
    · exact h.fresh name node hnode
  regular entry' node hentry hnode := by
    rw [Disk.setName_names] at hnode
    split at hnode
    · cases hnode
    · exact h.regular entry' node hentry hnode
  unverified := by
    rw [Disk.setName_names, h.unverified, ite_self]
  artifact entry' hentry := by
    rw [Disk.setName_names]
    split
    · next heq => cases heq; exact Or.inr ⟨rfl, hrecords⟩
    · exact h.artifact entry' hentry
  target := by
    rw [Disk.file, Disk.setName_names, if_neg (fun h => (by cases h))]
    exact h.target
  stage := by
    rw [Disk.setName_names, if_neg (fun h => (by cases h))]
    exact h.stage
  foreign := h.foreign
  place := h.place

/-- The authority goes last, and the cleanup record next to it. -/
def LastOfAll (save : Save) (d : Disk) (entry : Entry) : Prop :=
  (entry = .authority → ∀ other, save.records other → other ≠ .authority →
      d.names (.entry other) = none) ∧
  (entry = .state .cleanupPending → ∀ other, save.records other → other ≠ .authority →
      other ≠ .state .cleanupPending → d.names (.entry other) = none)

/-- Unlinking in the order of `cleanup`. -/
theorem Stage.unlink (h : Stage save d₀ d true) {entry : Entry} (hrecords : save.records entry)
    (hlast : LastOfAll save d entry) :
    Stage save d₀ (d.setName (.entry entry) none) true := by
  have hsound := h.sound.unlink hrecords
  have hnames (other : Entry) (hother : d.names (.entry other) = none) :
      (d.setName (.entry entry) none).names (.entry other) = none := by
    rw [Disk.setName_names, hother, ite_self]
  have hentry : (d.setName (.entry entry) none).names (.entry entry) = none := by
    rw [Disk.setName_names, if_pos rfl]
  cases h with
  | done h => exact .done ⟨hsound, fun other hother => hnames other (h.gone other hother)⟩
  | pending h =>
    by_cases hauthority : entry = .authority
    · subst hauthority
      refine .done ⟨hsound, fun other hother => ?_⟩
      by_cases heq : other = .authority
      · exact heq ▸ hentry
      · exact hnames other (hlast.1 rfl other hother heq)
    · have hne : (Name.entry .authority) ≠ .entry entry := fun heq =>
        hauthority (Name.entry.inj heq).symm
      refine .pending ⟨hsound, h.folder, h.bounded, (file_setName_ne hne none).trans h.authority,
        ?_, ?_⟩
      · by_cases heq : entry = .manifest
        · exact Or.inl (heq ▸ hentry)
        · refine h.manifest.imp (hnames _) fun hfile => ?_
          rw [file_setName_ne (fun h => heq (Name.entry.inj h).symm)]
          exact hfile
      · by_cases heq : entry = .state .cleanupPending
        · subst heq
          refine Or.inr fun other hother hnot => ?_
          by_cases hsame : other = .state .cleanupPending
          · exact hsame ▸ hentry
          · exact hnames other (hlast.2 rfl other hother hnot hsame)
        · refine h.marked.imp (fun hmarked => ?_) fun hnothing other hother hnot =>
            hnames other (hnothing other hother hnot)
          rw [Disk.setName_names, if_neg (fun h => heq (Name.entry.inj h).symm)]
          exact hmarked

/-- `unlinkat` on a recorded entry. -/
theorem unlink_meets {entry : Entry} (h : Kept save d₀ s) (hannounced : s.announced = true)
    (hrecords : save.records entry) (hlast : LastOfAll save s.disk entry) :
    Keeps save d₀ busy faults (use (.unlink (.entry entry))).run
      (fun r s' => Fewer save d₀ s s' ∧
        (r = .ok () ∨ r = .error .notFound → s'.disk.names (.entry entry) = none) ∧
        (faults = false → r = .ok () ∨
          r = .error .notFound ∧ s.disk.names (.entry entry) = none)) s := by
  refine Meets.ask h ?_
  rintro answer _ ⟨s₁, d', hothers, hperforms, rfl⟩
  have hstill := Still.of_others h hothers
  have hsame := hstill.same
  have hkeep := hstill.trans (hstill.kept.after (.refl s₁.disk) rfl rfl)
  rcases hperforms with hdoes | ⟨hfaults, -, e, hsystem, rfl, rfl | ⟨node, bytes, k, hop, -⟩⟩
  · simp only [Disk.does] at hdoes
    split at hdoes
    · next hnone =>
      cases hdoes
      exact ⟨hkeep.kept, hkeep.fewer, fun _ => hnone, fun _ => Or.inr ⟨rfl, hsame.names ▸ hnone⟩⟩
    · next node hnode =>
      split at hdoes
      · next hdirectory =>
        cases hdoes
        have hregular := hstill.kept.stage.sound.regular entry node hrecords hnode
        rw [hregular] at hdirectory
        cases hdirectory
      · cases hdoes
        have hstage : Stage save d₀ s₁.disk true := by
          rw [← hannounced, ← hstill.announced]
          exact hstill.kept.stage
        have hlast' : LastOfAll save s₁.disk entry := by
          rw [LastOfAll, hsame.names]
          exact hlast
        have hnext := hstage.unlink hrecords hlast'
        have hnow : (s₁.after (s₁.disk.setName (.entry entry) none)).announced = true := by
          show (s₁.announced || _) = true
          rw [hstill.announced, hannounced, Bool.true_or]
        have hkept : Kept save d₀ (s₁.after (s₁.disk.setName (.entry entry) none)) := by
          refine hstill.kept.changed (hnow ▸ hnext) (fun honly => ⟨fun other hother => ?_, honly.2⟩)
            rfl
          rw [Disk.setName_names] at hother
          split at hother
          · exact absurd rfl hother
          · exact honly.1 other hother
        refine ⟨hkept, ⟨hkept, hnow.trans hannounced.symm, fun name => ?_, hsame.object⟩,
          fun _ => ?_, fun _ => Or.inl rfl⟩
        · show (s₁.disk.setName (.entry entry) none).names name = s.disk.names name ∨
            (s₁.disk.setName (.entry entry) none).names name = none
          rw [Disk.setName_names]
          split
          · exact Or.inr rfl
          · exact Or.inl (congrFun hsame.names name)
        · show (s₁.disk.setName (.entry entry) none).names (.entry entry) = none
          rw [Disk.setName_names, if_pos rfl]
  · refine ⟨hkeep.kept, hkeep.fewer, fun hr => ?_,
      fun hsound => (by cases hfaults.symm.trans hsound)⟩
    rcases hr with hr | hr
    · cases hr
    · cases hr
      cases hsystem
  · cases hop

theorem unlinkPresent_meets {entry : Entry} (h : Kept save d₀ s) (hannounced : s.announced = true)
    (hrecords : save.records entry) (hlast : LastOfAll save s.disk entry) :
    Keeps save d₀ busy faults (unlinkPresent entry).run
      (fun r s' => Fewer save d₀ s s' ∧ (r = .ok () → s'.disk.names (.entry entry) = none) ∧
        (faults = false → r = .ok ())) s := by
  refine Meets.andThen (Meets.lift ((unlink_meets h hannounced hrecords hlast).weaken ?_))
  rintro r s₁ - ⟨hfewer, hgone, hok⟩
  show Meets _ _ _ _ s₁
  split
  · exact .pure hfewer.kept ⟨hfewer, fun _ => hgone (Or.inl rfl), fun _ => rfl⟩
  · exact .pure hfewer.kept ⟨hfewer, fun _ => hgone (Or.inr rfl), fun _ => rfl⟩
  · next e hother =>
    refine .pure hfewer.kept ⟨hfewer, fun hr => (nomatch hr), fun hfaults => ?_⟩
    rcases hok hfaults with hr | ⟨hr, -⟩
    · cases hr
    · cases hr
      exact absurd rfl hother

theorem lastOfAll_artifact {entry : Entry} (h : entry ∈ artifactEntries) :
    LastOfAll save d entry := by
  refine ⟨?_, ?_⟩ <;> (rintro rfl; exact absurd h (by decide))

/-- `remove_verified` on an artifact. -/
theorem removeVerified_meets {entry : Entry} {node : Node} (h : Kept save d₀ s)
    (hannounced : s.announced = true) (hentry : entry ∈ artifactEntries)
    (hrecords : save.records entry) :
    Keeps save d₀ busy faults (removeVerified entry node).run
      (fun r s' => Fewer save d₀ s s' ∧ (r = .ok () → s'.disk.names (.entry entry) = none) ∧
        (faults = false → s.disk.names (.entry entry) = some node ∨
          s.disk.names (.entry entry) = none → r = .ok ())) s := by
  refine Meets.result (Meets.static trivial h) fun r s₁ hanswered h₁ => ?_
  show Meets _ _ _ _ s₁
  split
  · next found =>
    have hfound : s.disk.names (.entry entry) = some found := by
      rcases hanswered with hvalue | ⟨-, e, -, herror⟩
      · simp only [Disk.does] at hvalue
        split at hvalue
        · next hnode => cases hvalue; exact hnode
        · cases hvalue
      · cases herror
    split
    · next heq =>
      refine Meets.weaken (unlink_meets h₁.kept (h₁.announced.trans hannounced) hrecords
        (lastOfAll_artifact hentry)) ?_
      rintro r s₂ - ⟨hfewer, hgone, hok⟩
      refine ⟨h₁.fewer.trans hfewer, fun hr => hgone (Or.inl hr), fun hfaults _ => ?_⟩
      rcases hok hfaults with hr | ⟨-, hnone⟩
      · exact hr
      · rw [h₁.same.names, hfound] at hnone
        cases hnone
    · next hne =>
      refine .pure h₁.kept ⟨h₁.fewer, fun hr => (by cases hr), fun _ hnode => ?_⟩
      rw [hfound] at hnode
      rcases hnode with hnode | hnode
      · exact absurd (Option.some.inj hnode) hne
      · cases hnode
  · have hnone : s.disk.names (.entry entry) = none := by
      have hvalue := hanswered.notFound
      simp only [Disk.does] at hvalue
      split at hvalue
      · cases hvalue
      · next hnone => exact hnone
    refine .pure h₁.kept ⟨h₁.fewer, fun _ => ?_, fun _ _ => rfl⟩
    rw [h₁.same.names]
    exact hnone
  · next e hother =>
    refine .pure h₁.kept ⟨h₁.fewer, fun hr => (by cases hr), fun hfaults hnode => ?_⟩
    rcases hanswered with hvalue | ⟨htrue, -⟩
    · simp only [Disk.does] at hvalue
      split at hvalue
      · cases hvalue
      · cases hvalue
        exact absurd rfl hother
    · cases htrue.symm.trans hfaults

/-! ## §2 The loops of `cleanup` -/

/-- What a token knows of the artifacts that are left. -/
structure TokenOk (save : Save) (d : Disk) (token : Cleanup) : Prop where
  generation : token.generation = save.generation
  artifacts : ∀ artifact ∈ token.artifacts, artifact.1 ∈ artifactEntries ∧
    save.records artifact.1 ∧ (d.names (.entry artifact.1) = some artifact.2 ∨
      d.names (.entry artifact.1) = none)
  all : ∀ entry ∈ artifactEntries, save.records entry → d.names (.entry entry) ≠ none →
    ∃ node, (entry, node) ∈ token.artifacts

/-- A token outlives what goes. -/
theorem TokenOk.fewer {token : Cleanup} (h : TokenOk save s.disk token)
    (hs : Fewer save d₀ s s') : TokenOk save s'.disk token where
  generation := h.generation
  artifacts artifact hmem := by
    obtain ⟨hentry, hrecords, hnode⟩ := h.artifacts artifact hmem
    refine ⟨hentry, hrecords, ?_⟩
    rcases hs.names (.entry artifact.1) with hsame | hnone
    · rw [hsame]
      exact hnode
    · exact Or.inr hnone
  all entry hentry hrecords hleft :=
    h.all entry hentry hrecords fun hnone => hleft (hs.gone hnone)

theorem removeArtifacts_meets {token : Cleanup} (h : Kept save d₀ s)
    (hannounced : s.announced = true) (htoken : TokenOk save s.disk token) :
    Keeps save d₀ busy faults (removeArtifacts token.artifacts)
      (fun r s' => Fewer save d₀ s s' ∧ TokenOk save s'.disk { token with artifacts := r.2 } ∧
        (r.1 = .ok () → r.2 = []) ∧ (faults = false → r.1 = .ok ())) s := by
  obtain ⟨generation, artifacts, authority⟩ := token
  show Meets _ _ (removeArtifacts artifacts) _ s
  induction artifacts generalizing s with
  | nil => exact .pure h ⟨Fewer.refl h, htoken, fun _ => rfl, fun _ => rfl⟩
  | cons artifact artifacts ih =>
    obtain ⟨entry, node⟩ := artifact
    obtain ⟨hentry, hrecords, hnode⟩ := htoken.artifacts (entry, node) List.mem_cons_self
    refine Meets.bind ((removeVerified_meets h hannounced hentry hrecords).weaken ?_)
    rintro r s₁ - ⟨hfewer, hgone, hok⟩
    cases r with
    | ok _ =>
      have hrest : TokenOk save s₁.disk ⟨generation, artifacts, authority⟩ := by
        have hwhole := htoken.fewer hfewer
        refine ⟨hwhole.generation, fun artifact hmem =>
          hwhole.artifacts artifact (List.mem_cons_of_mem _ hmem), fun other hother hrec hleft => ?_⟩
        obtain ⟨node', hmem⟩ := hwhole.all other hother hrec hleft
        rcases List.mem_cons.mp hmem with heq | hmem
        · cases heq
          exact absurd (hgone rfl) hleft
        · exact ⟨node', hmem⟩
      refine (ih hfewer.kept (hfewer.announced.trans hannounced) hrest).weaken ?_
      rintro r s₂ - ⟨hfewer', hrest'⟩
      exact ⟨hfewer.trans hfewer', hrest'⟩
    | error e =>
      exact .pure hfewer.kept ⟨hfewer, htoken.fewer hfewer, fun hr => (nomatch hr),
        fun hfaults => nomatch hok hfaults hnode⟩

/-- What follows a record in the order in which they go. -/
theorem rest_of_retired {gone rest : List Entry} {entry : Entry}
    (hsplit : gone ++ entry :: rest = retiredRecords) :
    (entry = .authority → rest = []) ∧ (entry = .state .cleanupPending → rest = [.authority]) := by
  have hrest : entry :: rest = retiredRecords.drop gone.length := by
    rw [← hsplit, List.drop_left]
  have hlength : gone.length < 7 := by
    have := congrArg List.length hsplit
    rw [List.length_append, List.length_cons] at this
    have hall : retiredRecords.length = 7 := rfl
    omega
  generalize gone.length = k at hrest hlength
  match k, hlength with
  | 0, _ | 1, _ | 2, _ | 3, _ | 4, _ =>
    cases hrest
    exact ⟨fun h => (nomatch h), fun h => (nomatch h)⟩
  | 5, _ =>
    cases hrest
    exact ⟨fun h => (nomatch h), fun _ => rfl⟩
  | 6, _ =>
    cases hrest
    exact ⟨fun _ => rfl, fun h => (nomatch h)⟩

/-- The records go in an order that every reader understands. -/
theorem lastOfAll_retired {gone rest : List Entry} {entry : Entry}
    (hsplit : gone ++ entry :: rest = retiredRecords)
    (hgone : ∀ other, save.records other → other ∉ entry :: rest →
      d.names (.entry other) = none) : LastOfAll save d entry := by
  obtain ⟨hauthority, hcleanup⟩ := rest_of_retired hsplit
  refine ⟨fun heq other hother hne => hgone other hother ?_,
    fun heq other hother hne hne' => hgone other hother ?_⟩
  · rw [hauthority heq, heq, List.mem_singleton]
    exact hne
  · rw [hcleanup heq, heq, List.mem_cons, List.mem_singleton, not_or]
    exact ⟨hne', hne⟩

theorem unlinkAll_meets (gone : List Entry) {rest : List Entry} (hsplit : gone ++ rest = retiredRecords)
    (h : Kept save d₀ s) (hannounced : s.announced = true)
    (hgone : ∀ entry, save.records entry → entry ∉ rest → s.disk.names (.entry entry) = none) :
    Keeps save d₀ busy faults (unlinkAll rest).run
      (fun r s' => Fewer save d₀ s s' ∧
        (r = .ok () → ∀ entry, save.records entry → s'.disk.names (.entry entry) = none) ∧
        (faults = false → r = .ok ())) s := by
  induction rest generalizing gone s with
  | nil =>
    exact .pure h ⟨Fewer.refl h, fun _ entry hentry => hgone entry hentry (by simp),
      fun _ => rfl⟩
  | cons entry rest ih =>
    have hrecords : save.records entry := by
      rintro rfl
      have hmem : Entry.displaced ∈ retiredRecords :=
        hsplit ▸ List.mem_append_right _ List.mem_cons_self
      exact absurd hmem (by decide)
    refine Meets.andThen ((unlinkPresent_meets h hannounced hrecords
      (lastOfAll_retired hsplit hgone)).weaken ?_)
    rintro r s₁ - ⟨hfewer, hnow, hok⟩
    cases r with
    | error e => exact ⟨hfewer, fun hr => (nomatch hr), fun hfaults => nomatch hok hfaults⟩
    | ok _ =>
      have hgone' : ∀ other, save.records other → other ∉ rest →
          s₁.disk.names (.entry other) = none := by
        intro other hother hnot
        by_cases heq : other = entry
        · exact heq ▸ hnow rfl
        · exact hfewer.gone (hgone other hother (by simp [heq, hnot]))
      have hsplit' : (gone ++ [entry]) ++ rest = retiredRecords := by
        rw [List.append_assoc]
        exact hsplit
      refine Meets.weaken (ih _ hsplit' hfewer.kept (hfewer.announced.trans hannounced) hgone') ?_
      rintro r s₂ - ⟨hfewer', hrest⟩
      exact ⟨hfewer.trans hfewer', hrest⟩

/-- Outside the folder's own removal nothing depends on its name. -/
theorem Kept.still_of_content {busy : Bool} {s₁ : System} (h : Kept save d₀ s)
    (hothers : Others save.generation busy s s₁) (hd : Same s₁.disk d')
    (hfolder : d'.folder = s₁.disk.folder) (hlease : d'.exclusive = s₁.disk.exclusive) :
    Still save d₀ busy s (s₁.after d') :=
  have hstill := Still.of_others h hothers
  hstill.trans (hstill.kept.after hd hfolder hlease)

/-- A look at the folder. -/
def Op.looks : Op → Prop
  | .stillNamed | .openFolder => True
  | _ => False

theorem Disk.does_looks {op : Op} (hlooks : op.looks) (d : Disk) :
    (d.does op).2 = d ∧ (d.folder = true → ∃ a, (d.does op).1 = .ok a) := by
  cases op <;> first
    | exact absurd hlooks id
    | exact ⟨rfl, fun hfolder => ⟨(), by simp only [Disk.does, hfolder, if_true]⟩⟩

theorem look_meets {op : Op} (hlooks : op.looks) (h : Kept save d₀ s) :
    Keeps save d₀ busy faults (use op).run
      (fun r s' => Still save d₀ busy s s' ∧
        (faults = false → Pending save d₀ s.disk → ∃ a, r = .ok a)) s := by
  refine Meets.ask h ?_
  rintro answer _ ⟨s₁, d', hothers, hperforms, rfl⟩
  have hsame := Still.of_others h hothers
  have hstill := h.still_of_content hothers (.refl s₁.disk) rfl rfl
  rcases hperforms with hdoes | ⟨hfaults, -, e, -, rfl, rfl | ⟨node, bytes, k, hop, -⟩⟩
  · obtain ⟨hdisk, hok⟩ := Disk.does_looks hlooks s₁.disk
    have hd : d' = s₁.disk := (congrArg Prod.snd hdoes).trans hdisk
    subst hd
    refine ⟨hstill.kept, hstill, fun _ hpending => ?_⟩
    have hnot : ¬Done save d₀ s.disk := fun hdone =>
      hpending.authority_ne (hdone.gone .authority fun h => nomatch h)
    obtain ⟨a, ha⟩ := hok ((hsame.folder hnot).trans hpending.folder)
    exact ⟨a, (congrArg Prod.fst hdoes).trans ha⟩
  · exact ⟨hstill.kept, hstill, fun hsound => nomatch hfaults.symm.trans hsound⟩
  · subst hop
    exact absurd hlooks id

/-- `unlinkat` with `REMOVEDIR`: an empty folder holds no record. -/
theorem removeFolder_meets (h : Kept save d₀ s) :
    Keeps save d₀ busy faults (use .removeFolder).run
      (fun _ s' => Fewer save d₀ s s') s := by
  refine Meets.ask h ?_
  rintro answer _ ⟨s₁, d', hothers, hperforms, rfl⟩
  have hsame := Still.of_others h hothers
  have hstill := h.still_of_content hothers (.refl s₁.disk) rfl rfl
  rcases hperforms with hdoes | ⟨hfaults, -, e, -, rfl, rfl | ⟨node, bytes, k, hop, -⟩⟩
  · simp only [Disk.does] at hdoes
    split at hdoes
    · cases hdoes
      exact ⟨hstill.kept, hstill.fewer⟩
    · split at hdoes
      · next hempty =>
        cases hdoes
        have hnone (entry : Entry) : s₁.disk.names (.entry entry) = none := by
          rw [← Option.not_isSome_iff_eq_none]
          intro hsome
          have hmem : entry ∈ s₁.disk.entries := List.mem_filter.mpr ⟨entry.mem_all, hsome⟩
          rw [hempty.1] at hmem
          cases hmem
        have hfiles : Same s₁.disk { s₁.disk with folder := false } := ⟨rfl, rfl, rfl, rfl, rfl⟩
        have hdone : Done save d₀ { s₁.disk with folder := false } :=
          ⟨hsame.kept.stage.sound.same hfiles, fun entry _ => hnone entry⟩
        have hannounced : s₁.announced = true := by
          cases hstage : s₁.announced with
          | true => rfl
          | false =>
            have hbefore := hsame.kept.stage
            rw [hstage] at hbefore
            cases hbefore with
            | before hbefore => exact absurd (hnone _) hbefore.precommit
        have hnow : (s₁.after { s₁.disk with folder := false }).announced = true := by
          show (s₁.announced || _) = true
          rw [hannounced, Bool.true_or]
        have hkept : Kept save d₀ (s₁.after { s₁.disk with folder := false }) :=
          hsame.kept.changed (hnow ▸ .done hdone) (fun honly => honly) rfl
        exact ⟨hkept, ⟨hkept, hnow.trans (hannounced.symm.trans hsame.announced),
          fun name => Or.inl (congrFun hsame.same.names name), hsame.same.object⟩⟩
      · cases hdoes
        exact ⟨hstill.kept, hstill.fewer⟩
  · exact ⟨hstill.kept, hstill.fewer⟩
  · cases hop

theorem removeTransaction_meets (h : Kept save d₀ s) :
    Keeps save d₀ busy faults removeTransaction.run
      (fun _ s' => Fewer save d₀ s s') s := by
  refine Meets.andThen ((look_meets (show Op.looks .stillNamed from trivial) h).weaken ?_)
  rintro (e | _) s₁ - ⟨h₁, -⟩
  · exact h₁.fewer
  · refine Meets.andThen ((removeFolder_meets h₁.kept).weaken ?_)
    rintro (e | _) s₂ - h₂
    · exact h₁.fewer.trans h₂
    · exact (Meets.static (show Op.static .sync from trivial) h₂.kept).weaken fun _ s₃ _ h₃ =>
        (h₁.fewer.trans h₂).trans h₃.1.fewer

/-- `cleanup` ends with no recorded entry, unless it is interrupted. -/
theorem cleanup_meets {token : Cleanup} (h : Kept save d₀ s) (hannounced : s.announced = true)
    (htoken : TokenOk save s.disk token) :
    Keeps save d₀ busy faults (cleanup token)
      (fun r s' => Fewer save d₀ s s' ∧ TokenOk save s'.disk r.2 ∧
        (faults = false → Pending save d₀ s.disk → Done save d₀ s'.disk)) s := by
  refine Meets.bind ((look_meets (show Op.looks .stillNamed from trivial) h).weaken ?_)
  rintro (e | _) s₁ - ⟨h₁, hnamed⟩
  · exact .pure h₁.kept ⟨h₁.fewer, htoken.fewer h₁.fewer, fun hfaults hpending =>
      nomatch (hnamed hfaults hpending).choose_spec⟩
  · have hannounced₁ := h₁.announced.trans hannounced
    refine Meets.bind ((removeArtifacts_meets h₁.kept hannounced₁ (htoken.fewer h₁.fewer)).weaken ?_)
    rintro ⟨removed, artifacts⟩ s₂ - ⟨h₂, htoken₂, hall, hok⟩
    have hfewer₂ := h₁.fewer.trans h₂
    cases removed with
    | error e =>
      exact .pure h₂.kept ⟨hfewer₂, ⟨htoken₂.generation, htoken₂.artifacts, htoken₂.all⟩,
        fun hfaults => nomatch hok hfaults⟩
    | ok _ =>
      have hgone : ∀ entry, save.records entry → entry ∉ retiredRecords →
          s₂.disk.names (.entry entry) = none := by
        intro entry hrecords hnot
        have hcase : entry ∈ artifactEntries ∨ entry = .state .unverified := by
          cases entry with
          | state state => cases state <;> first | exact Or.inr rfl | exact absurd (by decide) hnot
          | editor => exact Or.inl (by decide)
          | displaced => exact Or.inl (by decide)
          | manifest => exact absurd (by decide) hnot
          | authority => exact absurd (by decide) hnot
        rcases hcase with hartifact | rfl
        · by_contra hleft
          obtain ⟨node, hmem⟩ := htoken₂.all entry hartifact hrecords hleft
          rw [hall rfl] at hmem
          exact nomatch hmem
        · exact h₂.kept.stage.sound.unverified
      refine Meets.bind ((unlinkAll_meets [] rfl h₂.kept
        (h₂.announced.trans hannounced₁) hgone).weaken ?_)
      rintro (e | _) s₃ - ⟨h₃, hnothing, hok⟩
      · exact .pure h₃.kept ⟨hfewer₂.trans h₃,
          ⟨htoken₂.generation, (htoken₂.fewer h₃).artifacts, (htoken₂.fewer h₃).all⟩,
          fun hfaults => nomatch hok hfaults⟩
      · refine Meets.bind ((removeTransaction_meets h₃.kept).weaken ?_)
        rintro r s₄ - h₄
        have hrest := (htoken₂.fewer h₃).fewer h₄
        exact .pure h₄.kept ⟨(hfewer₂.trans h₃).trans h₄,
          ⟨hrest.generation, hrest.artifacts, hrest.all⟩, fun _ _ =>
          ⟨h₄.kept.stage.sound, fun entry hentry => h₄.gone (hnothing rfl entry hentry)⟩⟩

/-! ## §3 Publishing and marking -/

/-- From `s` on, the artifacts are the same. -/
structure Aside (save : Save) (d₀ : Disk) (s s' : System) : Prop where
  kept : Kept save d₀ s'
  announced : s.announced = true → s'.announced = true
  artifacts : ∀ entry ∈ artifactEntries,
    s'.disk.names (.entry entry) = s.disk.names (.entry entry)

theorem Aside.refl (h : Kept save d₀ s) : Aside save d₀ s s := ⟨h, id, fun _ _ => rfl⟩

theorem Still.aside (h : Still save d₀ busy s s') : Aside save d₀ s s' :=
  ⟨h.kept, fun ha => h.announced.trans ha, fun _ _ => congrFun h.same.names _⟩

theorem Aside.trans (h : Aside save d₀ s s') (h' : Aside save d₀ s' s'') :
    Aside save d₀ s s'' :=
  ⟨h'.kept, fun ha => h'.announced (h.announced ha), fun entry hentry =>
    (h'.artifacts entry hentry).trans (h.artifacts entry hentry)⟩

theorem TokenOk.aside {token : Cleanup} (h : TokenOk save s.disk token)
    (hs : Aside save d₀ s s') : TokenOk save s'.disk token where
  generation := h.generation
  artifacts artifact hmem := by
    obtain ⟨hentry, hrecords, hnode⟩ := h.artifacts artifact hmem
    rw [hs.artifacts _ hentry]
    exact ⟨hentry, hrecords, hnode⟩
  all entry hentry hrecords hleft := by
    rw [hs.artifacts _ hentry] at hleft
    exact h.all entry hentry hrecords hleft

theorem artifact_ne {entry other : Entry} (hnew : entry ∉ artifactEntries)
    (hother : other ∈ artifactEntries) : Name.entry other ≠ .entry entry :=
  entry_ne fun heq => hnew (heq ▸ hother)

/-- A new record. -/
theorem Sound.withNew (h : Sound save d₀ d) {entry : Entry} (hnew : entry ∉ artifactEntries)
    (hstate : entry ≠ .state .unverified) : Sound save d₀ (d.withNew (.entry entry)) where
  fresh name node hnode := by
    rw [Disk.withNew_names] at hnode
    rw [Disk.withNew_fresh]
    split at hnode
    · cases hnode
      exact Nat.lt_succ_self _
    · exact Nat.lt_succ_of_lt (h.fresh name node hnode)
  regular other node hother hnode := by
    rw [Disk.withNew_names] at hnode
    rw [Disk.withNew_object]
    split
    · rfl
    · next hne =>
      split at hnode
      · cases hnode
        exact absurd rfl hne
      · exact h.regular other node hother hnode
  unverified := by
    rw [Disk.withNew_names, if_neg fun heq => hstate (Name.entry.inj heq).symm]
    exact h.unverified
  artifact other hother := by
    rw [Disk.withNew_names, if_neg (artifact_ne hnew hother)]
    exact h.artifact other hother
  target := by
    rw [file_withNew_ne (target_ne entry) h.fresh, Disk.withNew_names, if_neg (target_ne entry)]
    exact h.target
  stage := by
    rw [Disk.withNew_names, if_neg (fun h => nomatch h)]
    exact h.stage
  foreign := h.foreign
  place := h.place

/-- Writing a record that only its entry names. -/
theorem Sound.write (h : Sound save d₀ d) {entry : Entry} {node : Node}
    (honly : ∀ name, d.names name = some node → name = .entry entry) (bytes : Bytes) :
    Sound save d₀ (d.setBytes node bytes) where
  fresh := h.fresh
  regular other found hother hfound := by
    rw [Disk.setBytes_object]
    split
    · next heq => subst heq; exact h.regular other found hother hfound
    · exact h.regular other found hother hfound
  unverified := h.unverified
  artifact := h.artifact
  target := by
    rw [file_write_ne honly (target_ne entry)]
    exact h.target
  stage := h.stage
  foreign := h.foreign
  place := h.place

theorem Before.withAuthority (h : Before save d₀ d) :
    Before save d₀ (d.withNew (.entry .authority)) where
  toSound := h.toSound.withNew (by decide) (by decide)
  folder := h.folder
  manifest := (file_withNew_ne (entry_ne (by decide)) h.fresh).trans h.manifest
  precommit := by
    rw [Disk.withNew_names, if_neg (entry_ne (by decide))]
    exact h.precommit
  unmarked := by
    rw [Disk.withNew_names, if_neg (entry_ne (by decide))]
    exact h.unmarked
  authority := by
    refine Or.inr ⟨0, ?_⟩
    rw [Disk.file, Disk.withNew_names, if_pos rfl, Option.map_some, Disk.withNew_object,
      if_pos rfl, List.take_zero]

theorem Before.writeAuthority (h : Before save d₀ d) {node : Node}
    (hnode : d.names (.entry .authority) = some node)
    (honly : ∀ name, d.names name = some node → name = .entry .authority) (k : Nat) :
    Before save d₀ (d.setBytes node (save.bytes.take k)) where
  toSound := h.toSound.write honly _
  folder := h.folder
  manifest := (file_write_ne honly (entry_ne (by decide)) _).trans h.manifest
  precommit := h.precommit
  unmarked := h.unmarked
  authority := by
    have hregular := h.regular .authority node (fun h => nomatch h) hnode
    refine Or.inr ⟨k, ?_⟩
    rw [Disk.file, Disk.setBytes_names, hnode, Option.map_some, Disk.setBytes_object, if_pos rfl,
      hregular]

/-- The announcement. -/
theorem Before.mark (h : Before save d₀ d) (hbounded : save.bytes.length ≤ MANIFEST_LIMIT)
    (hauthority : d.file (.entry .authority) = some ⟨.regular, save.bytes⟩) :
    Pending save d₀ (d.withNew (.entry (.state .cleanupPending))) where
  toSound := h.toSound.withNew (by decide) (by decide)
  folder := h.folder
  bounded := hbounded
  authority := (file_withNew_ne (entry_ne (by decide)) h.fresh).trans hauthority
  manifest := Or.inr ((file_withNew_ne (entry_ne (by decide)) h.fresh).trans h.manifest)
  marked := by
    refine Or.inl ?_
    rw [Disk.withNew_names, if_pos rfl]
    exact Option.some_ne_none _

/-- Announcing again. -/
theorem Pending.mark (h : Pending save d₀ d) :
    Pending save d₀ (d.withNew (.entry (.state .cleanupPending))) where
  toSound := h.toSound.withNew (by decide) (by decide)
  folder := h.folder
  bounded := h.bounded
  authority := (file_withNew_ne (entry_ne (by decide)) h.fresh).trans h.authority
  manifest := by
    rw [file_withNew_ne (entry_ne (by decide)) h.fresh, Disk.withNew_names,
      if_neg (entry_ne (by decide))]
    exact h.manifest
  marked := by
    refine Or.inl ?_
    rw [Disk.withNew_names, if_pos rfl]
    exact Option.some_ne_none _

theorem Pending.writeMark (h : Pending save d₀ d) {node : Node}
    (honly : ∀ name, d.names name = some node → name = .entry (.state .cleanupPending))
    (bytes : Bytes) : Pending save d₀ (d.setBytes node bytes) where
  toSound := h.toSound.write honly _
  folder := h.folder
  bounded := h.bounded
  authority := (file_write_ne honly (entry_ne (by decide)) _).trans h.authority
  manifest := by
    rw [file_write_ne honly (entry_ne (by decide))]
    exact h.manifest
  marked := h.marked

/-- A record that was just created, and that only its entry names. -/
structure Created (save : Save) (d₀ : Disk) (entry : Entry) (node : Node) (s s' : System) :
    Prop where
  aside : Aside save d₀ s s'
  was : s.disk.names (.entry entry) = none
  name : s'.disk.names (.entry entry) = some node
  empty : (s'.disk.object node).bytes = []
  only : ∀ name, s'.disk.names name = some node → name = .entry entry

/-- `open_at` with `CREATE`. -/
theorem create_meets {entry : Entry} {announced : Bool} (h : Kept save d₀ s)
    (hnew : entry ∉ artifactEntries) (hnot : ¬Done save d₀ s.disk)
    (hann : (s.announced || decide (entry = .state .cleanupPending)) = announced)
    (hstage : ∀ d, Same s.disk d → d.folder = s.disk.folder → d.names (.entry entry) = none →
      Stage save d₀ (d.withNew (.entry entry)) announced) :
    Keeps save d₀ busy faults (use (.create (.entry entry))).run
      (fun r s' => (∀ e, r = .error e → Still save d₀ busy s s' ∧
          (e = .alreadyExists → s.disk.names (.entry entry) ≠ none)) ∧
        ∀ node, r = .ok node → Created save d₀ entry node s s' ∧ s'.announced = announced) s := by
  refine Meets.ask h ?_
  rintro answer _ ⟨s₁, d', hothers, hperforms, rfl⟩
  have h₁ := Still.of_others h hothers
  have hstill := h.still_of_content hothers (.refl s₁.disk) rfl rfl
  rcases hperforms with hdoes | ⟨hfaults, -, e, hsystem, rfl, rfl | ⟨node, bytes, k, hop, -⟩⟩
  · simp only [Disk.does] at hdoes
    split at hdoes
    · cases hdoes
      exact ⟨hstill.kept, fun e he => ⟨hstill, fun hexists => by cases he; cases hexists⟩,
        fun _ h => (by cases h)⟩
    · split at hdoes
      · next hsome =>
        cases hdoes
        refine ⟨hstill.kept, fun e he => ⟨hstill, fun _ => ?_⟩, fun _ h => (by cases h)⟩
        rw [← h₁.same.names]
        exact Option.isSome_iff_ne_none.mp hsome
      · next hnone =>
        cases hdoes
        have hnone : s₁.disk.names (.entry entry) = none := by simpa using hnone
        have hsound := h₁.kept.stage.sound
        have hnext := hstage s₁.disk h₁.same (h₁.folder hnot) hnone
        have hnow : (s₁.after (s₁.disk.withNew (.entry entry))).announced = announced := by
          rw [← hann, ← h₁.announced]
          show (s₁.announced || _) = _
          cases hs : s₁.announced with
          | true => rw [Bool.true_or, Bool.true_or]
          | false =>
            rw [Bool.false_or, Bool.false_or, Disk.withNew_names]
            by_cases heq : entry = .state .cleanupPending
            · rw [decide_eq_true heq, if_pos (heq ▸ rfl), Option.isSome_some]
            · rw [decide_eq_false heq, if_neg (entry_ne (Ne.symm heq)), Bool.eq_false_iff]
              intro hrecord
              rw [h₁.kept.stage.announced_of hrecord] at hs
              cases hs
        have hdone : ¬Done save d₀ s₁.disk := fun hdone => hnot (hdone.same h₁.same.symm)
        have hkept : Kept save d₀ (s₁.after (s₁.disk.withNew (.entry entry))) :=
          h₁.kept.changed (hnow ▸ hnext)
            (fun honly => absurd honly (h₁.kept.stage.not_only hdone)) rfl
        refine ⟨hkept, fun _ h => (by cases h), fun node hnode => ?_⟩
        cases hnode
        refine ⟨⟨⟨hkept, fun ha => ?_, fun other hother => ?_⟩, h₁.same.names ▸ hnone, ?_, ?_,
          fun name hname => ?_⟩, hnow⟩
        · rw [hnow, ← hann, ha, Bool.true_or]
        · show (s₁.disk.withNew (.entry entry)).names (.entry other) = _
          rw [Disk.withNew_names, if_neg (artifact_ne hnew hother), h₁.same.names]
        · show (s₁.disk.withNew (.entry entry)).names (.entry entry) = _
          rw [Disk.withNew_names, if_pos rfl]
        · show ((s₁.disk.withNew (.entry entry)).object s₁.disk.fresh).bytes = _
          rw [Disk.withNew_object, if_pos rfl]
        · have hname : (s₁.disk.withNew (.entry entry)).names name = some s₁.disk.fresh := hname
          rw [Disk.withNew_names] at hname
          split at hname
          · next heq => exact heq
          · exact absurd (hsound.fresh name _ hname) (Nat.lt_irrefl _)
  · refine ⟨hstill.kept, fun e' he => ⟨hstill, fun hexists => ?_⟩, fun _ h => (by cases h)⟩
    cases he
    cases hexists
    cases hsystem
  · cases hop

/-- Writing a record that was just created. -/
theorem write_meets {entry : Entry} {node : Node} {bytes : Bytes} {s₀ : System}
    (h : Created save d₀ entry node s₀ s) (hnot : ¬Done save d₀ s.disk)
    (hstage : ∀ d k, Same s.disk d → d.folder = s.disk.folder →
      Stage save d₀ (d.setBytes node (bytes.take k)) s.announced) :
    Keeps save d₀ busy faults (use (.write node bytes)).run
      (fun _ s' => Aside save d₀ s s' ∧ s'.announced = s.announced) s := by
  have hkept := h.aside.kept
  refine Meets.ask hkept ?_
  rintro answer _ ⟨s₁, d', hothers, hperforms, rfl⟩
  have h₁ := Still.of_others hkept hothers
  have hstill := hkept.still_of_content hothers (.refl s₁.disk) rfl rfl
  have hempty : (s₁.disk.object node).bytes = [] := h₁.same.object ▸ h.empty
  have hdone : ¬Done save d₀ s₁.disk := fun hdone => hnot (hdone.same h₁.same.symm)
  have hwritten (k : Nat) :
      Aside save d₀ s (s₁.after (s₁.disk.setBytes node (bytes.take k))) ∧
        (s₁.after (s₁.disk.setBytes node (bytes.take k))).announced = s.announced := by
    have hnow : (s₁.after (s₁.disk.setBytes node (bytes.take k))).announced = s.announced := by
      show (s₁.announced || (s₁.disk.names (.entry (.state .cleanupPending))).isSome) = _
      rw [← h₁.announced]
      cases hrecord : (s₁.disk.names (.entry (.state .cleanupPending))).isSome with
      | false => exact Bool.or_false _
      | true => rw [h₁.kept.stage.announced_of hrecord, Bool.true_or]
    have hkept' : Kept save d₀ (s₁.after (s₁.disk.setBytes node (bytes.take k))) :=
      h₁.kept.changed (hnow ▸ hstage s₁.disk k h₁.same (h₁.folder hnot))
        (fun honly => absurd honly (h₁.kept.stage.not_only hdone)) rfl
    exact ⟨⟨hkept', fun ha => hnow.trans ha, fun other _ => congrFun h₁.same.names _⟩, hnow⟩
  have hover (k : Nat) : Disk.overwritten (s₁.disk.object node).bytes (bytes.take k) =
      bytes.take k := by
    rw [hempty, Disk.overwritten, List.drop_nil, List.append_nil]
  rcases hperforms with hdoes | ⟨hfaults, -, e, hsystem, rfl, rfl | ⟨node', bytes', k, hop, rfl⟩⟩
  · simp only [Disk.does, Prod.mk.injEq] at hdoes
    obtain ⟨-, rfl⟩ := hdoes
    have hall := hwritten bytes.length
    have heq := hover bytes.length
    rw [List.take_length] at hall heq
    rw [heq]
    exact ⟨hall.1.kept, hall⟩
  · exact ⟨hstill.kept, hstill.aside, hstill.announced⟩
  · cases hop
    rw [hover k]
    exact ⟨(hwritten k).1.kept, hwritten k⟩

theorem Disk.reads_ok {name : Name} {limit : Nat} {bytes : Bytes}
    (h : d.reads name limit = .ok bytes) :
    d.file name = some ⟨.regular, bytes⟩ ∧ bytes.length ≤ limit := by
  rw [Disk.reads] at h
  split at h
  · cases h
  · next node hnode =>
    obtain ⟨hname, hkind⟩ := Disk.opens_ok hnode
    split at h
    · cases h
    · next hlimit =>
      cases h
      refine ⟨?_, Nat.le_of_not_lt hlimit⟩
      rw [Disk.file, hname, Option.map_some, ← hkind]

/-- The manifest that is read is the one that was written. -/
theorem Stage.manifest_of_reads {announced : Bool} {limit : Nat} {bytes : Bytes}
    (h : Stage save d₀ d announced) (hreads : d.reads (.entry .manifest) limit = .ok bytes) :
    bytes = save.bytes ∧ ¬Done save d₀ d := by
  obtain ⟨hfile, -⟩ := Disk.reads_ok hreads
  obtain ⟨node, hnode, -⟩ := names_of_file hfile
  have hnot : ¬Done save d₀ d := fun hdone => by
    rw [hdone.gone .manifest fun h => nomatch h] at hnode
    cases hnode
  refine ⟨?_, hnot⟩
  have hsame : d.file (.entry .manifest) = some ⟨.regular, save.bytes⟩ := by
    cases h with
    | before h => exact h.manifest
    | pending h =>
      rcases h.manifest with hnone | hfile
      · rw [hnone] at hnode
        cases hnode
      · exact hfile
    | done h => exact absurd h hnot
  rw [hsame] at hfile
  cases hfile
  rfl

/-- An authority that parses is complete. -/
theorem Stage.authority_of_reads {announced : Bool} {manifest : Manifest}
    (h : Stage save d₀ d announced)
    (hreads : d.readsManifest .authority save.generation = .ok manifest) :
    d.file (.entry .authority) = some ⟨.regular, save.bytes⟩ ∧
      save.bytes.length ≤ MANIFEST_LIMIT ∧ manifest = save.manifest ∧ ¬Done save d₀ d := by
  rw [Disk.readsManifest] at hreads
  split at hreads
  · cases hreads
  · next bytes hbytes =>
    obtain ⟨hfile, hlimit⟩ := Disk.reads_ok hbytes
    obtain ⟨node, hnode, -⟩ := names_of_file hfile
    have hnot : ¬Done save d₀ d := fun hdone => by
      rw [hdone.gone .authority fun h => (by cases h)] at hnode
      cases hnode
    have hall : bytes = save.bytes := by
      cases h with
      | before h =>
        rcases h.authority with hnone | ⟨k, hpart⟩
        · rw [hnone] at hnode
          cases hnode
        · rw [hpart] at hfile
          cases hfile
          rw [parseManifest_take save.encoded] at hreads
          split at hreads
          · next hlong => exact List.take_of_length_le hlong
          · cases hreads
      | pending h =>
        rw [h.authority] at hfile
        cases hfile
        rfl
      | done h => exact absurd h hnot
    subst hall
    rw [parseManifest_manifestBytes save.encoded] at hreads
    cases hreads
    exact ⟨hfile, hlimit, rfl, hnot⟩

/-- Writing the authority, once. -/
theorem writeAuthority_meets (h : Kept save d₀ s) (hnot : ¬Done save d₀ s.disk) :
    Keeps save d₀ busy faults
      (writeRecord .authority save.bytes).run (fun _ s' => Aside save d₀ s s') s := by
  refine Meets.andThen ((create_meets h (by decide) hnot (Bool.or_false _) ?_).weaken ?_)
  · intro d hsame hfolder hnone
    have hstage := h.stage.same hsame fun _ => hfolder
    generalize s.announced = announced at hstage
    cases hstage with
    | before h => exact .before h.withAuthority
    | pending h => exact absurd hnone h.authority_ne
    | done h => exact absurd (h.same hsame.symm) hnot
  · rintro (e | node) s₁ - ⟨herror, hok⟩
    · exact (herror e rfl).1.aside
    · obtain ⟨hcreated, hannounced⟩ := hok node rfl
      have hbefore : s₁.announced = false := by
        rw [hannounced]
        have hstage := h.stage
        generalize s.announced = announced at hstage
        cases hstage with
        | before h => rfl
        | pending h => exact absurd hcreated.was h.authority_ne
        | done h => exact absurd h hnot
      have hbefore' : Before save d₀ s₁.disk := by
        have hstage := hcreated.aside.kept.stage
        rw [hbefore] at hstage
        cases hstage with
        | before h => exact h
      refine Meets.andThen ((write_meets hcreated (fun hdone => ?_) fun d k hsame hfolder => ?_).weaken
        ?_)
      · exact hbefore'.precommit (hdone.gone (.state .precommit) fun h => nomatch h)
      · rw [hbefore]
        refine .before ((hbefore'.same hsame hfolder).writeAuthority ?_ ?_ k)
        · rw [hsame.names]
          exact hcreated.name
        · rw [hsame.names]
          exact hcreated.only
      · rintro (e | _) s₂ - ⟨haside, -⟩
        · exact hcreated.aside.trans haside
        · exact (Meets.static (show Op.static .sync from trivial) haside.kept).weaken
            fun _ s₃ _ h₃ => (hcreated.aside.trans haside).trans h₃.1.aside

/-- `publish_cleanup_authority` keeps the token's artifacts. -/
theorem publish_meets {token : Cleanup} (h : Kept save d₀ s)
    (hgeneration : token.generation = save.generation) :
    Keeps save d₀ busy faults
      (publishCleanupAuthority token).run
      (fun r s' => Aside save d₀ s s' ∧ ∀ next, r = .ok next →
        next.generation = token.generation ∧ next.artifacts = token.artifacts) s := by
  unfold publishCleanupAuthority
  split
  · exact .pure h ⟨Aside.refl h, fun _ hnext => by cases hnext; exact ⟨rfl, rfl⟩⟩
  · refine Meets.answered (readRegular_meets _ _ h) (fun bytes s₁ hbytes h₁ => ?_)
      fun e s₁ _ h₁ => ⟨h₁.aside, fun _ hnext => nomatch hnext⟩
    obtain ⟨rfl, hnot⟩ := h.stage.manifest_of_reads hbytes
    have hparse : parseManifest save.bytes token.generation = .ok save.manifest :=
      hgeneration ▸ parseManifest_manifestBytes save.encoded
    rw [hparse]
    have hnot₁ : ¬Done save d₀ s₁.disk := fun hdone => hnot (hdone.same h₁.same.symm)
    refine Meets.andThen ⟨h₁.kept, ?_⟩
    refine Meets.andThen (Meets.lift ((writeAuthority_meets h₁.kept hnot₁).weaken ?_))
    rintro r s₂ - haside
    have hend : Aside save d₀ s s₂ := h₁.aside.trans haside
    have hsync {s₃ : System} (h₃ : Aside save d₀ s s₃) :
        Keeps save d₀ busy faults
          (use .sync >>= fun _ => (pure { token with authority := true } : Task Cleanup)).run
          (fun r s' => Aside save d₀ s s' ∧ ∀ next, r = .ok next →
            next.generation = token.generation ∧ next.artifacts = token.artifacts) s₃ := by
      refine Meets.answered (Meets.static trivial h₃.kept) (fun _ s₄ _ h₄ => ?_)
        fun e s₄ _ h₄ => ⟨h₃.trans h₄.aside, fun _ hnext => nomatch hnext⟩
      exact .pure h₄.kept ⟨h₃.trans h₄.aside, fun _ hnext => by cases hnext; exact ⟨rfl, rfl⟩⟩
    show Meets _ _ _ _ s₂
    split
    · exact hsync hend
    · refine Meets.answered (readRegular_meets _ _ hend.kept) (fun bytes s₃ _ h₃ => ?_)
        fun e s₃ _ h₃ => ⟨hend.trans h₃.aside, fun _ hnext => nomatch hnext⟩
      refine Meets.answered (meets_refuse h₃.kept) (fun _ s₄ _ h₄ => ?_)
        fun e s₄ _ h₄ => ⟨hend.trans (h₃.aside.trans h₄.aside), fun _ hnext => nomatch hnext⟩
      exact hsync (hend.trans (h₃.aside.trans h₄.aside))
    · exact .pure hend.kept ⟨hend, fun _ hnext => nomatch hnext⟩

theorem confirmRecord_meets (state : CommitState) (h : Kept save d₀ s) :
    Keeps save d₀ busy faults (confirmRecord state).run
      (fun _ s' => Still save d₀ busy s s') s := by
  refine Meets.answered (Meets.static trivial h) (fun node s₁ _ h₁ => ?_) fun e s₁ _ h₁ => h₁
  refine Meets.andThen (Meets.answered (Meets.static trivial h₁.kept) (fun bytes s₂ _ h₂ => ?_)
    fun e s₂ _ h₂ => h₁.trans h₂)
  refine Meets.answered (meets_refuse h₂.kept) (fun _ s₃ _ h₃ => ?_)
    fun e s₃ _ h₃ => h₁.trans (h₂.trans h₃)
  refine .pure h₃.kept ?_
  exact (meets_refuse h₃.kept).weaken fun _ s₄ _ h₄ => h₁.trans (h₂.trans (h₃.trans h₄.1))

/-- `publish_commit_state` of the cleanup, under a complete authority. -/
theorem announce_meets (h : Kept save d₀ s) (hnot : ¬Done save d₀ s.disk)
    (hbounded : save.bytes.length ≤ MANIFEST_LIMIT)
    (hauthority : s.disk.file (.entry .authority) = some ⟨.regular, save.bytes⟩) :
    Keeps save d₀ busy faults
      (publishCommitState .cleanupPending).run
      (fun r s' => Aside save d₀ s s' ∧ (r = .ok () → s'.announced = true)) s := by
  refine Meets.andThen ⟨h, ?_⟩
  have hcreate := @create_meets save d₀ s busy faults (.state .cleanupPending) true h (by decide)
    hnot (Bool.or_true _) (fun d hsame hfolder hnone => by
      have hstage := h.stage.same hsame fun _ => hfolder
      generalize s.announced = announced at hstage
      cases hstage with
      | before h => exact .pending (h.mark hbounded ((hsame.file _).trans hauthority))
      | pending h => exact .pending h.mark
      | done h => exact absurd (h.same hsame.symm) hnot)
  refine Meets.andThen (Meets.lift (hcreate.weaken ?_))
  rintro r s₁ - ⟨herror, hok⟩
  show Meets _ _ _ _ s₁
  split
  · next node =>
    obtain ⟨hcreated, hannounced⟩ := hok node rfl
    have hpending : Pending save d₀ s₁.disk := by
      have hstage := hcreated.aside.kept.stage
      rw [hannounced] at hstage
      cases hstage with
      | pending h => exact h
      | done h =>
        have hname := hcreated.name
        rw [h.gone (.state .cleanupPending) fun h => nomatch h] at hname
        cases hname
    refine Meets.andThen ((write_meets hcreated (fun hdone => ?_) fun d k hsame hfolder => ?_).weaken
      ?_)
    · exact hpending.authority_ne (hdone.gone .authority fun h => nomatch h)
    · rw [hannounced]
      refine .pending ((hpending.same hsame hfolder).writeMark ?_ _)
      rw [hsame.names]
      exact hcreated.only
    · rintro (e | _) s₂ - ⟨haside, hsame⟩
      · exact ⟨hcreated.aside.trans haside, fun hr => nomatch hr⟩
      · exact (Meets.static (show Op.static .sync from trivial) haside.kept).weaken
          fun _ s₃ _ h₃ => ⟨(hcreated.aside.trans haside).trans h₃.1.aside, fun _ =>
            h₃.1.announced.trans (hsame.trans hannounced)⟩
  · obtain ⟨hstill, hexists⟩ := herror _ rfl
    have hannounced : s₁.announced = true := by
      rw [hstill.announced]
      exact h.stage.announced_of (Option.isSome_iff_ne_none.mpr (hexists rfl))
    exact (confirmRecord_meets _ hstill.kept).weaken fun _ s₂ _ h₂ =>
      ⟨(hstill.trans h₂).aside, fun _ => h₂.announced.trans hannounced⟩
  · next e _ =>
    obtain ⟨hstill, -⟩ := herror e rfl
    exact .pure hstill.kept ⟨hstill.aside, fun hr => nomatch hr⟩

/-- `mark_state` announces the cleanup, or leaves it unannounced. -/
theorem mark_meets {generation : Generation} (hgeneration : generation = save.generation)
    (h : Kept save d₀ s) :
    Keeps save d₀ busy faults
      (markState generation .cleanupPending).run
      (fun r s' => Aside save d₀ s s' ∧ (r = .ok () → s'.announced = true)) s := by
  rw [hgeneration]
  refine Meets.andThen ((look_meets (show Op.looks .openFolder from trivial) h).weaken ?_)
  rintro (e | _) s₁ - ⟨h₁, -⟩
  · exact ⟨h₁.aside, fun hr => nomatch hr⟩
  · refine Meets.answered (readManifest_meets _ _ h₁.kept) (fun manifest s₂ hreads h₂ => ?_)
      fun e s₂ _ h₂ => ⟨(h₁.trans h₂).aside, fun hr => nomatch hr⟩
    obtain ⟨hfile, hbounded, -, hnot⟩ := h₁.kept.stage.authority_of_reads hreads
    refine (announce_meets h₂.kept (fun hdone => hnot (hdone.same h₂.same.symm)) hbounded
      ((h₂.same.file _).trans hfile)).weaken ?_
    rintro r s₃ - ⟨haside, hannounced⟩
    exact ⟨(h₁.trans h₂).aside.trans haside, hannounced⟩

end BareLine.SaveTransaction
