import BareLine.SaveTransaction.System

/-!
# The states of an announced cleanup

- §1: the states of the folder.
- §2: what an operation does to them.
- §3: one operation among those of the reclaimers.
-/

namespace BareLine.SaveTransaction

open Lib

/-! ## §1 The states of the folder -/

/-- A committed save: its manifest, and where it is kept. -/
structure Save where
  generation : Generation
  manifest : Manifest
  bytes : Bytes
  place : Place
  encoded : manifestBytes generation manifest = .ok bytes
  absolute : isAbsolute manifest.target = true
  parent : parentOf manifest.target = some place.folder
  home : place.home = place.folder ∨ place.store = some place.home

/-- The artifacts and the records: a save that replaced nothing displaced nothing. -/
def Save.records (save : Save) (entry : Entry) : Prop :=
  entry = .displaced → save.manifest.mode = .replace

instance (save : Save) (entry : Entry) : Decidable (save.records entry) := by
  unfold Save.records
  infer_instance

def artifactEntries : List Entry := [.editor, .displaced]

/-- What cleanup leaves as it was after the commit, `d₀`. -/
structure Sound (save : Save) (d₀ d : Disk) : Prop where
  fresh : ∀ name node, d.names name = some node → node < d.fresh
  regular : ∀ entry node, save.records entry → d.names (.entry entry) = some node →
    (d.object node).kind = .regular
  unverified : d.names (.entry (.state .unverified)) = none
  artifact : ∀ entry ∈ artifactEntries, d.names (.entry entry) = d₀.names (.entry entry) ∨
    d.names (.entry entry) = none ∧ save.records entry
  target : d.names .target = d₀.names .target ∧ d.file .target = d₀.file .target
  stage : d.names .stage = d₀.names .stage
  foreign : d.foreign = d₀.foreign
  place : d.place = d₀.place

/-- Cleanup is not announced. -/
structure Before (save : Save) (d₀ d : Disk) : Prop extends Sound save d₀ d where
  folder : d.folder = true
  manifest : d.file (.entry .manifest) = some ⟨.regular, save.bytes⟩
  precommit : d.names (.entry (.state .precommit)) ≠ none
  unmarked : d.names (.entry (.state .cleanupPending)) = none
  authority : d.names (.entry .authority) = none ∨
    ∃ k, d.file (.entry .authority) = some ⟨.regular, save.bytes.take k⟩

/-- Cleanup is announced, and not at its end. -/
structure Pending (save : Save) (d₀ d : Disk) : Prop extends Sound save d₀ d where
  folder : d.folder = true
  bounded : save.bytes.length ≤ MANIFEST_LIMIT
  authority : d.file (.entry .authority) = some ⟨.regular, save.bytes⟩
  manifest : d.names (.entry .manifest) = none ∨
    d.file (.entry .manifest) = some ⟨.regular, save.bytes⟩
  marked : d.names (.entry (.state .cleanupPending)) ≠ none ∨
    ∀ entry, save.records entry → entry ≠ .authority → d.names (.entry entry) = none

/-- No recorded entry is left. -/
structure Done (save : Save) (d₀ d : Disk) : Prop extends Sound save d₀ d where
  gone : ∀ entry, save.records entry → d.names (.entry entry) = none

inductive Stage (save : Save) (d₀ d : Disk) : Bool → Prop
  | before (h : Before save d₀ d) : Stage save d₀ d false
  | pending (h : Pending save d₀ d) : Stage save d₀ d true
  | done (h : Done save d₀ d) : Stage save d₀ d true

theorem Stage.sound {save : Save} {d₀ d : Disk} {announced : Bool}
    (h : Stage save d₀ d announced) : Sound save d₀ d := by
  cases h with
  | before h => exact h.toSound
  | pending h => exact h.toSound
  | done h => exact h.toSound

/-- The folder and those who reclaim, in one of these states. -/
structure Kept (save : Save) (d₀ : Disk) (s : System) : Prop where
  watched : AllWatched s
  stage : Stage save d₀ s.disk s.announced

/-- A procedure keeps the folder in these states, and what it is used for. -/
abbrev Keeps {α : Type} (save : Save) (d₀ : Disk) (busy faults : Bool)
    (procedure : Program Op Op.Answer α) (post : α → System → Prop) (s : System) : Prop :=
  Meets (machine save.generation busy faults) (Kept save d₀) procedure post s

variable {save : Save} {d₀ d d' : Disk}

theorem not_only_of_name {entry : Entry} (hentry : entry ∉ reclaimable)
    (h : d.names (.entry entry) ≠ none) : ¬OnlyReclaimable d :=
  fun honly => hentry (honly.1 entry h)

theorem Pending.authority_ne (h : Pending save d₀ d) : d.names (.entry .authority) ≠ none := by
  obtain ⟨node, hnode, -⟩ := names_of_file h.authority
  rw [hnode]
  exact Option.some_ne_none node

/-- Nothing goes by a reclaimer before the end. -/
theorem Stage.not_only {announced : Bool} (h : Stage save d₀ d announced)
    (hdone : ¬Done save d₀ d) : ¬OnlyReclaimable d := by
  cases h with
  | before h => exact not_only_of_name (by decide) h.precommit
  | pending h => exact not_only_of_name (by decide) h.authority_ne
  | done h => exact absurd h hdone

/-! ## §2 What an operation does to them -/

/-- Two disks with the same names and objects. -/
structure Same (d d' : Disk) : Prop where
  names : d'.names = d.names
  object : d'.object = d.object
  fresh : d'.fresh = d.fresh
  foreign : d'.foreign = d.foreign
  place : d'.place = d.place

theorem Same.refl (d : Disk) : Same d d := ⟨rfl, rfl, rfl, rfl, rfl⟩

theorem Same.file (h : Same d d') (name : Name) : d'.file name = d.file name := by
  rw [Disk.file, Disk.file, h.names, h.object]

theorem Sound.same (h : Sound save d₀ d) (hd : Same d d') : Sound save d₀ d' where
  fresh name node hnode := by
    rw [hd.fresh]
    exact h.fresh name node (hd.names ▸ hnode)
  regular entry node hentry hnode := by
    rw [hd.object]
    exact h.regular entry node hentry (hd.names ▸ hnode)
  unverified := by rw [hd.names]; exact h.unverified
  artifact := by rw [hd.names]; exact h.artifact
  target := by rw [hd.file, hd.names]; exact h.target
  stage := by rw [hd.names]; exact h.stage
  foreign := hd.foreign.trans h.foreign
  place := hd.place.trans h.place

theorem Before.same (h : Before save d₀ d) (hd : Same d d') (hfolder : d'.folder = d.folder) :
    Before save d₀ d' where
  toSound := h.toSound.same hd
  folder := hfolder.trans h.folder
  manifest := (hd.file _).trans h.manifest
  precommit := by rw [hd.names]; exact h.precommit
  unmarked := by rw [hd.names]; exact h.unmarked
  authority := by rw [hd.file, hd.names]; exact h.authority

theorem Pending.same (h : Pending save d₀ d) (hd : Same d d') (hfolder : d'.folder = d.folder) :
    Pending save d₀ d' where
  toSound := h.toSound.same hd
  folder := hfolder.trans h.folder
  bounded := h.bounded
  authority := (hd.file _).trans h.authority
  manifest := by rw [hd.file, hd.names]; exact h.manifest
  marked := by rw [hd.names]; exact h.marked

theorem Done.same (h : Done save d₀ d) (hd : Same d d') : Done save d₀ d' where
  toSound := h.toSound.same hd
  gone := by rw [hd.names]; exact h.gone

/-- The folder matters until the end. -/
theorem Stage.same {announced : Bool} (h : Stage save d₀ d announced) (hd : Same d d')
    (hfolder : ¬Done save d₀ d → d'.folder = d.folder) : Stage save d₀ d' announced := by
  by_cases hdone : Done save d₀ d
  · cases h with
    | before h => exact absurd (hdone.gone (.state .precommit) (fun h => nomatch h)) h.precommit
    | pending h => exact .done (hdone.same hd)
    | done h => exact .done (h.same hd)
  · cases h with
    | before h => exact .before (h.same hd (hfolder hdone))
    | pending h => exact .pending (h.same hd (hfolder hdone))
    | done h => exact absurd h hdone

theorem Same.of_content (h : d'.content = d.content) : Same d d' where
  names := Disk.names_of_content h
  object := show d'.content.object = d.content.object from congrArg Disk.object h
  fresh := show d'.content.fresh = d.content.fresh from congrArg Disk.fresh h
  foreign := Disk.foreign_of_content h
  place := show d'.content.place = d.content.place from congrArg Disk.place h

theorem folder_of_content (h : d'.content = d.content) : d'.folder = d.folder :=
  show d'.content.folder = d.content.folder from congrArg Disk.folder h

/-- Without what may go, nothing goes. -/
theorem Same.of_shrinks (h : Shrinks d d')
    (hgone : ∀ entry ∈ reclaimable, d.names (.entry entry) = none) : Same d d' where
  names := by
    funext name
    rcases h.names name with hsame | ⟨hnone, entry, hentry, rfl⟩
    · exact hsame
    · rw [hnone, hgone entry hentry]
  object := h.object
  fresh := h.fresh
  foreign := h.foreign
  place := h.place

/-- A reclaimer changes nothing of the files. -/
theorem Stage.reclaimed {announced : Bool} (h : Stage save d₀ d announced)
    (hd : ReclaimEffect d d') :
    Same d d' ∧ (¬Done save d₀ d → d'.folder = d.folder) := by
  cases hd with
  | kept hd => exact ⟨.of_content hd, fun _ => folder_of_content hd⟩
  | shrunk honly hd =>
    have hdone : Done save d₀ d := by
      by_contra hdone
      exact h.not_only hdone honly
    refine ⟨.of_shrinks hd fun entry hentry => hdone.gone entry ?_, fun hnot => absurd hdone hnot⟩
    rintro rfl
    exact absurd hentry (by decide)

/-- What other processes do keeps the files, and the folder until the end. -/
theorem Kept.others {busy : Bool} {s s' : System} (h : Kept save d₀ s)
    (hothers : Others save.generation busy s s') :
    Kept save d₀ s' ∧ s'.announced = s.announced ∧ Same s.disk s'.disk ∧
      (¬Done save d₀ s.disk → s'.disk.folder = s.disk.folder) := by
  have hrefl : Same s.disk s.disk := ⟨rfl, rfl, rfl, rfl, rfl⟩
  rw [Others] at hothers
  split at hothers
  · induction hothers with
    | refl => exact ⟨h, rfl, hrefl, fun _ => rfl⟩
    | @tail s₁ s₂ hmany hstep ih =>
      obtain ⟨hkept, hannounced, hsame, hfolder⟩ := ih
      obtain ⟨hwatched, hannounced', heffect⟩ := hstep.effect hkept.watched
      obtain ⟨hsame', hfolder'⟩ := hkept.stage.reclaimed heffect
      have hdone : ¬Done save d₀ s.disk → ¬Done save d₀ s₁.disk := fun hnot hdone =>
        hnot (hdone.same ⟨hsame.names.symm, hsame.object.symm, hsame.fresh.symm,
          hsame.foreign.symm, hsame.place.symm⟩)
      refine ⟨⟨hwatched, ?_⟩, hannounced'.trans hannounced, ?_, fun hnot =>
        (hfolder' (hdone hnot)).trans (hfolder hnot)⟩
      · rw [hannounced']
        exact hkept.stage.same hsame' hfolder'
      · exact ⟨hsame'.names.trans hsame.names, hsame'.object.trans hsame.object,
          hsame'.fresh.trans hsame.fresh, hsame'.foreign.trans hsame.foreign,
          hsame'.place.trans hsame.place⟩
  · subst hothers
    exact ⟨h, rfl, hrefl, fun _ => rfl⟩

/-! ## §3 One operation among those of the reclaimers -/

/-- From `s` on the files are the same, and without other processes the leases. -/
structure Still (save : Save) (d₀ : Disk) (busy : Bool) (s s' : System) : Prop where
  kept : Kept save d₀ s'
  announced : s'.announced = s.announced
  same : Same s.disk s'.disk
  folder : ¬Done save d₀ s.disk → s'.disk.folder = s.disk.folder
  quiet : busy = false → s'.disk.exclusive = s.disk.exclusive

theorem Same.symm (h : Same d d') : Same d' d :=
  ⟨h.names.symm, h.object.symm, h.fresh.symm, h.foreign.symm, h.place.symm⟩

theorem Same.trans {d'' : Disk} (h : Same d d') (h' : Same d' d'') : Same d d'' :=
  ⟨h'.names.trans h.names, h'.object.trans h.object, h'.fresh.trans h.fresh,
    h'.foreign.trans h.foreign, h'.place.trans h.place⟩

variable {s s' s'' : System} {busy faults : Bool}

theorem Still.refl (h : Kept save d₀ s) : Still save d₀ busy s s :=
  ⟨h, rfl, ⟨rfl, rfl, rfl, rfl, rfl⟩, fun _ => rfl, fun _ => rfl⟩

theorem Still.trans (h : Still save d₀ busy s s') (h' : Still save d₀ busy s' s'') :
    Still save d₀ busy s s'' where
  kept := h'.kept
  announced := h'.announced.trans h.announced
  same := h.same.trans h'.same
  folder hdone := (h'.folder fun hd => hdone (hd.same h.same.symm)).trans (h.folder hdone)
  quiet hbusy := (h'.quiet hbusy).trans (h.quiet hbusy)

theorem Still.of_others (h : Kept save d₀ s)
    (hothers : Others save.generation busy s s') : Still save d₀ busy s s' :=
  have ⟨hkept, hannounced, hsame, hfolder⟩ := h.others hothers
  ⟨hkept, hannounced, hsame, hfolder, fun hbusy => by
    subst hbusy
    rw [show s' = s from hothers]⟩

/-- An announced cleanup has its record, or had it. -/
theorem Stage.announced_of {announced : Bool} (h : Stage save d₀ d announced)
    (hrecord : (d.names (.entry (.state .cleanupPending))).isSome = true) : announced = true := by
  cases h with
  | before h => rw [h.unmarked] at hrecord; exact nomatch hrecord
  | pending h => rfl
  | done h => rfl

/-- A new disk with the same files. -/
theorem Kept.after (h : Kept save d₀ s) (hd : Same s.disk d')
    (hfolder : d'.folder = s.disk.folder) (hlease : d'.exclusive = s.disk.exclusive) :
    Still save d₀ busy s (s.after d') := by
  have hannounced : (s.after d').announced = s.announced := by
    show (s.announced || (d'.names (.entry (.state .cleanupPending))).isSome) = s.announced
    cases hsome : (d'.names (.entry (.state .cleanupPending))).isSome with
    | false => exact Bool.or_false _
    | true => rw [Bool.or_true, h.stage.announced_of (hd.names ▸ hsome)]
  refine ⟨⟨⟨fun i p hp => ?_, fun hholder => ?_⟩, ?_⟩, hannounced, hd, fun _ => hfolder,
    fun _ => hlease⟩
  · refine (h.watched.watched i p hp).mono id fun honly => ?_
    show OnlyReclaimable d'
    rw [OnlyReclaimable, hd.names, hd.foreign]
    exact honly
  · exact hlease.trans (h.watched.exclusive hholder)
  · rw [hannounced]
    exact h.stage.same hd fun _ => hfolder

/-- The value, or an error of the system. -/
def Answered {α : Type} (faults : Bool) (result value : Except Errno α) : Prop :=
  result = value ∨ faults = true ∧ ∃ error : Errno, error.ofSystem ∧ result = .error error

/-- An operation that only looks at the names and the objects. -/
def Op.static : Op → Prop
  | .stat _ | .openAny _ | .kind _ | .read _ | .sync | .checkCancelled => True
  | _ => False

theorem Disk.does_static {op : Op} (hstatic : op.static) (d : Disk) :
    (d.does op).2 = d := by
  cases op <;> first | exact absurd hstatic id | rfl

theorem Disk.does_static_same {op : Op} (hstatic : op.static) (h : Same d d') :
    (d'.does op).1 = (d.does op).1 := by
  cases op <;>
    first
    | exact absurd hstatic id
    | rfl
    | simp only [Disk.does, h.names, h.object]

/-- An operation that leaves the files and the leases. -/
theorem Meets.still {op : Op} (h : Kept save d₀ s)
    (hkeeps : ∀ d d' answer, Performs faults d op answer d' →
      Same d d' ∧ d'.folder = d.folder ∧ d'.exclusive = d.exclusive) :
    Keeps save d₀ busy faults (use op).run
      (fun answer s' => Still save d₀ busy s s' ∧
        ∃ d d', Same s.disk d ∧ Performs faults d op answer d') s := by
  refine Meets.ask h ?_
  rintro answer _ ⟨s₁, d', hothers, hperforms, rfl⟩
  have hstill := Still.of_others h hothers
  have hkeep := hkeeps _ _ _ hperforms
  have hafter := hstill.trans (hstill.kept.after hkeep.1 hkeep.2.1 hkeep.2.2)
  exact ⟨hafter.kept, hafter, _, _, hstill.same, hperforms⟩

theorem Meets.static {op : Op} (hstatic : op.static) (h : Kept save d₀ s) :
    Keeps save d₀ busy faults (use op).run
      (fun answer s' => Still save d₀ busy s s' ∧ Answered faults answer (s.disk.does op).1) s := by
  refine (Meets.still h ?_).weaken ?_
  · rintro d d' answer (hdoes | ⟨-, -, e, -, -, rfl | ⟨node, bytes, k, rfl, -⟩⟩)
    · have hd : d' = d := (congrArg Prod.snd hdoes).trans (Disk.does_static hstatic d)
      subst hd
      exact ⟨⟨rfl, rfl, rfl, rfl, rfl⟩, rfl, rfl⟩
    · exact ⟨⟨rfl, rfl, rfl, rfl, rfl⟩, rfl, rfl⟩
    · exact absurd hstatic id
  · rintro answer s' - ⟨hstill, d, d', hsame, hperforms⟩
    refine ⟨hstill, ?_⟩
    rcases hperforms with hdoes | ⟨hfaults, -, e, hsystem, rfl, -⟩
    · exact Or.inl ((congrArg Prod.fst hdoes).trans (Disk.does_static_same hstatic hsame))
    · exact Or.inr ⟨hfaults, e, hsystem, rfl⟩

/-- After a procedure that answers from the files. -/
theorem Meets.answered {α β : Type} {task : Task α} {value : Except Errno α}
    {f : α → Task β} {post : Except Errno β → System → Prop}
    (h : Keeps save d₀ busy faults task.run
      (fun r s' => Still save d₀ busy s s' ∧ Answered faults r value) s)
    (hok : ∀ a s', value = .ok a → Still save d₀ busy s s' →
      Keeps save d₀ busy faults (f a).run post s')
    (herror : ∀ e s', Answered faults (.error e) value → Still save d₀ busy s s' →
      post (.error e) s') :
    Keeps save d₀ busy faults (task >>= f).run post s := by
  refine Meets.andThen (h.weaken ?_)
  rintro r s' - ⟨hstill, hanswered⟩
  cases r with
  | ok a =>
    rcases hanswered with hvalue | ⟨-, e, -, herr⟩
    · exact hok a s' hvalue.symm hstill
    · cases herr
  | error e => exact herror e s' hanswered hstill

/-- What `open_regular` finds. -/
def Disk.opens (d : Disk) (name : Name) : Except Errno Node :=
  match d.names name with
  | none => .error .notFound
  | some node => if (d.object node).kind = .regular then .ok node else .error .denied

/-- What reading a regular file with a limit gives. -/
def Disk.reads (d : Disk) (name : Name) (limit : Nat) : Except Errno Bytes :=
  match d.opens name with
  | .error e => .error e
  | .ok node =>
    if limit < (d.object node).bytes.length then .error .invalidData
    else .ok (d.object node).bytes

theorem meets_refuse {c : Prop} [Decidable c] {error : Errno} (h : Kept save d₀ s) :
    Keeps save d₀ busy faults (refuseIf c error).run
      (fun r s' => Still save d₀ busy s s' ∧
        Answered faults r (if c then .error error else .ok ())) s := by
  rw [refuseIf]
  split
  · exact .pure h ⟨.refl h, Or.inl rfl⟩
  · exact .pure h ⟨.refl h, Or.inl rfl⟩

theorem openRegular_meets (name : Name) (h : Kept save d₀ s) :
    Keeps save d₀ busy faults (openRegular name).run
      (fun r s' => Still save d₀ busy s s' ∧ Answered faults r (s.disk.opens name)) s := by
  refine Meets.answered (Meets.static trivial h) (fun node s₁ hnode h₁ => ?_)
    fun e s₁ hanswered h₁ => ⟨h₁, ?_⟩
  · have hname : s.disk.names name = some node := by
      simp only [Disk.does] at hnode
      split at hnode
      · next found hfound => cases hnode; exact hfound
      · cases hnode
    refine Meets.answered (Meets.static trivial h₁.kept) (fun kind s₂ hkind h₂ => ?_)
      fun e s₂ hanswered h₂ => ⟨h₁.trans h₂, ?_⟩
    · cases hkind
      refine Meets.answered (meets_refuse h₂.kept) (fun _ s₃ hregular h₃ => ?_)
        fun e s₃ hanswered h₃ => ⟨h₁.trans (h₂.trans h₃), ?_⟩
      · refine .pure h₃.kept ⟨h₁.trans (h₂.trans h₃), Or.inl ?_⟩
        split at hregular
        · cases hregular
        · next hkind =>
          rw [not_not, h₁.same.object] at hkind
          simp only [Disk.opens, hname, if_pos hkind]
      · rcases hanswered with heq | hfault
        · split at heq
          · next hkind =>
            rw [h₁.same.object] at hkind
            refine Or.inl ?_
            simp only [Disk.opens, hname, if_neg hkind]
            cases heq
            rfl
          · cases heq
        · exact Or.inr (by simpa using hfault)
    · rcases hanswered with heq | hfault
      · cases heq
      · exact Or.inr (by simpa using hfault)
  · rcases hanswered with heq | hfault
    · refine Or.inl ?_
      simp only [Disk.does] at heq
      split at heq
      · cases heq
      · next hnone => simp only [Disk.opens, hnone]; cases heq; rfl
    · exact Or.inr (by simpa using hfault)

theorem Disk.opens_ok {name : Name} {node : Node} (h : d.opens name = .ok node) :
    d.names name = some node ∧ (d.object node).kind = .regular := by
  rw [Disk.opens] at h
  split at h
  · cases h
  · next found hfound =>
    split at h
    · next hkind => cases h; exact ⟨hfound, hkind⟩
    · cases h

theorem Answered.error {α β : Type} {e : Errno} {value : Except Errno α}
    (h : Answered faults (.error e) value) {value' : Except Errno β}
    (hvalue : value = .error e → value' = .error e) :
    Answered faults (.error e) value' := by
  rcases h with heq | ⟨hfaults, e', hsystem, heq⟩
  · exact Or.inl (hvalue heq.symm).symm
  · cases heq
    exact Or.inr ⟨hfaults, e, hsystem, rfl⟩

theorem Disk.reads_same (h : Same d d') (name : Name) (limit : Nat) :
    d'.reads name limit = d.reads name limit := by
  simp only [Disk.reads, Disk.opens, h.names, h.object]

theorem Disk.opens_same (h : Same d d') (name : Name) : d'.opens name = d.opens name := by
  simp only [Disk.opens, h.names, h.object]

theorem readRegular_meets (name : Name) (limit : Nat) (h : Kept save d₀ s) :
    Keeps save d₀ busy faults (readRegular name limit).run
      (fun r s' => Still save d₀ busy s s' ∧ Answered faults r (s.disk.reads name limit)) s := by
  refine Meets.answered (openRegular_meets name h) (fun node s₁ hnode h₁ => ?_)
    fun e s₁ hanswered h₁ => ⟨h₁, hanswered.error fun heq => by rw [Disk.reads, heq]⟩
  obtain ⟨-, hkind⟩ := Disk.opens_ok hnode
  have hvalue : (s₁.disk.does (.read node)).1 = .ok (s.disk.object node).bytes := by
    simp only [Disk.does, h₁.same.object, hkind]
    exact if_neg (fun h => (by cases h))
  refine Meets.answered (Meets.static trivial h₁.kept) (fun bytes s₂ hbytes h₂ => ?_)
    fun e s₂ hanswered h₂ => ⟨h₁.trans h₂, hanswered.error fun heq => ?_⟩
  · rw [hvalue] at hbytes
    cases hbytes
    refine Meets.answered (meets_refuse h₂.kept) (fun _ s₃ hshort h₃ => ?_)
      fun e s₃ hanswered h₃ => ⟨h₁.trans (h₂.trans h₃), hanswered.error fun heq => ?_⟩
    · refine .pure h₃.kept ⟨h₁.trans (h₂.trans h₃), Or.inl ?_⟩
      split at hshort
      · cases hshort
      · next hlimit => simp only [Disk.reads, hnode, if_neg hlimit]
    · split at heq
      · next hlimit => cases heq; simp only [Disk.reads, hnode, if_pos hlimit]
      · cases heq
  · rw [hvalue] at heq
    cases heq

/-- What `read_manifest` gives. -/
def Disk.readsManifest (d : Disk) (entry : Entry) (generation : Generation) :
    Except Errno Manifest :=
  match d.reads (.entry entry) MANIFEST_LIMIT with
  | .error e => .error e
  | .ok bytes => parseManifest bytes generation

theorem readManifest_meets (entry : Entry) (generation : Generation) (h : Kept save d₀ s) :
    Keeps save d₀ busy faults (readManifest entry generation).run
      (fun r s' => Still save d₀ busy s s' ∧
        Answered faults r (s.disk.readsManifest entry generation)) s := by
  refine Meets.answered (readRegular_meets _ _ h) (fun bytes s₁ hbytes h₁ => ?_)
    fun e s₁ hanswered h₁ => ⟨h₁, hanswered.error fun heq => by rw [Disk.readsManifest, heq]⟩
  refine .pure h₁.kept ⟨h₁, Or.inl ?_⟩
  rw [Disk.readsManifest, hbytes]

/-- A result that is kept. -/
theorem Meets.result {α β : Type} {task : Task α} {value : Except Errno α}
    {f : Except Errno α → Task β} {post : Except Errno β → System → Prop}
    (h : Keeps save d₀ busy faults task.run
      (fun r s' => Still save d₀ busy s s' ∧ Answered faults r value) s)
    (hnext : ∀ r s', Answered faults r value → Still save d₀ busy s s' →
      Keeps save d₀ busy faults (f r).run post s') :
    Keeps save d₀ busy faults (resultOf task >>= f).run post s :=
  Meets.andThen (Meets.lift (h.weaken fun r s' _ hr => hnext r s' hr.2 hr.1))

/-- After an invalid record no state is found. -/
theorem stateFrom_invalid_meets (states : List CommitState) (h : Kept save d₀ s) :
    Keeps save d₀ busy faults (stateFrom states true).run
      (fun r s' => Still save d₀ busy s s' ∧ r = .ok .unverified) s := by
  induction states generalizing s with
  | nil => exact .pure h ⟨.refl h, rfl⟩
  | cons state states ih =>
    refine Meets.result (readRegular_meets _ _ h) fun r s₁ _ h₁ => ?_
    have hrest := (ih h₁.kept).weaken fun r s₂ _ h₂ => And.intro (h₁.trans h₂.1) h₂.2
    show Meets _ _ _ _ s₁
    split
    · split
      · exact .pure h₁.kept ⟨h₁, rfl⟩
      · exact hrest
    · exact hrest
    · exact hrest

/-- Reading the records changes nothing, and finds a state. -/
theorem stateFrom_meets (states : List CommitState) (h : Kept save d₀ s) :
    Keeps save d₀ busy faults (stateFrom states false).run
      (fun r s' => Still save d₀ busy s s' ∧ (∃ state, r = .ok state) ∧
        (faults = false → (∀ state ∈ states, s.disk.names (.entry (.state state)) = none) →
          r = .ok .unverified)) s := by
  induction states generalizing s with
  | nil => exact .pure h ⟨.refl h, ⟨_, rfl⟩, fun _ _ => rfl⟩
  | cons state states ih =>
    refine Meets.result (readRegular_meets _ _ h) fun r s₁ hanswered h₁ => ?_
    have hinvalid : Keeps save d₀ busy faults
        (stateFrom states true).run (fun r s' => Still save d₀ busy s s' ∧
          (∃ found, r = .ok found) ∧ (faults = false →
            (∀ state' ∈ state :: states, s.disk.names (.entry (.state state')) = none) →
              r = .ok .unverified)) s₁ :=
      (stateFrom_invalid_meets states h₁.kept).weaken fun r s₂ _ h₂ =>
        ⟨h₁.trans h₂.1, ⟨_, h₂.2⟩, fun _ _ => h₂.2⟩
    show Meets _ _ _ _ s₁
    split
    · next bytes =>
      split
      · refine .pure h₁.kept ⟨h₁, ⟨_, rfl⟩, fun hfaults hnone => ?_⟩
        -- A record that is not there is not read.
        rcases hanswered with hvalue | ⟨htrue, -⟩
        · simp only [Disk.reads, Disk.opens, hnone state List.mem_cons_self] at hvalue
          cases hvalue
        · rw [hfaults] at htrue
          cases htrue
      · exact hinvalid
    · refine (ih h₁.kept).weaken fun r s₂ _ h₂ => ⟨h₁.trans h₂.1, h₂.2.1, fun hfaults hnone => ?_⟩
      refine h₂.2.2 hfaults fun state' hmem => ?_
      rw [h₁.same.names]
      exact hnone state' (List.mem_cons_of_mem _ hmem)
    · exact hinvalid

theorem Disk.opens_notFound {name : Name} (h : d.opens name = .error .notFound) :
    d.names name = none := by
  rw [Disk.opens] at h
  split at h
  · next hnone => exact hnone
  · split at h <;> cases h

theorem Disk.reads_notFound {name : Name} {limit : Nat}
    (h : d.reads name limit = .error .notFound) : d.names name = none := by
  rw [Disk.reads] at h
  split at h
  · next e he => cases h; exact Disk.opens_notFound he
  · split at h <;> cases h

/-- A missing file is never a failure of the system. -/
theorem Answered.notFound {α : Type} {value : Except Errno α}
    (h : Answered faults (.error .notFound) value) : value = .error .notFound := by
  rcases h with heq | ⟨-, e, hsystem, heq⟩
  · exact heq.symm
  · cases heq
    exact nomatch hsystem

/-- Once cleanup is announced its records give no other state. -/
theorem stateFromRecords_meets (h : Kept save d₀ s) :
    Keeps save d₀ busy faults stateFromRecords.run
      (fun r s' => Still save d₀ busy s s' ∧ (∃ state, r = .ok state) ∧
        (faults = false → Pending save d₀ s.disk →
          r = .ok .cleanupPending ∨ r = .ok .unverified)) s := by
  refine Meets.result (readRegular_meets _ _ h) fun r s₁ hanswered h₁ => ?_
  have hinvalid := @stateFrom_invalid_meets save d₀ s₁ busy faults
    [.conflict, .replaced, .created, .precommit] h₁.kept
  show Meets _ _ _ _ s₁
  split
  · split
    · exact .pure h₁.kept ⟨h₁, ⟨_, rfl⟩, fun _ _ => Or.inl rfl⟩
    · exact hinvalid.weaken fun r s₂ _ h₂ =>
        ⟨h₁.trans h₂.1, ⟨_, h₂.2⟩, fun _ _ => Or.inr h₂.2⟩
  · have hnone := Disk.reads_notFound hanswered.notFound
    refine (stateFrom_meets _ h₁.kept).weaken fun r s₂ _ h₂ =>
      ⟨h₁.trans h₂.1, h₂.2.1, fun hfaults hpending => Or.inr (h₂.2.2 hfaults ?_)⟩
    intro state _
    rw [h₁.same.names]
    rcases hpending.marked with hmarked | hnothing
    · exact absurd hnone hmarked
    · exact hnothing _ (fun h => nomatch h) (fun h => nomatch h)
  · exact hinvalid.weaken fun r s₂ _ h₂ =>
      ⟨h₁.trans h₂.1, ⟨_, h₂.2⟩, fun _ _ => Or.inr h₂.2⟩

end BareLine.SaveTransaction
