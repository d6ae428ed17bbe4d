import BareLine.SaveTransaction.Announced
import BareLine.SaveTransaction.InPlace

/-!
# No version is lost

- §1: records.
- §2: `prepare`.
- §3: `commit`.
- §4: `abort`.
- §5: `inspect`.
- §6: a whole save.
-/

namespace BareLine.SaveTransaction

open Lib

variable {d d' d₀ : Disk} {w w' : Publishing} {plan : Plan} {I J : Publishing → Prop}

/-! ## §1 Records -/

/-- What looking, and creating and writing an entry, keep. -/
structure Robust (entry : Entry) (I : Publishing → Prop) : Prop where
  tidy : ∀ w, I w → Tidy w.disk
  rests : ∀ w w', I w → Rests w w' → Tidy w'.disk → I w'
  born : ∀ w node w', I w → Born entry node w w' → I w'
  edits : ∀ w node w', I w → w.disk.names (.entry entry) = some node → Edits node w w' → I w'

theorem Robust.and {entry : Entry} (h : Robust entry I) (h' : Robust entry J) :
    Robust entry fun w => I w ∧ J w where
  tidy w hw := h.tidy w hw.1
  rests w w' hw hrests htidy := ⟨h.rests w w' hw.1 hrests htidy, h'.rests w w' hw.2 hrests htidy⟩
  born w node w' hw hborn := ⟨h.born w node w' hw.1 hborn, h'.born w node w' hw.2 hborn⟩
  edits w node w' hw hname hedits :=
    ⟨h.edits w node w' hw.1 hname hedits, h'.edits w node w' hw.2 hname hedits⟩

theorem Sheltered.robust (state : CommitState) : Robust (.state state) (Sheltered plan) where
  tidy _ h := h.tidy
  rests _ _ h hrests htidy := h.rests hrests htidy
  born _ _ _ h hborn := h.born Entry.noConfusion Entry.noConfusion hborn
  edits _ _ _ h hname hedits :=
    h.edits Entry.noConfusion Entry.noConfusion Entry.noConfusion hname hedits

/-- A procedure that only looks. -/
theorem Meets.idles {α : Type} {p : Program Op Op.Answer α} (hp : p.Uses Op.idle) (hI : I w)
    (htidy : Tidy w.disk) (hrests : ∀ w w', I w → Rests w w' → Tidy w'.disk → I w') :
    Meets Publishing.machine I p (fun _ w' => Rests w w' ∧ Tidy w'.disk) w := by
  refine ((hp.meets (fun w' => Rests w w' ∧ Tidy w'.disk ∧ I w') ?_ ⟨.refl w, htidy, hI⟩).weaken
    fun _ _ _ hw => ⟨hw.1, hw.2.1⟩).relax fun _ hw => hw.2.2
  rintro w₁ op answer _ hidle ⟨d, d', houtside, hperforms, rfl⟩ ⟨h₁, htidy₁, hI₁⟩
  obtain ⟨hsteady, htidy'⟩ := steady_of_outside htidy₁ houtside
  obtain ⟨hrests₂, hnames, -, hfresh⟩ := Rests.after hidle hsteady hperforms
  have htidy₂ : Tidy d' := htidy'.same hnames hfresh
  exact ⟨h₁.trans hrests₂, htidy₂, hrests _ _ hI₁ hrests₂ htidy₂⟩

theorem idle_refuse (c : Prop) [Decidable c] (error : Errno) :
    (refuseIf c error).run.Uses Op.idle := by
  unfold refuseIf
  split <;> trivial

theorem idle_sync : (use .sync).run.Uses Op.idle := Program.Uses.ask trivial

theorem idle_openRegular (name : Name) : (openRegular name).run.Uses Op.idle :=
  Program.Uses.andThen (Program.Uses.ask trivial) fun _ =>
    Program.Uses.andThen (Program.Uses.ask trivial) fun _ =>
      Program.Uses.andThen (idle_refuse _ _) fun _ => trivial

theorem idle_confirmRecord (state : CommitState) : (confirmRecord state).run.Uses Op.idle :=
  Program.Uses.andThen (Program.Uses.ask trivial) fun _ =>
    Program.Uses.andThen (Program.Uses.andThen (Program.Uses.ask trivial) fun _ =>
      Program.Uses.andThen (idle_refuse _ _) fun _ => trivial) fun _ => idle_refuse _ _

theorem publishState_meets {state : CommitState} (hrobust : Robust (.state state) I) (hI : I w) :
    Meets Publishing.machine I (publishCommitState state).run (fun _ _ => True) w := by
  refine Meets.refuse hI (fun _ => trivial) fun _ => ?_
  have hcreate : Meets Publishing.machine I (use (.create (.entry (.state state)))).run
      (fun r w' => ∀ node, r = .ok node → w'.disk.names (.entry (.state state)) = some node) w :=
    (Meets.create hI (hrobust.tidy w hI) (fun node w' => hrobust.born w node w' hI)
      fun w' => hrobust.rests w w' hI).weaken fun r w' _ hr node hnode => (hr.1 node hnode).name
  refine Meets.andThen (Meets.lift (hcreate.weaken ?_))
  intro r w₁ hw₁ hname
  show Meets _ _ _ _ w₁
  split
  · next node =>
    have hwrite := Meets.writeEntry (stateRecord state) hw₁ (hrobust.tidy w₁ hw₁)
      (hname node rfl) fun w' => hrobust.edits w₁ node w' hw₁ (hname node rfl)
    refine Meets.andThen (hwrite.weaken ?_)
    rintro (e | _) w₂ hw₂ -
    · trivial
    · exact (Meets.idles idle_sync hw₂ (hrobust.tidy w₂ hw₂)
        hrobust.rests).weaken fun _ _ _ _ => trivial
  · exact (Meets.idles (idle_confirmRecord state) hw₁ (hrobust.tidy w₁ hw₁)
      hrobust.rests).weaken fun _ _ _ _ => trivial
  · exact .pure hw₁ trivial

/-! ## §2 `prepare` -/

/-- Before the transaction is prepared nothing is displaced, and the stage is as it was. -/
structure Preparing (d₀ : Disk) (w : Publishing) : Prop where
  tidy : Tidy w.disk
  version : w.version = none
  out : w.out = false
  overwrote : w.overwrote = false
  lease : w.disk.exclusive = false
  place : w.disk.place = d₀.place
  stage : w.disk.file .stage = d₀.file .stage

theorem Preparing.robust (entry : Entry) : Robust entry (Preparing d₀) where
  tidy _ h := h.tidy
  rests _ _ h hrests htidy := {
    tidy := htidy
    version := hrests.version.trans h.version
    out := hrests.out.trans h.out
    overwrote := hrests.overwrote.trans h.overwrote
    lease := hrests.steady.exclusive.trans h.lease
    place := hrests.steady.place.trans h.place
    stage := (hrests.steady.file h.tidy stage_ne_target).trans h.stage }
  born _ _ _ h hborn := {
    tidy := hborn.tidy
    version := hborn.version.trans h.version
    out := hborn.out.trans h.out
    overwrote := hborn.overwrote.trans h.overwrote
    lease := hborn.exclusive.trans h.lease
    place := hborn.place.trans h.place
    stage := (hborn.file h.tidy stage_ne_target (stage_ne_entry entry)).trans h.stage }
  edits _ _ _ h hname hedits := {
    tidy := hedits.tidy
    version := hedits.version.trans h.version
    out := hedits.out.trans h.out
    overwrote := hedits.overwrote.trans h.overwrote
    lease := hedits.exclusive.trans h.lease
    place := hedits.place.trans h.place
    stage := (hedits.file h.tidy stage_ne_target fun heq =>
      stage_ne_entry entry (h.tidy.apart _ _ _ heq hname)).trans h.stage }

/-- The operations that make the folder, or empty and remove it. -/
def Op.clears : Op → Prop
  | .makeFolder | .removeFolder | .unlink (.entry _) => True
  | _ => False

/-- What the folder is emptied of is none of the names that a save publishes. -/
theorem Disk.does_clears {op : Op} (hop : op.clears) (d : Disk) :
    ((d.does op).2 = d ∨ (∃ entry, (d.does op).2 = d.setName (.entry entry) none) ∨
      ∃ folder, (d.does op).2 = { d with folder := folder }) ∧
    (op = .makeFolder → (∀ a, (d.does op).1 = .ok a → (d.does op).2.folder = true)) := by
  cases op with
  | makeFolder =>
    simp only [Disk.does]
    split
    · exact ⟨Or.inl rfl, fun _ _ ha => (by cases ha)⟩
    · exact ⟨Or.inr (Or.inr ⟨true, rfl⟩), fun _ _ _ => rfl⟩
  | removeFolder =>
    refine ⟨?_, fun heq => (by cases heq)⟩
    simp only [Disk.does]
    split
    · exact Or.inl rfl
    · split
      · exact Or.inr (Or.inr ⟨false, rfl⟩)
      · exact Or.inl rfl
  | unlink name =>
    refine ⟨?_, fun heq => (by cases heq)⟩
    cases name with
    | entry entry =>
      simp only [Disk.does]
      split
      · exact Or.inl rfl
      · split
        · exact Or.inl rfl
        · exact Or.inr (Or.inl ⟨entry, rfl⟩)
    | _ => exact absurd hop id
  | _ => exact absurd hop id

theorem loses_kept (h : d'.names .target = d.names .target) :
    Publishing.loses d d' = false := by
  unfold Publishing.loses
  split
  · rfl
  · next node hnode => rw [h, hnode, bne_self_eq_false, Bool.false_and, Bool.false_and]

theorem Preparing.cleared (h : Preparing d₀ w) {op : Op} (hop : op.clears)
    {answer : op.Answer} (hsteady : Steady w.disk d) (htidy : Tidy d)
    (hperforms : Performs true d op answer d') :
    Preparing d₀ (w.after d op answer d') ∧
      (op = .makeFolder → ∀ a, answer = .ok a → d'.folder = true) := by
  have hversion : w.versionAfter d d' op answer = (w.version, w.out) := by
    cases op <;> first | exact absurd hop id | rfl
  have hkept (htidy' : Tidy d') (htarget : d'.names .target = d.names .target)
      (hstage : d'.file .stage = d.file .stage) (hlease : d'.exclusive = d.exclusive)
      (hplace : d'.place = d.place) : Preparing d₀ (w.after d op answer d') := by
    refine ⟨htidy', (congrArg Prod.fst hversion).trans h.version,
      (congrArg Prod.snd hversion).trans h.out, ?_, (hlease.trans hsteady.exclusive).trans h.lease,
      (hplace.trans hsteady.place).trans h.place,
      (hstage.trans (hsteady.file h.tidy stage_ne_target)).trans h.stage⟩
    show (w.overwrote || Publishing.loses d d') = false
    rw [loses_kept htarget, Bool.or_false]
    exact h.overwrote
  rcases hperforms with hdoes | ⟨-, -, e, -, hanswer, rfl | ⟨node, bytes, k, rfl, -⟩⟩
  · obtain ⟨hdisk, hfolder⟩ := Disk.does_clears hop d
    rw [← hdoes] at hdisk hfolder
    refine ⟨?_, hfolder⟩
    rcases hdisk with heq | ⟨entry, heq⟩ | ⟨folder, heq⟩
    · have heq : d' = d := heq
      subst heq
      exact hkept htidy rfl rfl rfl rfl
    · have heq : d' = d.setName (.entry entry) none := heq
      subst heq
      refine hkept (htidy.unset _) ?_ (file_setName_ne (stage_ne_entry entry) none) rfl rfl
      rw [Disk.setName_names, if_neg (target_ne entry)]
    · have heq : d' = { d with folder := folder } := heq
      subst heq
      exact hkept (htidy.same rfl rfl) rfl rfl rfl rfl
  · exact ⟨hkept htidy rfl rfl rfl rfl, fun _ a ha => nomatch ha.symm.trans hanswer⟩
  · exact absurd hop id

/-- The operations of `abort`, and of a `prepare` that failed. -/
def Op.gentle (op : Op) : Prop := op.idle ∨ op.clears

theorem Preparing.gentle {α : Type} {p : Program Op Op.Answer α} (hp : p.Uses Op.gentle)
    (h : Preparing d₀ w) :
    Meets Publishing.machine (Preparing d₀) p (fun _ _ => True) w := by
  refine (hp.meets (Preparing d₀) ?_ h).weaken fun _ _ _ _ => trivial
  rintro w₁ op answer _ hop ⟨d, d', houtside, hperforms, rfl⟩ h₁
  obtain ⟨hsteady, htidy⟩ := steady_of_outside h₁.tidy houtside
  rcases hop with hidle | hclears
  · obtain ⟨hrests, hnames, -, hfresh⟩ := Rests.after hidle hsteady hperforms
    exact (Preparing.robust .editor).rests _ _ h₁ hrests (htidy.same hnames hfresh)
  · exact (h₁.cleared hclears hsteady htidy hperforms).1

theorem gentle_ask {op : Op} (h : op.gentle) : (use op).run.Uses Op.gentle :=
  Program.Uses.ask h

theorem gentle_resultOf {α : Type} {task : Task α} (h : task.run.Uses Op.gentle) :
    (resultOf task).run.Uses Op.gentle :=
  Program.Uses.bind h fun _ => trivial

theorem gentle_unlinkPresent (entry : Entry) : (unlinkPresent entry).run.Uses Op.gentle := by
  refine Program.Uses.andThen (gentle_resultOf (gentle_ask (Or.inr trivial))) fun r => ?_
  split <;> trivial

theorem gentle_removeTransaction : removeTransaction.run.Uses Op.gentle :=
  Program.Uses.andThen (gentle_ask (Or.inl trivial)) fun _ =>
    Program.Uses.andThen (gentle_ask (Or.inr trivial)) fun _ => gentle_ask (Or.inl trivial)

theorem gentle_removeVerified (entry : Entry) (node : Node) :
    (removeVerified entry node).run.Uses Op.gentle := by
  refine Program.Uses.andThen (gentle_resultOf (gentle_ask (Or.inl trivial))) fun r => ?_
  split
  · split
    · exact gentle_ask (Or.inr trivial)
    · trivial
  · trivial
  · trivial

theorem gentle_withdraw (entries : List Entry) : (withdraw entries).run.Uses Op.gentle := by
  induction entries with
  | nil => exact Program.Uses.andThen (gentle_resultOf gentle_removeTransaction) fun _ => trivial
  | cons entry entries ih =>
    exact Program.Uses.andThen (gentle_resultOf (gentle_unlinkPresent entry)) fun _ => ih

/-- The folder is made, and leased. -/
theorem createTransaction_meets (h : Preparing d₀ w) :
    Meets Publishing.machine (Preparing d₀) createTransaction.run
      (fun r w' => r = .ok () → w'.disk.folder = true) w := by
  have hmake : Meets Publishing.machine (Preparing d₀) (use .makeFolder).run
      (fun r w' => ∀ a, r = .ok a → w'.disk.folder = true) w :=
    Meets.act h h.tidy fun d answer d' hsteady htidy hperforms =>
      have hcleared := h.cleared (show Op.clears .makeFolder from trivial) hsteady htidy hperforms
      ⟨hcleared.1, hcleared.2 rfl⟩
  refine Meets.andThen (hmake.weaken ?_)
  rintro (e | _) w₁ hw₁ hfolder
  · exact fun hok => nomatch hok
  have hlease : (do use .openFolder; use .leaseShared : Task Unit).run.Uses Op.idle :=
    Program.Uses.andThen (Program.Uses.ask trivial) fun _ => Program.Uses.ask trivial
  refine Meets.andThen (Meets.lift ((Meets.idles hlease hw₁ hw₁.tidy
    (Preparing.robust .editor).rests).weaken ?_))
  rintro r w₂ hw₂ ⟨hrests, -⟩
  show Meets _ _ _ _ w₂
  split
  · exact .pure hw₂ fun _ => hrests.steady.folder.trans (hfolder () rfl)
  · have hremove : (use .removeFolder).run.Uses Op.gentle := gentle_ask (Or.inr trivial)
    refine Meets.andThen (Meets.lift ((Preparing.gentle hremove hw₂).weaken ?_))
    exact fun _ w₃ hw₃ _ => .pure hw₃ fun hok => nomatch hok

/-- Only an entry was added. -/
structure Adds (entry : Entry) (w w' : Publishing) : Prop where
  files : ∀ name, name ≠ .target → name ≠ .entry entry → w'.disk.file name = w.disk.file name
  folder : w'.disk.folder = w.disk.folder

theorem Adds.trans {entry : Entry} {w'' : Publishing} (h : Adds entry w w')
    (h' : Adds entry w' w'') : Adds entry w w'' where
  files name ht he := (h'.files name ht he).trans (h.files name ht he)
  folder := h'.folder.trans h.folder

theorem Rests.adds {entry : Entry} (h : Rests w w') (htidy : Tidy w.disk) : Adds entry w w' :=
  ⟨fun _ ht _ => h.steady.file htidy ht, h.steady.folder⟩

theorem Born.adds {entry : Entry} {node : Node} (h : Born entry node w w') (htidy : Tidy w.disk) :
    Adds entry w w' :=
  ⟨fun _ ht he => h.file htidy ht he, h.folder⟩

theorem Edits.adds {entry : Entry} {node : Node} (h : Edits node w w') (htidy : Tidy w.disk)
    (hname : w.disk.names (.entry entry) = some node) : Adds entry w w' :=
  ⟨fun _ ht he => h.file htidy ht fun heq => he (htidy.apart _ _ _ heq hname), h.folder⟩

/-- An entry that was created and is still empty. -/
structure Empty (entry : Entry) (node : Node) (w : Publishing) : Prop where
  name : w.disk.names (.entry entry) = some node
  object : w.disk.object node = ⟨.regular, []⟩

theorem Empty.rests {entry : Entry} {node : Node} (h : Empty entry node w) (htidy : Tidy w.disk)
    (hw : Rests w w') : Empty entry node w' where
  name := (hw.steady.names _ (entry_ne_target entry)).trans h.name
  object := (hw.steady.object node (htidy.fresh _ _ h.name)).trans h.object

/-- Filling an empty entry. -/
theorem fill_meets {entry : Entry} {node : Node} {bytes : Bytes} (h : Preparing d₀ w)
    (hempty : Empty entry node w) :
    Meets Publishing.machine (Preparing d₀) (use (.write node bytes)).run (fun r w' =>
      r = .ok () → Adds entry w w' ∧ w'.disk.file (.entry entry) = some ⟨.regular, bytes⟩) w := by
  refine (Meets.writeEntry bytes h h.tidy hempty.name fun w' =>
    (Preparing.robust entry).edits w node w' h hempty.name).weaken ?_
  rintro r w' - ⟨hedits, hwritten, -⟩ rfl
  refine ⟨hedits.adds h.tidy hempty.name, ?_⟩
  have hbytes := hwritten rfl (by rw [hempty.object])
  have hkind : (w'.disk.object node).kind = .regular := by
    rw [hedits.kind (h.tidy.fresh _ _ hempty.name), hempty.object]
  rw [Disk.file, hedits.names _ (entry_ne_target entry), hempty.name, Option.map_some, ← hbytes,
    ← hkind]

/-- The invariant of `prepare` through a step that looks. -/
theorem Preparing.look {op : Op} (h : Preparing d₀ w) (hidle : op.idle) :
    Meets Publishing.machine (Preparing d₀) (use op).run (fun r w' => Rests w w' ∧
      ∀ a, r = .ok a → op = .leaseShared ∨ (w'.disk.does op).1 = .ok a) w :=
  (Meets.idle hidle h h.tidy fun w' => (Preparing.robust .editor).rests w w' h).weaken
    fun _ _ _ hpost => ⟨hpost.1, hpost.2.2.1⟩

theorem writeRecord_meets {entry : Entry} {bytes : Bytes} (h : Preparing d₀ w) :
    Meets Publishing.machine (Preparing d₀) (writeRecord entry bytes).run (fun r w' =>
      r = .ok () → Adds entry w w' ∧ w'.disk.file (.entry entry) = some ⟨.regular, bytes⟩) w := by
  refine Meets.andThen ((Meets.create h h.tidy (fun node w' =>
    (Preparing.robust entry).born w node w' h)
    fun w' => (Preparing.robust entry).rests w w' h).weaken ?_)
  rintro (e | node) w₁ hw₁ ⟨hborn, -⟩
  · exact fun hok => nomatch hok
  have hborn := hborn node rfl
  refine Meets.andThen ((fill_meets hw₁ ⟨hborn.name, hborn.object⟩).weaken ?_)
  rintro (e | _) w₂ hw₂ hfilled
  · exact fun hok => nomatch hok
  obtain ⟨hadds, hfile⟩ := hfilled rfl
  refine (hw₂.look (show Op.idle .sync from trivial)).weaken ?_
  rintro r w₃ hw₃ ⟨hrests, -⟩ -
  exact ⟨((hborn.adds h.tidy).trans hadds).trans (hrests.adds hw₂.tidy),
    (hrests.steady.file hw₂.tidy (entry_ne_target entry)).trans hfile⟩

/-- The editor version is a complete copy of the stage. -/
theorem copyCommitBytes_meets {entry : Entry} {node : Node} (h : Preparing d₀ w)
    (hempty : Empty entry node w) :
    Meets Publishing.machine (Preparing d₀) (copyCommitBytes .stage node).run (fun r w' =>
      r = .ok () → ∃ bytes, d₀.bytesAt .stage = some bytes ∧ Adds entry w w' ∧
        w'.disk.file (.entry entry) = some ⟨.regular, bytes⟩) w := by
  refine Meets.andThen ((h.look (show Op.idle (.openAny .stage) from trivial)).weaken ?_)
  rintro (e | source) w₁ hw₁ ⟨h₁, hopen⟩
  · exact fun hok => nomatch hok
  have hsource : w₁.disk.names .stage = some source := by
    rcases hopen source rfl with hop | hvalue
    · cases hop
    · simp only [Disk.does] at hvalue
      split at hvalue
      · next found hfound => rw [hfound, Except.ok.inj hvalue]
      · cases hvalue
  refine Meets.andThen ((hw₁.look (show Op.idle .checkCancelled from trivial)).weaken ?_)
  rintro (e | _) w₂ hw₂ ⟨h₂, -⟩
  · exact fun hok => nomatch hok
  refine Meets.andThen ((hw₂.look (show Op.idle (.read source) from trivial)).weaken ?_)
  rintro (e | bytes) w₃ hw₃ ⟨h₃, hread⟩
  · exact fun hok => nomatch hok
  have hrests := (h₁.trans h₂).trans h₃
  have hbytes : d₀.bytesAt .stage = some bytes := by
    have hname := ((h₂.trans h₃).steady.names _ stage_ne_target).trans hsource
    rw [Disk.bytesAt, ← hw₃.stage, Disk.file, hname]
    rcases hread bytes rfl with hop | hvalue
    · cases hop
    · simp only [Disk.does] at hvalue
      split at hvalue
      · cases hvalue
      · rw [Option.map_some, Option.map_some, Except.ok.inj hvalue]
  refine Meets.andThen ((fill_meets hw₃ (hempty.rests h.tidy hrests)).weaken ?_)
  rintro (e | _) w₄ hw₄ hfilled
  · exact fun hok => nomatch hok
  obtain ⟨hadds, hfile⟩ := hfilled rfl
  refine Meets.andThen ((hw₄.look (show Op.idle .checkCancelled from trivial)).weaken ?_)
  rintro (e | _) w₅ hw₅ ⟨h₅, -⟩
  · exact fun hok => nomatch hok
  refine (hw₅.look (show Op.idle .sync from trivial)).weaken ?_
  rintro r w₆ hw₆ ⟨h₆, -⟩ -
  have hafter := h₅.trans h₆
  exact ⟨bytes, hbytes, ((hrests.adds h.tidy).trans hadds).trans (hafter.adds hw₄.tidy),
    (hafter.steady.file hw₄.tidy (entry_ne_target entry)).trans hfile⟩

/-- What a request makes a transaction hold. -/
structure Plan.Of (generation : Generation) (request : Request) (d₀ : Disk) (plan : Plan) :
    Prop where
  strategy : plan.strategy = request.strategy
  place : plan.place = d₀.place
  manifest : manifestBytes generation ⟨request.target, request.mode⟩ = .ok plan.manifest
  proposed : d₀.bytesAt .stage = some plan.proposed

/-- A prepared transaction, of which nothing is published yet. -/
structure Ready (plan : Plan) (w : Publishing) : Prop where
  sheltered : Sheltered plan w
  version : w.version = none
  out : w.out = false

theorem Ready.rests (h : Ready plan w) (hw : Rests w w') (htidy : Tidy w'.disk) : Ready plan w' :=
  ⟨h.sheltered.rests hw htidy, hw.version.trans h.version, hw.out.trans h.out⟩

variable {generation : Generation} {request : Request}

theorem fillTransaction_meets (h : Preparing d₀ w) (hfolder : w.disk.folder = true) :
    Meets Publishing.machine (Preparing d₀) (fillTransaction generation request).run
      (fun r w' => ∀ node, r = .ok node →
        ∃ plan, Plan.Of generation request d₀ plan ∧ Ready plan w') w := by
  refine Meets.andThen (Meets.pure h ?_)
  cases hmanifest : manifestBytes generation ⟨request.target, request.mode⟩ with
  | error e => exact fun _ hok => nomatch hok
  | ok bytes => ?_
  refine Meets.andThen ((writeRecord_meets h).weaken ?_)
  rintro (e | _) w₁ hw₁ hrecord
  · exact fun _ hok => nomatch hok
  obtain ⟨hadds₁, hmanifest₁⟩ := hrecord rfl
  refine Meets.andThen ((Meets.create hw₁ hw₁.tidy (fun node w' =>
    (Preparing.robust .editor).born w₁ node w' hw₁)
    fun w' => (Preparing.robust .editor).rests w₁ w' hw₁).weaken ?_)
  rintro (e | node) w₂ hw₂ ⟨hborn, -⟩
  · exact fun _ hok => nomatch hok
  have hborn := hborn node rfl
  refine Meets.andThen ((copyCommitBytes_meets hw₂ ⟨hborn.name, hborn.object⟩).weaken ?_)
  rintro (e | _) w₃ hw₃ hcopied
  · exact fun _ hok => nomatch hok
  obtain ⟨proposed, hstage, hadds₃, heditor⟩ := hcopied rfl
  have hadds := (hborn.adds hw₁.tidy).trans hadds₃
  let plan : Plan := ⟨request.strategy, bytes, proposed, d₀.place⟩
  have hsheltered : Sheltered plan w₃ := {
    tidy := hw₃.tidy
    folder := hadds.folder.trans (hadds₁.folder.trans hfolder)
    lease := hw₃.lease
    place := hw₃.place
    manifest := (hadds.files _ (entry_ne_target _) (by decide)).trans hmanifest₁
    editor := heditor
    overwrote := fun _ => hw₃.overwrote
    version := fun hout => nomatch hw₃.out.symm.trans hout }
  have hof : Plan.Of generation request d₀ plan := ⟨rfl, rfl, hmanifest, hstage⟩
  -- The record and the syncs keep both.
  have hrobust := (@Preparing.robust d₀ (.state .precommit)).and
    (@Sheltered.robust plan .precommit)
  refine Meets.relax ?_ fun w' (hw' : Preparing d₀ w' ∧ Sheltered plan w') => hw'.1
  refine Meets.andThen ((publishState_meets hrobust ⟨hw₃, hsheltered⟩).weaken ?_)
  rintro (e | _) w₄ hw₄ -
  · exact fun _ hok => nomatch hok
  refine Meets.andThen ((Meets.idles idle_sync hw₄ hw₄.1.tidy hrobust.rests).weaken ?_)
  rintro (e | _) w₅ hw₅ -
  · exact fun _ hok => nomatch hok
  refine Meets.andThen ((Meets.idles idle_sync hw₅ hw₅.1.tidy hrobust.rests).weaken ?_)
  rintro (e | _) w₆ hw₆ -
  · exact fun _ hok => nomatch hok
  exact .pure hw₆ fun _ _ => ⟨plan, hof, hw₆.2, hw₆.1.version, hw₆.1.out⟩

/-- `prepare` displaces nothing, and its success leaves the editor version complete. -/
theorem prepare_meets (h : Preparing d₀ w) :
    Meets Publishing.machine (Preparing d₀) (prepare generation request).run
      (fun r w' => ∀ prepared, r = .ok prepared → prepared.mode = request.mode ∧
        prepared.strategy = request.strategy ∧
        ∃ plan, Plan.Of generation request d₀ plan ∧ Ready plan w') w := by
  have hnone {e : Errno} {w' : Publishing} : ∀ prepared : Prepared, (.error e : Except Errno _) =
      .ok prepared → prepared.mode = request.mode ∧ prepared.strategy = request.strategy ∧
        ∃ plan, Plan.Of generation request d₀ plan ∧ Ready plan w' :=
    fun _ hok => nomatch hok
  refine Meets.refuse h (fun _ => hnone) fun _ => ?_
  refine Meets.refuse h (fun _ => hnone) fun _ => ?_
  refine Meets.refuse h (fun _ => hnone) fun _ => ?_
  refine Meets.refuse h (fun _ => hnone) fun _ => ?_
  refine Meets.refuse h (fun _ => hnone) fun _ => ?_
  refine Meets.andThen ((createTransaction_meets h).weaken ?_)
  rintro (e | _) w₁ hw₁ hfolder
  · exact hnone
  refine Meets.andThen (Meets.lift ((fillTransaction_meets hw₁ (hfolder rfl)).weaken ?_))
  intro r w₂ hw₂ hfilled
  show Meets _ _ _ _ w₂
  split
  · next node =>
    refine .pure hw₂ fun prepared hprepared => ?_
    cases hprepared
    exact ⟨rfl, rfl, hfilled node rfl⟩
  · refine Meets.andThen ((Preparing.gentle (gentle_withdraw _) hw₂).weaken ?_)
    rintro (e | _) w₃ hw₃ -
    · exact hnone
    · exact .pure hw₃ hnone

/-! ## §3 `commit` -/

theorem idle_carryMetadata : carryMetadata.run.Uses Op.idle :=
  Program.Uses.andThen (Program.Uses.ask trivial) fun _ =>
    Program.Uses.andThen (Program.Uses.ask trivial) fun _ =>
      Program.Uses.andThen (Program.Uses.bind (Program.Uses.ask trivial) fun _ => trivial)
        fun _ => Program.Uses.ask trivial

/-- A publication step that failed left the version, or put it back where it could. -/
theorem publication_meets {mode : CommitMode} (h : Ready plan w) :
    Meets Publishing.machine (Sheltered plan) (publication mode plan.strategy).run
      (fun r w' => ∀ e, r = .error e → Withdrawn plan.strategy (w.disk.names .stage) w') w := by
  cases mode with
  | createNew =>
    refine Meets.andThen ((stageOnto_meets h.sheltered (Or.inr h.out)).weaken ?_)
    rintro (e | _) w₁ hw₁ herror
    · exact fun _ _ => .untouched ((herror e rfl).version.trans h.version)
    · exact .pure hw₁ fun e he => nomatch he
  | replace =>
    show Meets _ _ (ExceptT.run (if _ then _ else _)) _ w
    split
    · next hrewrites =>
      refine Meets.andThen ((rewriteInPlace_meets h.sheltered h.version h.out hrewrites).weaken ?_)
      rintro (e | _) w₁ hw₁ herror
      · exact fun _ _ => herror e rfl
      · exact .pure hw₁ fun e he => nomatch he
    · refine Meets.andThen ((Meets.idles idle_carryMetadata h.sheltered h.sheltered.tidy
        fun _ _ hw hrests htidy => hw.rests hrests htidy).weaken ?_)
      rintro (e | _) w₁ hw₁ ⟨hrests, -⟩
      · exact fun _ _ => .untouched (hrests.version.trans h.version)
      have hversion := hrests.version.trans h.version
      have hout := hrests.out.trans h.out
      rw [← hrests.steady.names _ stage_ne_target]
      show Meets _ _ (ExceptT.run (if _ then _ else _)) _ w₁
      split
      · next hstrategy => exact replaceByExchange_meets hw₁ hversion hout hstrategy
      · refine Meets.andThen ((replaceByRename_meets hw₁ hversion
          (Bool.eq_false_iff.mpr ‹_›)).weaken ?_)
        rintro (e | _) w₂ hw₂ herror
        · exact fun _ _ => herror e rfl
        · exact .pure hw₂ fun e he => nomatch he

/-- At every moment of `commit` the versions are kept. -/
theorem commit_meets {prepared : Prepared} (h : Ready plan w)
    (hstrategy : prepared.strategy = plan.strategy) :
    Meets Publishing.machine (Sheltered plan) (commit prepared).run (fun _ _ => True) w := by
  have hkeep : ∀ w w', Sheltered plan w → Rests w w' → Tidy w'.disk → Sheltered plan w' :=
    fun _ _ hw hrests htidy => hw.rests hrests htidy
  have hidle {α : Type} {task : Task α} {w : Publishing} (htask : task.run.Uses Op.idle)
      (hw : Sheltered plan w) : Meets Publishing.machine (Sheltered plan) task.run
        (fun _ w' => Sheltered plan w') w :=
    (Meets.idles htask hw hw.tidy hkeep).weaken fun _ _ hw' _ => hw'
  have hmark {state : CommitState} (hstate : state ≠ .cleanupPending)
      (displaced : List (Entry × Node)) {w : Publishing} (hw : Sheltered plan w) :
      Meets Publishing.machine (Sheltered plan) (ExceptT.run do
        let displaced ← (pure displaced : Task _)
        markState prepared.generation state
        return (⟨prepared.generation, (.editor, prepared.proposed) :: displaced, false⟩ : Cleanup))
        (fun _ _ => True) w := by
    refine Meets.andThen (Meets.pure hw (Meets.andThen (Meets.weaken ?_ fun r w₁ hw₁ (_ : True) =>
      ?_)))
    · show Meets _ _ (ExceptT.run (if _ then _ else _)) _ w
      rw [if_neg hstate]
      exact publishState_meets (Sheltered.robust _) hw
    · cases r with
      | error e => trivial
      | ok _ => exact .pure hw₁ trivial
  have hnamed : (use .stillNamed).run.Uses Op.idle := Program.Uses.ask trivial
  refine Meets.andThen ((Meets.idles hnamed h.sheltered h.sheltered.tidy hkeep).weaken ?_)
  rintro (e | _) w₁ hw₁ ⟨hrests, htidy⟩
  · trivial
  have hready : Ready plan w₁ := h.rests hrests htidy
  refine Meets.andThen (Meets.lift ?_)
  rw [hstrategy]
  refine (publication_meets hready).weaken ?_
  intro r w₂ hw₂ _
  show Meets _ _ _ _ w₂
  split
  · next e =>
    show Meets _ _ (ExceptT.run (if _ then _ else _)) _ w₂
    split
    · refine Meets.andThen (Meets.lift ((publishState_meets (Sheltered.robust .conflict)
        hw₂).weaken ?_))
      exact fun _ w₃ hw₃ _ => .pure hw₃ trivial
    · exact .pure hw₂ trivial
  · refine Meets.andThen ((hidle idle_sync hw₂).weaken ?_)
    rintro (e | _) w₃ hw₃ -
    · trivial
    refine Meets.andThen ((hidle idle_sync hw₃).weaken ?_)
    rintro (e | _) w₄ hw₄ -
    · trivial
    refine Meets.andThen ((hidle hnamed hw₄).weaken ?_)
    rintro (e | _) w₅ hw₅ -
    · trivial
    refine Meets.andThen ((hidle (idle_openRegular _) hw₅).weaken ?_)
    rintro (e | _) w₆ hw₆ -
    · trivial
    show Meets _ _ (ExceptT.run (if _ then _ else _)) _ w₆
    split
    · refine Meets.andThen ((hidle (idle_openRegular _) hw₆).weaken ?_)
      rintro (e | node) w₇ hw₇ -
      · trivial
      · exact hmark (by decide) _ hw₇
    · exact hmark (by decide) [] hw₆

/-! ## §4 `abort` -/

theorem gentle_abort (prepared : Prepared) : (abort prepared).run.Uses Op.gentle :=
  Program.Uses.andThen (gentle_removeVerified _ _) fun _ =>
    Program.Uses.andThen (gentle_unlinkPresent _) fun _ =>
      Program.Uses.andThen (gentle_unlinkPresent _) fun _ =>
        Program.Uses.andThen (gentle_unlinkPresent _) fun _ => gentle_removeTransaction

/-! ## §5 `inspect` -/

theorem follow_refuseIf (d : Disk) (c : Prop) [Decidable c] (error : Errno) :
    (refuseIf c error).run.follow Disk.does d = (if c then .error error else .ok (), d) := by
  unfold refuseIf
  split <;> rfl

theorem follow_openRegular (d : Disk) (name : Name) :
    (openRegular name).run.follow Disk.does d = (d.opens name, d) := by
  have hopen : (use (.openAny name)).run.follow Disk.does d = Disk.does d (.openAny name) := rfl
  rw [Disk.does] at hopen
  rw [openRegular, Disk.opens]
  cases hname : d.names name with
  | none =>
    rw [hname] at hopen
    exact Program.follow_error hopen
  | some node =>
    rw [hname] at hopen
    have hkind : (use (.kind node)).run.follow Disk.does d = (.ok (d.object node).kind, d) := rfl
    rw [Program.follow_ok hopen, Program.follow_ok hkind]
    have hrefuse := follow_refuseIf d ((d.object node).kind ≠ .regular) .denied
    by_cases hregular : (d.object node).kind = .regular
    · rw [if_neg (not_not_intro hregular)] at hrefuse
      rw [Program.follow_ok hrefuse]
      simp only [if_pos hregular]
      rfl
    · rw [if_pos hregular] at hrefuse
      rw [Program.follow_error hrefuse]
      simp only [if_neg hregular]

theorem follow_readRegular (d : Disk) (name : Name) (limit : Nat) :
    (readRegular name limit).run.follow Disk.does d = (d.reads name limit, d) := by
  have hopen := follow_openRegular d name
  rw [readRegular, Disk.reads]
  cases hfound : d.opens name with
  | error e =>
    rw [hfound] at hopen
    exact Program.follow_error hopen
  | ok node =>
    rw [hfound] at hopen
    have hread : (use (.read node)).run.follow Disk.does d = (.ok (d.object node).bytes, d) := by
      show ((d.does (.read node)).1, d) = _
      simp only [Disk.does, (Disk.opens_ok hfound).2]
      rfl
    rw [Program.follow_ok hopen, readBounded, Program.follow_ok hread]
    have hrefuse := follow_refuseIf d (limit < (d.object node).bytes.length) .invalidData
    by_cases hlong : limit < (d.object node).bytes.length
    · rw [if_pos hlong] at hrefuse
      rw [Program.follow_error hrefuse]
      simp only [if_pos hlong]
    · rw [if_neg hlong] at hrefuse
      rw [Program.follow_ok hrefuse]
      simp only [if_neg hlong]
      rfl

theorem follow_resultOf {α : Type} {task : Task α} {d d' : Disk} {r : Except Errno α}
    (h : task.run.follow Disk.does d = (r, d')) :
    (resultOf task).run.follow Disk.does d = (.ok r, d') := by
  show (task.run >>= fun r => pure (Except.ok r)).follow Disk.does d = _
  rw [Program.follow_bind, h]
  rfl

theorem follow_readManifest (d : Disk) (entry : Entry) (generation : Generation) :
    (readManifest entry generation).run.follow Disk.does d =
      (d.readsManifest entry generation, d) := by
  have hread := follow_readRegular d (.entry entry) MANIFEST_LIMIT
  rw [readManifest, Disk.readsManifest]
  cases hbytes : d.reads (.entry entry) MANIFEST_LIMIT with
  | error e =>
    rw [hbytes] at hread
    exact Program.follow_error hread
  | ok bytes =>
    rw [hbytes] at hread
    rw [Program.follow_ok hread]
    rfl

theorem follow_regularChild (d : Disk) (entry : Entry) :
    (regularChild entry).run.follow Disk.does d = (.ok (isOk (d.opens (.entry entry))), d) := by
  rw [regularChild, Program.follow_ok (follow_resultOf (follow_openRegular d (.entry entry)))]
  rfl

/-- The records always give a state, damaged or not. -/
theorem follow_stateFrom (d : Disk) (states : List CommitState) (invalid : Bool) :
    ∃ state, (stateFrom states invalid).run.follow Disk.does d = (.ok state, d) := by
  induction states generalizing invalid with
  | nil => exact ⟨.unverified, rfl⟩
  | cons state states ih =>
    rw [stateFrom, Program.follow_ok (follow_resultOf (follow_readRegular d _ 128))]
    split
    · split
      · exact ⟨_, rfl⟩
      · exact ih true
    · exact ih invalid
    · exact ih true

theorem recoveryOf_listed {place : Place} {manifest : Manifest} (state : CommitState)
    (authority : Except Errno Manifest) (displaced : Bool)
    (habsolute : isAbsolute manifest.target = true)
    (hparent : parentOf manifest.target = some place.folder) :
    ∃ recovery, recoveryOf place state (.ok manifest) authority true displaced = some recovery ∧
      recovery.target = some manifest.target ∧
      recovery.displaced = (manifest.mode == .replace && displaced) := by
  have hnamed : (Except.ok manifest : Except Errno _).toOption.orElse
      (fun _ => authority.toOption) = some manifest := rfl
  simp only [recoveryOf, hnamed, habsolute, hparent, and_self, if_true]
  rw [if_neg (by simp), if_neg (by simp)]
  exact ⟨_, rfl, rfl, rfl⟩

/-- What `inspect` says of a transaction that recorded its manifest and is not held. -/
theorem follow_inspect {place : Place} {manifest : Manifest} (hfolder : d.folder = true)
    (hlease : d.exclusive = false) (hplace : d.place < 4096)
    (hmanifest : d.readsManifest .manifest generation = .ok manifest)
    (habsolute : isAbsolute manifest.target = true)
    (hparent : parentOf manifest.target = some place.folder)
    (heditor : isOk (d.opens (.entry .editor)) = true) :
    ∃ recovery, ((inspect place generation).run.follow Disk.does d).1 = .ok (some recovery) ∧
      recovery.target = some manifest.target ∧
      recovery.displaced = (manifest.mode == .replace && isOk (d.opens (.entry .displaced))) := by
  have hlisted : (use .listed).run.follow Disk.does d = (.ok true, d) := by
    show (Except.ok (d.folder && decide (d.place < 4096)), d) = _
    rw [hfolder, decide_eq_true hplace]
    rfl
  have hcancelled : (use .checkCancelled).run.follow Disk.does d = (.ok (), d) := rfl
  rw [inspect, Program.follow_ok hlisted, Program.follow_ok hcancelled, if_pos rfl]
  have hopen : (use .openFolder).run.follow Disk.does d = (.ok (), d) := by
    show ((if d.folder then _ else _), d) = _
    rw [hfolder]
    rfl
  -- The lease changes nothing that is read.
  obtain ⟨d₁, hshared, hnames, hobject⟩ : ∃ d₁ : Disk,
      (use .leaseShared).run.follow Disk.does d = (.ok (), d₁) ∧ d₁.names = d.names ∧
        d₁.object = d.object := by
    by_cases hflock : d.flock = false
    · exact ⟨d, if_pos hflock, rfl, rfl⟩
    · refine ⟨{ d with leases := d.leases + 1 }, ?_, rfl, rfl⟩
      refine (if_neg hflock).trans (if_neg ?_)
      rw [hlease]
      exact fun h => nomatch h
  have hsame (name : Name) : d₁.opens name = d.opens name := by
    simp only [Disk.opens, hnames, hobject]
  have hmanifest₁ : d₁.readsManifest .manifest generation = .ok manifest := by
    rw [← hmanifest]
    simp only [Disk.readsManifest, Disk.reads, hsame, hobject]
  have hopened : (do use .openFolder; use .leaseShared : Task Unit).run.follow Disk.does d =
      (.ok (), d₁) := (Program.follow_ok hopen).trans hshared
  obtain ⟨state, hstate⟩ := follow_stateFrom d₁ recordOrder false
  have hrelease : (use .release).run.follow Disk.does d₁ =
      (.ok (), { d₁ with leases := d₁.leases - 1 }) := rfl
  obtain ⟨recovery, hrecovery, htarget, hdisplaced⟩ := recoveryOf_listed state
    (d₁.readsManifest .authority generation) (isOk (d.opens (.entry .displaced))) habsolute hparent
  refine ⟨recovery, ?_, htarget, hdisplaced⟩
  have hread := follow_resultOf (follow_readManifest d₁ .manifest generation)
  rw [hmanifest₁] at hread
  have hproposed := follow_regularChild d₁ .editor
  rw [hsame, heditor] at hproposed
  have hother := follow_regularChild d₁ .displaced
  rw [hsame] at hother
  rw [inspectEntry, Program.follow_ok (follow_resultOf hopened)]
  show (Program.follow Disk.does (ExceptT.run (_ >>= _)) d₁).1 = _
  rw [Program.follow_ok (show stateFromRecords.run.follow Disk.does d₁ = _ from hstate),
    Program.follow_ok hread,
    Program.follow_ok (follow_resultOf (follow_readManifest d₁ .authority generation)),
    Program.follow_ok hproposed, Program.follow_ok hother, Program.follow_ok hrelease, hrecovery]
  rfl

/-! ## §6 A whole save -/

/-- `inspect` lists the transaction with its target, and with what was displaced where that is a
file; the editor version is always named with them. -/
def Listed (generation : Generation) (request : Request) (plan : Plan) (d : Disk) : Prop :=
  ∀ place : Place, isAbsolute request.target = true →
    parentOf request.target = some place.folder → plan.manifest.length ≤ MANIFEST_LIMIT →
    plan.place < 4096 →
    ∃ recovery, ((inspect place generation).run.follow Disk.does d).1 = .ok (some recovery) ∧
      recovery.target = some request.target ∧
      recovery.displaced = (request.mode == .replace && isOk (d.opens (.entry .displaced)))

theorem Sheltered.listed (h : Sheltered plan w) (hplan : Plan.Of generation request d₀ plan) :
    Listed generation request plan w.disk := by
  intro place habsolute hparent hlimit hplace
  have hopens {entry : Entry} {bytes : Bytes}
      (hfile : w.disk.file (.entry entry) = some ⟨.regular, bytes⟩) :
      ∃ node, w.disk.opens (.entry entry) = .ok node ∧ (w.disk.object node).bytes = bytes := by
    obtain ⟨node, hnode, hobject⟩ := names_of_file hfile
    refine ⟨node, ?_, by rw [hobject]⟩
    simp only [Disk.opens, hnode, hobject, if_true]
  obtain ⟨node, hopen, hbytes⟩ := hopens h.manifest
  obtain ⟨_, heditor, -⟩ := hopens h.editor
  have hmanifest : w.disk.readsManifest .manifest generation =
      .ok ⟨request.target, request.mode⟩ := by
    simp only [Disk.readsManifest, Disk.reads, hopen, hbytes, if_neg (Nat.not_lt.mpr hlimit)]
    exact parseManifest_manifestBytes hplan.manifest
  refine @follow_inspect w.disk generation place ⟨request.target, request.mode⟩ h.folder h.lease
    (h.place ▸ hplace) hmanifest habsolute hparent ?_
  rw [heditor]
  rfl

/-- While others change the target name and any operation may fail, `prepare` and `abort`
displace nothing.  Up to its cleanup a prepared transaction has the proposed bytes, and every
version that `commit` displaced, and `inspect` lists it; what stood at the target name keeps a
name where the filesystem has guarded renames.  A publication step that failed has put the
version back, unless an object that is neither it nor the staged one has the name, or an
operation that puts it back was refused too. -/
theorem save_loses_no_version (htidy : Tidy d₀) (hlease : d₀.exclusive = false)
    {r : Option (Except Errno Prepared)}
    (hprepare : Run Publishing.machine (Publishing.start d₀) (prepare generation request).run r w) :
    (w.version = none ∧ w.overwrote = false) ∧
    ∀ prepared, r = some (.ok prepared) → ∃ plan, Plan.Of generation request d₀ plan ∧
      (∀ r' w', Run Publishing.machine w (commit prepared).run r' w' →
        Sheltered plan w' ∧ Listed generation request plan w'.disk) ∧
      (∀ w₁ e w', Run Publishing.machine w (use .stillNamed).run (some (.ok ())) w₁ →
        Run Publishing.machine w₁ (publication request.mode request.strategy).run
          (some (.error e)) w' → Withdrawn request.strategy (w₁.disk.names .stage) w') ∧
      ∀ r' w', Run Publishing.machine w (abort prepared).run r' w' →
        w'.version = none ∧ w'.overwrote = false := by
  have hstart : Preparing d₀ (Publishing.start d₀) := ⟨htidy, rfl, rfl, rfl, hlease, rfl, rfl⟩
  obtain ⟨hpreparing, hprepared⟩ := (prepare_meets hstart).run hprepare
  refine ⟨⟨hpreparing.version, hpreparing.overwrote⟩, fun prepared hr => ?_⟩
  obtain ⟨-, hstrategy, plan, hplan, hready⟩ := hprepared _ hr prepared rfl
  refine ⟨plan, hplan, fun r' w' hcommit => ?_, fun w₁ e w' hnamed hpublication => ?_,
    fun r' w' habort => ?_⟩
  · have hsheltered :=
      ((commit_meets hready (hstrategy.trans hplan.strategy.symm)).run hcommit).1
    exact ⟨hsheltered, hsheltered.listed hplan⟩
  · have hready₁ : Ready plan w₁ := by
      have hidle : (use .stillNamed).run.Uses Op.idle := Program.Uses.ask trivial
      obtain ⟨hsheltered, hrests⟩ := (Meets.idles hidle hready.sheltered hready.sheltered.tidy
        fun _ _ hw hrests htidy => hw.rests hrests htidy).run hnamed
      obtain ⟨hrests, htidy⟩ := hrests _ rfl
      exact hready.rests hrests htidy
    rw [← hplan.strategy] at hpublication ⊢
    exact ((publication_meets hready₁).run hpublication).2 _ rfl e rfl
  · have haborted := ((Preparing.gentle (gentle_abort prepared) hpreparing).run habort).1
    exact ⟨haborted.version, haborted.overwrote⟩

/-! ### A save of a letter -/

/-- `/d/letter` and its stage, on a filesystem without exchange. -/
def letterDisk : Disk where
  names := fun name =>
    match name with
    | .target => some 0
    | .stage => some 1
    | .entry _ => none
  object := fun node => ⟨.regular, if node = 0 then ascii "old" else ascii "new"⟩
  fresh := 2
  folder := false
  foreign := []
  place := 0
  flock := true
  noReplace := true
  exchange := false
  leases := 0
  exclusive := false

def letterRequest : Request := ⟨ascii "/d/letter", .replace, .renameReplace, true, true, false⟩

theorem letter_tidy : Tidy letterDisk where
  fresh name node hnode := by
    cases name <;> simp only [letterDisk] at hnode <;> cases hnode <;> decide
  apart a b node ha hb := by
    cases a <;> cases b <;> simp only [letterDisk] at ha hb <;> cases ha <;> first | rfl | cases hb

/-- Nothing fails, and nobody else acts. -/
def Publishing.answers (w : Publishing) (op : Op) : op.Answer × Publishing :=
  ((w.disk.does op).1, w.after w.disk op (w.disk.does op).1 (w.disk.does op).2)

theorem Publishing.answers_machine (w : Publishing) (op : Op) :
    Publishing.machine w op (w.answers op).1 (w.answers op).2 :=
  ⟨w.disk, _, .refl, Or.inl rfl, rfl⟩

/-- The letter is prepared. -/
def letterPrepared : Publishing :=
  ((prepare 7 letterRequest).run.follow Publishing.answers (Publishing.start letterDisk)).2

theorem letterPrepared_run :
    Run Publishing.machine (Publishing.start letterDisk) (prepare 7 letterRequest).run
      (some (.ok ⟨.replace, .renameReplace, 7, 3⟩)) letterPrepared := by
  have hrun := Run.follow (fun w op => Publishing.answers_machine w op)
    (prepare 7 letterRequest).run (Publishing.start letterDisk)
  have hresult : ((prepare 7 letterRequest).run.follow Publishing.answers
      (Publishing.start letterDisk)).1 = .ok ⟨.replace, .renameReplace, 7, 3⟩ := by
    decide +kernel
  rw [hresult] at hrun
  exact hrun

theorem save_loses_no_version_letter :
    (letterPrepared.version = none ∧ letterPrepared.overwrote = false) ∧
    ∃ plan, Plan.Of 7 letterRequest letterDisk plan ∧
      (∀ r w, Run Publishing.machine letterPrepared
        (commit ⟨.replace, .renameReplace, 7, 3⟩).run r w →
          Sheltered plan w ∧ Listed 7 letterRequest plan w.disk) ∧
      (∀ w₁ e w, Run Publishing.machine letterPrepared (use .stillNamed).run (some (.ok ())) w₁ →
        Run Publishing.machine w₁ (publication .replace .renameReplace).run (some (.error e)) w →
          Withdrawn .renameReplace (w₁.disk.names .stage) w) ∧
      ∀ r w, Run Publishing.machine letterPrepared
        (abort ⟨.replace, .renameReplace, 7, 3⟩).run r w →
          w.version = none ∧ w.overwrote = false := by
  obtain ⟨hprepared, hsaves⟩ := save_loses_no_version letter_tidy rfl letterPrepared_run
  exact ⟨hprepared, hsaves _ rfl⟩

/-- The renames onto the target name fail. -/
def Publishing.withholds (w : Publishing) (op : Op) : op.Answer × Publishing :=
  match op with
  | .renameNoReplace source .target =>
    (.error .io, w.after w.disk (.renameNoReplace source .target) (.error .io) w.disk)
  | op => w.answers op

theorem Publishing.withholds_machine (w : Publishing) (op : Op) :
    Publishing.machine w op (w.withholds op).1 (w.withholds op).2 := by
  unfold Publishing.withholds
  split
  · next source =>
    exact ⟨w.disk, w.disk, .refl,
      Or.inr ⟨rfl, fun h => (nomatch h), .io, rfl, rfl, Or.inl rfl⟩, rfl⟩
  · exact w.answers_machine op

/-- Where putting the version back fails too, a publication step returns its error with nothing
at the target name, though nobody took it. -/
theorem failed_save_leaves_no_target :
    Run Publishing.machine (Publishing.start letterDisk) (prepare 7 letterRequest).run
      (some (.ok ⟨.replace, .renameReplace, 7, 3⟩)) letterPrepared ∧
    letterDisk.names .target = some 0 ∧
    ∃ w, Run Publishing.machine letterPrepared (publication .replace .renameReplace).run
      (some (.error .io)) w ∧ w.disk.names .target = none := by
  refine ⟨letterPrepared_run, rfl, ?_⟩
  have hrun := Run.follow (fun w op => Publishing.withholds_machine w op)
    (publication .replace .renameReplace).run letterPrepared
  have hresult : ((publication .replace .renameReplace).run.follow Publishing.withholds
      letterPrepared).1 = .error .io := by
    decide +kernel
  rw [hresult] at hrun
  exact ⟨_, hrun, by decide +kernel⟩

end BareLine.SaveTransaction
