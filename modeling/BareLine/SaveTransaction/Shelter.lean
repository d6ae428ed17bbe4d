import BareLine.SaveTransaction.Commit

/-!
# What a save transaction keeps

- §1: directories with other processes.
- §2: one operation.
- §3: what holds at every moment.
- §4: new entries.
- §5: renaming.
-/

namespace BareLine.SaveTransaction

open Lib

variable {d d' d'' : Disk}

/-! ## §1 Directories with other processes -/

/-- Every object has at most one of the names, and is not new. -/
structure Tidy (d : Disk) : Prop where
  fresh : ∀ name node, d.names name = some node → node < d.fresh
  apart : ∀ a b node, d.names a = some node → d.names b = some node → a = b

/-- Nothing but the target name changes. -/
structure Steady (d d' : Disk) : Prop where
  names : ∀ name, name ≠ .target → d'.names name = d.names name
  object : ∀ node, node < d.fresh → d'.object node = d.object node
  fresh : d.fresh ≤ d'.fresh
  folder : d'.folder = d.folder
  exclusive : d'.exclusive = d.exclusive
  place : d'.place = d.place
  noReplace : d'.noReplace = d.noReplace

theorem Steady.refl (d : Disk) : Steady d d :=
  ⟨fun _ _ => rfl, fun _ _ => rfl, Nat.le_refl _, rfl, rfl, rfl, rfl⟩

theorem Steady.trans (h : Steady d d') (h' : Steady d' d'') : Steady d d'' where
  names name hname := (h'.names name hname).trans (h.names name hname)
  object node hnode :=
    (h'.object node (Nat.lt_of_lt_of_le hnode h.fresh)).trans (h.object node hnode)
  fresh := Nat.le_trans h.fresh h'.fresh
  folder := h'.folder.trans h.folder
  exclusive := h'.exclusive.trans h.exclusive
  place := h'.place.trans h.place
  noReplace := h'.noReplace.trans h.noReplace

theorem Steady.file (h : Steady d d') (htidy : Tidy d) {name : Name} (hname : name ≠ .target) :
    d'.file name = d.file name := by
  rw [Disk.file, Disk.file, h.names name hname]
  cases hnode : d.names name with
  | none => rfl
  | some node => rw [Option.map_some, Option.map_some, h.object node (htidy.fresh name node hnode)]

theorem Tidy.unset (h : Tidy d) (name : Name) : Tidy (d.setName name none) where
  fresh other node hnode := by
    rw [Disk.setName_names] at hnode
    split at hnode
    · cases hnode
    · exact h.fresh other node hnode
  apart a b node ha hb := by
    rw [Disk.setName_names] at ha hb
    split at ha
    · cases ha
    · split at hb
      · cases hb
      · exact h.apart a b node ha hb

/-- An object may be given a name if it has no other. -/
theorem Tidy.set (h : Tidy d) {name : Name} {node : Node} (hknown : node < d.fresh)
    (hother : ∀ other, other ≠ name → d.names other ≠ some node) :
    Tidy (d.setName name (some node)) where
  fresh other found hfound := by
    rw [Disk.setName_names] at hfound
    split at hfound
    · cases hfound
      exact hknown
    · exact h.fresh other found hfound
  apart a b found ha hb := by
    rw [Disk.setName_names] at ha hb
    split at ha
    · next hta =>
      split at hb
      · next htb => exact hta.trans htb.symm
      · next htb =>
        cases ha
        exact absurd hb (hother b htb)
    · next hta =>
      split at hb
      · cases hb
        exact absurd ha (hother a hta)
      · exact h.apart a b found ha hb

/-- A new object has one name. -/
theorem Tidy.withObject (h : Tidy d) (name : Name) (object : Object) :
    Tidy (d.withObject name object) where
  fresh other node hnode := by
    rw [Disk.withObject_names] at hnode
    show node < d.fresh + 1
    split at hnode
    · cases hnode
      exact Nat.lt_succ_self _
    · exact Nat.lt_succ_of_lt (h.fresh other node hnode)
  apart a b node ha hb := by
    rw [Disk.withObject_names] at ha hb
    split at ha
    · next hta =>
      split at hb
      · next htb => exact hta.trans htb.symm
      · cases ha
        exact absurd (h.fresh b _ hb) (Nat.lt_irrefl _)
    · split at hb
      · cases hb
        exact absurd (h.fresh a _ ha) (Nat.lt_irrefl _)
      · exact h.apart a b node ha hb

/-- Another process changes the target name only. -/
theorem Outside.steady (htidy : Tidy d) (h : Outside d d') : Steady d d' ∧ Tidy d' := by
  cases h with
  | removes =>
    refine ⟨⟨fun name hname => ?_, fun _ _ => rfl, Nat.le_refl _, rfl, rfl, rfl, rfl⟩,
      htidy.unset _⟩
    rw [Disk.setName_names, if_neg hname]
  | creates object =>
    refine ⟨⟨fun name hname => ?_, fun node hnode => ?_, Nat.le_succ _, rfl, rfl, rfl, rfl⟩,
      htidy.withObject _ _⟩
    · rw [Disk.withObject_names, if_neg hname]
    · rw [Disk.withObject_object, if_neg (Nat.ne_of_lt hnode)]
  | brings node hknown hother =>
    refine ⟨⟨fun name hname => ?_, fun _ _ => rfl, Nat.le_refl _, rfl, rfl, rfl, rfl⟩,
      htidy.set hknown hother⟩
    rw [Disk.setName_names, if_neg hname]

theorem steady_of_outside (htidy : Tidy d) (h : Relation.ReflTransGen Outside d d') :
    Steady d d' ∧ Tidy d' := by
  induction h with
  | refl => exact ⟨.refl d, htidy⟩
  | tail _ hstep ih =>
    obtain ⟨hsteady, htidy'⟩ := hstep.steady ih.2
    exact ⟨ih.1.trans hsteady, htidy'⟩

/-! ## §2 One operation -/

variable {I : Publishing → Prop} {w w' : Publishing}

/-- One operation, after what others did. -/
theorem Meets.act {op : Op} {post : op.Answer → Publishing → Prop} (hI : I w)
    (htidy : Tidy w.disk)
    (hstep : ∀ d answer d', Steady w.disk d → Tidy d → Performs true d op answer d' →
      I (w.after d op answer d') ∧ post answer (w.after d op answer d')) :
    Meets Publishing.machine I (use op).run post w := by
  refine Meets.ask hI ?_
  rintro answer _ ⟨d, d', houtside, hperforms, rfl⟩
  obtain ⟨hsteady, htidy'⟩ := steady_of_outside htidy houtside
  exact hstep d answer d' hsteady htidy' hperforms

/-- The names and the objects are the same, and what the transaction did. -/
structure Rests (w w' : Publishing) : Prop where
  steady : Steady w.disk w'.disk
  version : w'.version = w.version
  out : w'.out = w.out
  overwrote : w'.overwrote = w.overwrote

theorem Rests.refl (w : Publishing) : Rests w w := ⟨.refl _, rfl, rfl, rfl⟩

theorem Rests.trans {w'' : Publishing} (h : Rests w w') (h' : Rests w' w'') : Rests w w'' :=
  ⟨h.steady.trans h'.steady, h'.version.trans h.version, h'.out.trans h.out,
    h'.overwrote.trans h.overwrote⟩

/-- An operation that leaves names and objects. -/
def Op.idle : Op → Prop
  | .stat _ | .openAny _ | .kind _ | .read _ | .sync | .checkCancelled | .setMetadata _
  | .stillNamed | .openFolder | .leaseShared | .list | .listed => True
  | _ => False

theorem Disk.does_idle {op : Op} (hidle : op.idle) (d : Disk) :
    (d.does op).2.names = d.names ∧ (d.does op).2.object = d.object ∧
      (d.does op).2.fresh = d.fresh ∧ (d.does op).2.folder = d.folder ∧
      (d.does op).2.exclusive = d.exclusive ∧ (d.does op).2.place = d.place ∧
      (d.does op).2.noReplace = d.noReplace := by
  cases op with
  | leaseShared =>
    simp only [Disk.does]
    split
    · exact ⟨rfl, rfl, rfl, rfl, rfl, rfl, rfl⟩
    · split <;> exact ⟨rfl, rfl, rfl, rfl, rfl, rfl, rfl⟩
  | stat name | openAny name | kind node | read node | sync | checkCancelled | setMetadata node
  | stillNamed | openFolder | list | listed => exact ⟨rfl, rfl, rfl, rfl, rfl, rfl, rfl⟩
  | _ => exact absurd hidle id

theorem loses_same (h : d'.names = d.names) : Publishing.loses d d' = false := by
  unfold Publishing.loses
  split
  · rfl
  · next node hnode => rw [h, hnode]; simp

theorem versionAfter_idle {op : Op} {answer : op.Answer} (hidle : op.idle) :
    w.versionAfter d d' op answer = (w.version, w.out) := by
  cases op <;> first | exact absurd hidle id | rfl

theorem Rests.after {op : Op} {answer : op.Answer} (hidle : op.idle) (hsteady : Steady w.disk d)
    (hperforms : Performs true d op answer d') :
    Rests w (w.after d op answer d') ∧ d'.names = d.names ∧ d'.object = d.object ∧
      d'.fresh = d.fresh := by
  have hsame : d'.names = d.names ∧ d'.object = d.object ∧ d'.fresh = d.fresh ∧
      d'.folder = d.folder ∧ d'.exclusive = d.exclusive ∧ d'.place = d.place ∧
      d'.noReplace = d.noReplace := by
    rcases hperforms with hdoes | ⟨-, -, e, -, -, rfl | ⟨node, bytes, k, rfl, -⟩⟩
    · rw [show d' = (d.does op).2 from congrArg Prod.snd hdoes]
      exact Disk.does_idle hidle d
    · exact ⟨rfl, rfl, rfl, rfl, rfl, rfl, rfl⟩
    · exact absurd hidle id
  obtain ⟨hnames, hobject, hfresh, hfolder, hexclusive, hplace, hno⟩ := hsame
  have hsteady' : Steady d d' :=
    ⟨fun _ _ => congrFun hnames _, fun _ _ => congrFun hobject _, Nat.le_of_eq hfresh.symm,
      hfolder, hexclusive, hplace, hno⟩
  refine ⟨⟨hsteady.trans hsteady', ?_, ?_, ?_⟩, hnames, hobject, hfresh⟩
  · show (w.versionAfter d d' op answer).1 = w.version
    rw [versionAfter_idle hidle]
  · show (w.versionAfter d d' op answer).2 = w.out
    rw [versionAfter_idle hidle]
  · show (w.overwrote || Publishing.loses d d') = w.overwrote
    rw [loses_same hnames, Bool.or_false]

theorem Tidy.same (h : Tidy d) (hnames : d'.names = d.names) (hfresh : d'.fresh = d.fresh) :
    Tidy d' where
  fresh name node hnode := by
    rw [hfresh]
    exact h.fresh name node (hnames ▸ hnode)
  apart a b node ha hb := h.apart a b node (hnames ▸ ha) (hnames ▸ hb)

/-- Looking changes nothing, and a success says what is there. -/
theorem Meets.idle {op : Op} (hidle : op.idle) (hI : I w) (htidy : Tidy w.disk)
    (hrests : ∀ w', Rests w w' → Tidy w'.disk → I w') :
    Meets Publishing.machine I (use op).run (fun answer w' => Rests w w' ∧ Tidy w'.disk ∧
      (∀ a, answer = .ok a → op = .leaseShared ∨ (w'.disk.does op).1 = .ok a) ∧
      ∀ e, answer = .error e → w'.refused = (op, e) :: w.refused) w := by
  refine Meets.act hI htidy fun d answer d' hsteady htidy' hperforms => ?_
  obtain ⟨hafter, hnames, hobject, hfresh⟩ := Rests.after hidle hsteady hperforms
  have htidy'' : Tidy d' := htidy'.same hnames hfresh
  refine ⟨hrests _ hafter htidy'', hafter, htidy'', fun a ha => ?_, fun e he => ?_⟩
  · by_cases hop : op = .leaseShared
    · exact Or.inl hop
    · rcases hperforms with hdoes | ⟨-, -, e, -, herror, -⟩
      · have hd : (d.does op).2 = d := by
          cases op <;> first | exact absurd hidle id | exact absurd rfl hop | rfl
        have hsame : d' = d := (congrArg Prod.snd hdoes).trans hd
        refine Or.inr ?_
        show (d'.does op).1 = .ok a
        rw [hsame, ← ha]
        exact (congrArg Prod.fst hdoes).symm
      · rw [ha] at herror
        cases herror
  · subst he
    rfl

/-- A check that ends the procedure. -/
theorem Meets.refuse {β : Type} {c : Prop} [Decidable c] {error : Errno} {f : Unit → Task β}
    {posts : Except Errno β → Publishing → Prop} (hI : I w) (hyes : c → posts (.error error) w)
    (hno : ¬ c → Meets Publishing.machine I (f ()).run posts w) :
    Meets Publishing.machine I (refuseIf c error >>= f).run posts w := by
  unfold refuseIf
  by_cases hc : c
  · rw [if_pos hc]
    exact Meets.andThen (Meets.pure hI (hyes hc))
  · rw [if_neg hc]
    exact Meets.andThen (Meets.pure hI (hno hc))

/-! ## §3 What holds at every moment -/

def Disk.bytesAt (d : Disk) (name : Name) : Option Bytes := (d.file name).map Object.bytes

/-- What a prepared transaction holds. -/
structure Plan where
  strategy : SaveStrategy
  manifest : Bytes
  proposed : Bytes
  place : Nat

/-- The proposed bytes are complete, nothing was overwritten, and a version that is out is in
the transaction, or at the stage name where names are exchanged. -/
structure Sheltered (plan : Plan) (w : Publishing) : Prop where
  tidy : Tidy w.disk
  folder : w.disk.folder = true
  lease : w.disk.exclusive = false
  place : w.disk.place = plan.place
  manifest : w.disk.file (.entry .manifest) = some ⟨.regular, plan.manifest⟩
  editor : w.disk.file (.entry .editor) = some ⟨.regular, plan.proposed⟩
  overwrote : w.disk.noReplace = true → w.overwrote = false
  version : w.out = true → ∃ node bytes, w.version = some (node, bytes) ∧
    (w.disk.bytesAt (.entry .displaced) = some bytes ∨
      plan.strategy = .transactional ∧ w.disk.bytesAt .stage = some bytes)

/-- The version is at a name. -/
def At (name : Name) (w : Publishing) : Prop :=
  ∃ node bytes, w.version = some (node, bytes) ∧ w.disk.names name = some node ∧
    (w.disk.object node).bytes = bytes

variable {plan : Plan} {entry : Entry} {node : Node}

theorem entry_ne_target (entry : Entry) : Name.entry entry ≠ .target := fun h => nomatch h

theorem stage_ne_target : Name.stage ≠ .target := fun h => nomatch h

theorem stage_ne_entry (entry : Entry) : Name.stage ≠ .entry entry := fun h => nomatch h

theorem Steady.bytesAt (h : Steady d d') (htidy : Tidy d) {name : Name} (hname : name ≠ .target) :
    d'.bytesAt name = d.bytesAt name := by
  rw [Disk.bytesAt, Disk.bytesAt, h.file htidy hname]

theorem Sheltered.rests (h : Sheltered plan w) (hw : Rests w w') (htidy : Tidy w'.disk) :
    Sheltered plan w' where
  tidy := htidy
  folder := hw.steady.folder.trans h.folder
  lease := hw.steady.exclusive.trans h.lease
  place := hw.steady.place.trans h.place
  manifest := (hw.steady.file h.tidy (entry_ne_target _)).trans h.manifest
  editor := (hw.steady.file h.tidy (entry_ne_target _)).trans h.editor
  overwrote hno := hw.overwrote.trans (h.overwrote (hw.steady.noReplace ▸ hno))
  version hout := by
    rw [hw.steady.bytesAt h.tidy (entry_ne_target _), hw.steady.bytesAt h.tidy stage_ne_target,
      hw.version]
    exact h.version (hw.out ▸ hout)

theorem At.rests {name : Name} (h : At name w) (hname : name ≠ .target) (htidy : Tidy w.disk)
    (hw : Rests w w') : At name w' := by
  obtain ⟨node, bytes, hversion, hnode, hbytes⟩ := h
  refine ⟨node, bytes, hw.version.trans hversion, (hw.steady.names name hname).trans hnode, ?_⟩
  rw [hw.steady.object node (htidy.fresh name node hnode)]
  exact hbytes

/-- An operation that looks. -/
theorem Sheltered.look {op : Op} (hidle : op.idle) (h : Sheltered plan w) :
    Meets Publishing.machine (Sheltered plan) (use op).run (fun answer w' => Rests w w' ∧
      Sheltered plan w' ∧
      (∀ a, answer = .ok a → op = .leaseShared ∨ (w'.disk.does op).1 = .ok a) ∧
      ∀ e, answer = .error e → w'.refused = (op, e) :: w.refused) w :=
  (Meets.idle hidle h h.tidy fun _ hw htidy => h.rests hw htidy).weaken
    fun _ _ hsheltered hpost => ⟨hpost.1, hsheltered, hpost.2.2⟩

/-! ## §4 New entries -/

/-- An entry was created. -/
structure Born (entry : Entry) (node : Node) (w w' : Publishing) : Prop where
  tidy : Tidy w'.disk
  was : w.disk.names (.entry entry) = none
  name : w'.disk.names (.entry entry) = some node
  object : w'.disk.object node = ⟨.regular, []⟩
  names : ∀ name, name ≠ .target → name ≠ .entry entry → w'.disk.names name = w.disk.names name
  objects : ∀ other, other < w.disk.fresh → w'.disk.object other = w.disk.object other
  new : w.disk.fresh ≤ node
  fresh : w.disk.fresh ≤ w'.disk.fresh
  folder : w'.disk.folder = w.disk.folder
  exclusive : w'.disk.exclusive = w.disk.exclusive
  place : w'.disk.place = w.disk.place
  noReplace : w'.disk.noReplace = w.disk.noReplace
  version : w'.version = w.version
  out : w'.out = w.out
  overwrote : w'.overwrote = w.overwrote

/-- An object of the folder may hold something else. -/
structure Edits (node : Node) (w w' : Publishing) : Prop where
  tidy : Tidy w'.disk
  names : ∀ name, name ≠ .target → w'.disk.names name = w.disk.names name
  objects : ∀ other, other < w.disk.fresh → other ≠ node →
    w'.disk.object other = w.disk.object other
  kind : node < w.disk.fresh → (w'.disk.object node).kind = (w.disk.object node).kind
  fresh : w.disk.fresh ≤ w'.disk.fresh
  folder : w'.disk.folder = w.disk.folder
  exclusive : w'.disk.exclusive = w.disk.exclusive
  place : w'.disk.place = w.disk.place
  noReplace : w'.disk.noReplace = w.disk.noReplace
  version : w'.version = w.version
  out : w'.out = w.out
  overwrote : w'.overwrote = w.overwrote

theorem Rests.edits (h : Rests w w') (htidy : Tidy w'.disk) (node : Node) : Edits node w w' :=
  ⟨htidy, h.steady.names, fun other hother _ => h.steady.object other hother,
    fun hnode => by rw [h.steady.object node hnode], h.steady.fresh, h.steady.folder,
    h.steady.exclusive, h.steady.place, h.steady.noReplace, h.version, h.out, h.overwrote⟩

theorem Born.file (h : Born entry node w w') (htidy : Tidy w.disk) {name : Name}
    (hname : name ≠ .target) (hother : name ≠ .entry entry) :
    w'.disk.file name = w.disk.file name := by
  rw [Disk.file, Disk.file, h.names name hname hother]
  cases hfound : w.disk.names name with
  | none => rfl
  | some found =>
    rw [Option.map_some, Option.map_some, h.objects found (htidy.fresh name found hfound)]

theorem Edits.file (h : Edits node w w') (htidy : Tidy w.disk) {name : Name}
    (hname : name ≠ .target) (hother : w.disk.names name ≠ some node) :
    w'.disk.file name = w.disk.file name := by
  rw [Disk.file, Disk.file, h.names name hname]
  cases hfound : w.disk.names name with
  | none => rfl
  | some found =>
    rw [Option.map_some, Option.map_some,
      h.objects found (htidy.fresh name found hfound) fun heq => hother (heq ▸ hfound)]

/-- Creating an entry. -/
theorem Meets.create {entry : Entry} (hI : I w) (htidy : Tidy w.disk)
    (hborn : ∀ node w', Born entry node w w' → I w')
    (hrests : ∀ w', Rests w w' → Tidy w'.disk → I w') :
    Meets Publishing.machine I (use (.create (.entry entry))).run (fun r w' =>
      (∀ node, r = .ok node → Born entry node w w') ∧ ∀ e, r = .error e → Rests w w' ∧
        Tidy w'.disk ∧ w'.refused = (.create (.entry entry), e) :: w.refused) w := by
  refine Meets.act hI htidy fun d answer d' hsteady htidy' hperforms => ?_
  have herror (e : Errno) (hanswer : answer = .error e) (hd : d' = d) :
      I (w.after d (.create (.entry entry)) answer d') ∧
        ((∀ node, answer = .ok node → Born entry node w
          (w.after d (.create (.entry entry)) answer d')) ∧
        ∀ e, answer = .error e → Rests w (w.after d (.create (.entry entry)) answer d') ∧
          Tidy d' ∧ (w.after d (.create (.entry entry)) answer d').refused =
            (.create (.entry entry), e) :: w.refused) := by
    subst hanswer hd
    have hsame : Rests w (w.after d' (.create (.entry entry)) (.error e) d') := by
      refine ⟨hsteady, rfl, rfl, ?_⟩
      show (w.overwrote || Publishing.loses d' d') = _
      rw [loses_same rfl, Bool.or_false]
    refine ⟨hrests _ hsame htidy', fun _ hok => (nomatch hok), fun e' he => ?_⟩
    cases he
    exact ⟨hsame, htidy', rfl⟩
  rcases hperforms with hdoes | ⟨-, -, e, -, hanswer, hd | ⟨node, bytes, k, hop, -⟩⟩
  · simp only [Disk.does] at hdoes
    split at hdoes
    · cases hdoes; exact herror _ rfl rfl
    · split at hdoes
      · cases hdoes; exact herror _ rfl rfl
      · next hnone =>
        cases hdoes
        have hnone : d.names (.entry entry) = none := by simpa using hnone
        have hnew : Born entry d.fresh w
            (w.after d (.create (.entry entry)) (.ok d.fresh) (d.withNew (.entry entry))) := by
          refine ⟨htidy'.withObject _ _, ?_, ?_, ?_, fun name hname hother => ?_,
            fun other hother => ?_, hsteady.fresh, ?_, hsteady.folder, hsteady.exclusive,
            hsteady.place, hsteady.noReplace, rfl, rfl, ?_⟩
          · rw [← hsteady.names _ (entry_ne_target entry)]
            exact hnone
          · show (d.withNew (.entry entry)).names (.entry entry) = _
            rw [Disk.withNew_names, if_pos rfl]
          · show (d.withNew (.entry entry)).object d.fresh = _
            rw [Disk.withNew_object, if_pos rfl]
          · show (d.withNew (.entry entry)).names name = _
            rw [Disk.withNew_names, if_neg hother]
            exact hsteady.names name hname
          · show (d.withNew (.entry entry)).object other = _
            rw [Disk.withNew_object,
              if_neg (Nat.ne_of_lt (Nat.lt_of_lt_of_le hother hsteady.fresh))]
            exact hsteady.object other hother
          · exact Nat.le_succ_of_le hsteady.fresh
          · show (w.overwrote || Publishing.loses d (d.withNew (.entry entry))) = _
            have hkept : Publishing.loses d (d.withNew (.entry entry)) = false := by
              unfold Publishing.loses
              split
              · rfl
              · next found hfound =>
                rw [Disk.withNew_names, if_neg (target_ne entry), hfound]
                simp
            rw [hkept, Bool.or_false]
        refine ⟨hborn _ _ hnew, fun node hnode => ?_, fun _ he => nomatch he⟩
        cases hnode
        exact hnew
  · exact herror e hanswer hd
  · cases hop

/-- Writing to an object of the folder. -/
theorem Meets.writeEntry {entry : Entry} {node : Node} (bytes : Bytes) (hI : I w)
    (htidy : Tidy w.disk) (hname : w.disk.names (.entry entry) = some node)
    (hedits : ∀ w', Edits node w w' → I w') :
    Meets Publishing.machine I (use (.write node bytes)).run (fun r w' => Edits node w w' ∧
      (r = .ok () → (w.disk.object node).bytes = [] → (w'.disk.object node).bytes = bytes) ∧
      ∀ e, r = .error e → w'.refused = (.write node bytes, e) :: w.refused) w := by
  refine Meets.act hI htidy fun d answer d' hsteady htidy' hperforms => ?_
  have hknown : node < w.disk.fresh := htidy.fresh _ _ hname
  have hhere : d.names (.entry entry) = some node :=
    (hsteady.names _ (entry_ne_target entry)).trans hname
  have hours : Publishing.foreignTo d node = false := by
    unfold Publishing.foreignTo
    rw [Bool.eq_false_iff]
    intro hall
    have := List.all_eq_true.mp hall entry entry.mem_all
    simp [hhere] at this
  have hkept (d' : Disk) : w.versionAfter d d' (.write node bytes) answer =
      (w.version, w.out) := by
    show (if Publishing.foreignTo d node then _ else (w.version, w.out)) = _
    rw [hours, if_neg (fun h => nomatch h)]
  have hwritten (content : Bytes) :
      Edits node w (w.after d (.write node bytes) answer (d.setBytes node content)) := by
    refine ⟨htidy'.same rfl rfl, hsteady.names, fun other hother hne => ?_, fun _ => ?_,
      hsteady.fresh, hsteady.folder, hsteady.exclusive, hsteady.place, hsteady.noReplace,
      congrArg Prod.fst (hkept _), congrArg Prod.snd (hkept _), ?_⟩
    · show (d.setBytes node content).object other = _
      rw [Disk.setBytes_object, if_neg hne]
      exact hsteady.object other hother
    · show ((d.setBytes node content).object node).kind = _
      rw [Disk.setBytes_object, if_pos rfl, hsteady.object node hknown]
    · show (w.overwrote || Publishing.loses d (d.setBytes node content)) = _
      rw [loses_same (show (d.setBytes node content).names = d.names from rfl), Bool.or_false]
  rcases hperforms with hdoes | ⟨-, -, e, -, hanswer, hd | ⟨node', bytes', k, hop, hd⟩⟩
  · simp only [Disk.does, Prod.mk.injEq] at hdoes
    obtain ⟨hanswer, rfl⟩ := hdoes
    refine ⟨hedits _ (hwritten _), hwritten _, fun _ hempty => ?_, fun e he => ?_⟩
    · show ((d.setBytes node _).object node).bytes = bytes
      rw [Disk.setBytes_object, if_pos rfl, hsteady.object node hknown, hempty, Disk.overwritten,
        List.drop_nil, List.append_nil]
    · rw [hanswer] at he
      cases he
  · subst hanswer hd
    have hsame : Rests w (w.after d' (.write node bytes) (.error e) d') := by
      refine ⟨hsteady, congrArg Prod.fst (hkept d'), congrArg Prod.snd (hkept d'), ?_⟩
      show (w.overwrote || Publishing.loses d' d') = _
      rw [loses_same rfl, Bool.or_false]
    have hedit := hsame.edits htidy' node
    exact ⟨hedits _ hedit, hedit, fun hok => (nomatch hok), fun e' he => by cases he; rfl⟩
  · cases hop
    subst hanswer hd
    exact ⟨hedits _ (hwritten _), hwritten _, fun hok => (nomatch hok),
      fun e' he => by cases he; rfl⟩

/-- The entries that a prepared transaction creates. -/
theorem Sheltered.born {entry : Entry} {node : Node} (h : Sheltered plan w)
    (hm : entry ≠ .manifest) (he : entry ≠ .editor) (hw : Born entry node w w') :
    Sheltered plan w' where
  tidy := hw.tidy
  folder := hw.folder.trans h.folder
  lease := hw.exclusive.trans h.lease
  place := hw.place.trans h.place
  manifest := (hw.file h.tidy (entry_ne_target _) (entry_ne hm.symm)).trans h.manifest
  editor := (hw.file h.tidy (entry_ne_target _) (entry_ne he.symm)).trans h.editor
  overwrote hno := hw.overwrote.trans (h.overwrote (hw.noReplace ▸ hno))
  version hout := by
    obtain ⟨found, bytes, hversion, hbytes⟩ := h.version (hw.out ▸ hout)
    refine ⟨found, bytes, hw.version.trans hversion, hbytes.imp (fun hat => ?_) fun hat => ?_⟩
    · by_cases hd : entry = .displaced
      · subst hd
        rw [Disk.bytesAt, file_of_none hw.was] at hat
        cases hat
      · rw [Disk.bytesAt, hw.file h.tidy (entry_ne_target _) (entry_ne (Ne.symm hd))]
        exact hat
    · refine ⟨hat.1, ?_⟩
      rw [Disk.bytesAt, hw.file h.tidy stage_ne_target (stage_ne_entry entry)]
      exact hat.2

/-- Writing an entry that is neither the manifest nor the editor version. -/
theorem Sheltered.edits {entry : Entry} {node : Node} (h : Sheltered plan w)
    (hm : entry ≠ .manifest) (he : entry ≠ .editor) (hd : entry = .displaced → w.out = false)
    (hname : w.disk.names (.entry entry) = some node) (hw : Edits node w w') :
    Sheltered plan w' := by
  have hother {name : Name} (hne : name ≠ .entry entry) : w.disk.names name ≠ some node :=
    fun heq => hne (h.tidy.apart _ _ _ heq hname)
  exact {
    tidy := hw.tidy
    folder := hw.folder.trans h.folder
    lease := hw.exclusive.trans h.lease
    place := hw.place.trans h.place
    manifest := (hw.file h.tidy (entry_ne_target _) (hother (entry_ne hm.symm))).trans h.manifest
    editor := (hw.file h.tidy (entry_ne_target _) (hother (entry_ne he.symm))).trans h.editor
    overwrote := fun hno => hw.overwrote.trans (h.overwrote (hw.noReplace ▸ hno))
    version := fun hout => by
      have hout : w.out = true := hw.out ▸ hout
      have hnot : entry ≠ .displaced := fun heq => by
        rw [hd heq] at hout
        cases hout
      obtain ⟨found, bytes, hversion, hbytes⟩ := h.version hout
      refine ⟨found, bytes, hw.version.trans hversion, hbytes.imp (fun hat => ?_) fun hat => ?_⟩
      · rw [Disk.bytesAt, hw.file h.tidy (entry_ne_target _) (hother (entry_ne hnot.symm))]
        exact hat
      · refine ⟨hat.1, ?_⟩
        rw [Disk.bytesAt, hw.file h.tidy stage_ne_target (hother (stage_ne_entry entry))]
        exact hat.2 }

/-! ## §5 Renaming -/

/-- After a rename. -/
def Disk.moved (d : Disk) (source destination : Name) (node : Node) : Disk :=
  (d.setName source none).setName destination (some node)

theorem moved_names {source destination : Name} {node : Node} (other : Name) :
    (d.moved source destination node).names other =
      if other = destination then some node else if other = source then none else d.names other := by
  rw [Disk.moved, Disk.setName_names, Disk.setName_names]

theorem Tidy.moved (h : Tidy d) {source destination : Name} {node : Node}
    (hnode : d.names source = some node) : Tidy (d.moved source destination node) := by
  refine (h.unset source).set (h.fresh source node hnode) fun other _ hother => ?_
  rw [Disk.setName_names] at hother
  split at hother
  · cases hother
  · next hne => exact hne (h.apart other source node hother hnode)

theorem moved_file_ne {source destination other : Name} {node : Node} (hs : other ≠ source)
    (hd : other ≠ destination) : (d.moved source destination node).file other = d.file other := by
  rw [Disk.moved, file_setName_ne hd, file_setName_ne hs]

/-- What was at the target is still somewhere. -/
theorem loses_moved {source destination : Name} {node : Node}
    (hnode : d.names source = some node) (hfree : destination = .target → d.names .target = none)
    (hkept : source = .target → destination = .stage ∨ destination = .entry .displaced) :
    Publishing.loses d (d.moved source destination node) = false := by
  unfold Publishing.loses
  split
  · rfl
  · next found hfound =>
    by_cases hs : source = .target
    · subst hs
      rw [hnode] at hfound
      cases hfound
      rcases hkept rfl with rfl | rfl
      · simp [moved_names]
      · simp [moved_names]
    · have hd : destination ≠ .target := fun hd => by
        rw [hfree hd] at hfound
        cases hfound
      rw [moved_names, if_neg (Ne.symm hd), if_neg (Ne.symm hs), hfound]
      simp

/-- A rename that the flag guards and one that it does not leave the same account. -/
theorem after_rename (w : Publishing) (d d' : Disk) (source destination : Name) :
    w.after d (.rename source destination) (.ok ()) d' =
      w.after d (.renameNoReplace source destination) (.ok ()) d' := by
  have hversion : w.versionAfter d d' (.rename source destination) (.ok ()) =
      w.versionAfter d d' (.renameNoReplace source destination) (.ok ()) := by
    cases source with
    | entry entry =>
      cases entry with
      | displaced => cases destination <;> rfl
      | _ => rfl
    | target =>
      cases destination with
      | entry entry => cases entry <;> rfl
      | _ => rfl
    | stage => rfl
  simp only [Publishing.after, hversion, Publishing.refusal]

/-- A refused rename changes nothing of the account. -/
theorem versionAfter_refused (w : Publishing) (d d' : Disk) {source destination : Name}
    (e : Errno) :
    w.versionAfter d d' (.renameNoReplace source destination) (.error e) = (w.version, w.out) ∧
      w.versionAfter d d' (.rename source destination) (.error e) = (w.version, w.out) := by
  cases source with
  | entry entry => cases entry <;> cases destination <;> exact ⟨rfl, rfl⟩
  | target =>
    cases destination with
    | entry entry => cases entry <;> exact ⟨rfl, rfl⟩
    | _ => exact ⟨rfl, rfl⟩
  | stage => exact ⟨rfl, rfl⟩

/-- The last operation was a rename of `rename_no_replace`, or the look at the destination
before its plain rename, and it was refused. -/
def RenameRefused (source destination : Name) (w : Publishing) : Prop :=
  ∃ e earlier, e ≠ .alreadyExists ∧ w.refused = (.renameNoReplace source destination, e) :: earlier ∨
    w.refused = (.rename source destination, e) :: earlier ∨
    w.refused = (.stat destination, e) ::
      (.renameNoReplace source destination, .unsupported) :: earlier

/-- How a guarded rename was refused. -/
inductive Refused (source destination : Name) (w : Publishing) : Prop
  | taken (h : w.disk.names destination ≠ none)
  | failed (h : RenameRefused source destination w)

/-- A refused operation that the account passes over. -/
theorem Sheltered.passes (h : Sheltered plan w) {op : Op} {e : Errno} (hsteady : Steady w.disk d)
    (htidy : Tidy d) (hversion : w.versionAfter d d op (.error e) = (w.version, w.out)) :
    Rests w (w.after d op (.error e) d) ∧ Sheltered plan (w.after d op (.error e) d) := by
  have hrests : Rests w (w.after d op (.error e) d) := by
    refine ⟨hsteady, congrArg Prod.fst hversion, congrArg Prod.snd hversion, ?_⟩
    show (w.overwrote || Publishing.loses d d) = _
    rw [loses_same rfl, Bool.or_false]
  exact ⟨hrests, h.rests hrests htidy⟩

variable {source destination : Name}

/-- What follows a rename that moves the name. -/
def Follows (plan : Plan) (source destination : Name) (post : Publishing → Prop) (w : Publishing)
    (d : Disk) (node : Node) : Prop :=
  Sheltered plan (w.after d (.renameNoReplace source destination) (.ok ())
      (d.moved source destination node)) ∧
    post (w.after d (.renameNoReplace source destination) (.ok ())
      (d.moved source destination node))

/-- `renameat_with` and `NOREPLACE`. -/
theorem guardedRename_meets (post : Publishing → Prop) (h : Sheltered plan w)
    (hhosts : ∀ d : Disk, d.folder = true → d.hosts destination = true)
    (hmove : ∀ d node, Steady w.disk d → Tidy d → d.names source = some node →
      d.names destination = none → Follows plan source destination post w d node) :
    Meets Publishing.machine (Sheltered plan) (use (.renameNoReplace source destination)).run
      (fun r w₁ => (r = .ok () → post w₁) ∧ ∀ e, r = .error e → Rests w w₁ ∧
        (e = .unsupported → w₁.disk.noReplace = false) ∧
        (e = .alreadyExists → w₁.disk.names destination ≠ none) ∧
        w₁.refused = (.renameNoReplace source destination, e) :: w.refused) w := by
  refine Meets.act h h.tidy fun d answer d' hsteady htidy hperforms => ?_
  have herror (e : Errno) (hflag : e = .unsupported → d.noReplace = false)
      (htaken : e = .alreadyExists → d.names destination ≠ none)
      (hanswer : answer = .error e) (hd : d' = d) :
      Sheltered plan (w.after d (.renameNoReplace source destination) answer d') ∧
        ((answer = .ok () → post (w.after d (.renameNoReplace source destination) answer d')) ∧
        ∀ e, answer = .error e →
          Rests w (w.after d (.renameNoReplace source destination) answer d') ∧
          (e = .unsupported → d'.noReplace = false) ∧
          (e = .alreadyExists → d'.names destination ≠ none) ∧
          (w.after d (.renameNoReplace source destination) answer d').refused =
            (.renameNoReplace source destination, e) :: w.refused) := by
    subst hanswer hd
    obtain ⟨hrests, hsheltered⟩ := h.passes hsteady htidy (versionAfter_refused w d' d' e).1
    refine ⟨hsheltered, fun hok => (by cases hok), fun e' he => ?_⟩
    cases he
    exact ⟨hrests, hflag, htaken, rfl⟩
  have hhost : d.hosts destination = true := hhosts d (hsteady.folder.trans h.folder)
  rcases hperforms with hdoes | ⟨-, -, e, hsystem, hanswer, hd | ⟨node, bytes, k, hop, -⟩⟩
  · simp only [Disk.does, hhost] at hdoes
    split at hdoes
    · next hno =>
      cases hdoes
      exact herror _ (fun _ => hno) (fun he => by cases he) rfl rfl
    · rw [if_neg (by simp)] at hdoes
      split at hdoes
      · cases hdoes
        exact herror .notFound (fun he => by cases he) (fun he => by cases he) rfl rfl
      · next node hnode =>
        split at hdoes
        · next hsome =>
          cases hdoes
          refine herror .alreadyExists (fun he => by cases he) (fun _ hnone => ?_) rfl rfl
          rw [hnone] at hsome
          cases hsome
        · next hfree =>
          cases hdoes
          obtain ⟨hsheltered, hpost⟩ := hmove d node hsteady htidy hnode (by simpa using hfree)
          exact ⟨hsheltered, fun _ => hpost, fun _ he => by cases he⟩
  · exact herror e (fun he => by subst he; cases hsystem) (fun he => by subst he; cases hsystem)
      hanswer hd
  · cases hop

/-- `renameat`, where the filesystem does not have the flag. -/
theorem plainRename_meets (post : Publishing → Prop) (h : Sheltered plan w)
    (hhosts : ∀ d : Disk, d.folder = true → d.hosts destination = true)
    (hno : w.disk.noReplace = false)
    (hmove : ∀ d node, Steady w.disk d → Tidy d → d.names source = some node →
      d.noReplace = false → Follows plan source destination post w d node) :
    Meets Publishing.machine (Sheltered plan) (use (.rename source destination)).run
      (fun r w₁ => (r = .ok () → post w₁) ∧ ∀ e, r = .error e → Rests w w₁ ∧
        w₁.refused = (.rename source destination, e) :: w.refused) w := by
  refine Meets.act h h.tidy fun d answer d' hsteady htidy hperforms => ?_
  have herror {e : Errno} (hanswer : answer = .error e) (hd : d' = d) :
      Sheltered plan (w.after d (.rename source destination) answer d') ∧
        ((answer = .ok () → post (w.after d (.rename source destination) answer d')) ∧
        ∀ e, answer = .error e → Rests w (w.after d (.rename source destination) answer d') ∧
          (w.after d (.rename source destination) answer d').refused =
            (.rename source destination, e) :: w.refused) := by
    subst hanswer hd
    obtain ⟨hrests, hsheltered⟩ := h.passes hsteady htidy (versionAfter_refused w d' d' e).2
    refine ⟨hsheltered, fun hok => (by cases hok), fun e' he => ?_⟩
    cases he
    exact ⟨hrests, rfl⟩
  have hhost : d.hosts destination = true := hhosts d (hsteady.folder.trans h.folder)
  rcases hperforms with hdoes | ⟨-, -, e, -, hanswer, hd | ⟨node, bytes, k, hop, -⟩⟩
  · simp only [Disk.does, hhost] at hdoes
    rw [if_neg (by simp)] at hdoes
    split at hdoes
    · cases hdoes
      exact herror rfl rfl
    · next node hnode =>
      cases hdoes
      obtain ⟨hsheltered, hpost⟩ :=
        hmove d node hsteady htidy hnode (hsteady.noReplace.trans hno)
      rw [← after_rename] at hsheltered hpost
      exact ⟨hsheltered, fun _ => hpost, fun _ he => by cases he⟩
  · exact herror hanswer hd
  · cases hop

/-- `rename_no_replace`: what a success does is shown for one operation. -/
theorem renameNoReplace_meets (post : Publishing → Prop) (h : Sheltered plan w)
    (hhosts : ∀ d : Disk, d.folder = true → d.hosts destination = true)
    (hmove : ∀ w₁ d node, Rests w w₁ → Steady w₁.disk d → Tidy d → Sheltered plan w₁ →
      d.names source = some node → (d.noReplace = true → d.names destination = none) →
      Follows plan source destination post w₁ d node) :
    Meets Publishing.machine (Sheltered plan) (renameNoReplace source destination).run
      (fun r w' => (r = .ok () → post w') ∧
        ∀ e, r = .error e → Rests w w' ∧ Refused source destination w') w := by
  refine Meets.andThen (Meets.lift ((guardedRename_meets post h hhosts
    fun d node hsteady htidy hnode hfree =>
      hmove w d node (.refl w) hsteady htidy h hnode fun _ => hfree).weaken ?_))
  rintro r w₁ hw₁ ⟨hok, herr⟩
  show Meets _ _ _ _ w₁
  split
  · exact .pure hw₁ ⟨fun _ => hok rfl, fun _ he => by cases he⟩
  · -- Without the flag the destination is looked at just before.
    obtain ⟨h₁, hno, -, hrefused₁⟩ := herr _ rfl
    refine Meets.andThen (Meets.lift ((Sheltered.look (show Op.idle (.stat destination) from trivial)
      hw₁).weaken ?_))
    rintro r w₂ hw₂ ⟨h₂, -, hfound, hrefused₂⟩
    have hto₂ := h₁.trans h₂
    have hno₂ : w₂.disk.noReplace = false := h₂.steady.noReplace.trans (hno rfl)
    show Meets _ _ _ _ w₂
    split
    · next node =>
      refine .pure hw₂ ⟨fun hr => (by cases hr), fun e _ => ⟨hto₂, .taken fun hnone => ?_⟩⟩
      rcases hfound node rfl with hop | hvalue
      · cases hop
      · simp only [Disk.does, hnone] at hvalue
        cases hvalue
    · refine (plainRename_meets post hw₂ hhosts hno₂ fun d node hsteady htidy hnode hflag =>
        hmove w₂ d node hto₂ hsteady htidy hw₂ hnode fun htrue => ?_).weaken ?_
      · rw [hflag] at htrue
        cases htrue
      · rintro r w₃ - ⟨hok₃, herr₃⟩
        refine ⟨hok₃, fun e he => ⟨hto₂.trans (herr₃ e he).1, .failed ?_⟩⟩
        exact ⟨e, _, Or.inr (Or.inl (herr₃ e he).2)⟩
    · next e _ =>
      refine .pure hw₂ ⟨fun hr => (by cases hr), fun e' he => ⟨hto₂, .failed ⟨e, w.refused, ?_⟩⟩⟩
      rw [hrefused₂ e rfl, hrefused₁]
      exact Or.inr (Or.inr rfl)
  · next e _ =>
    obtain ⟨h₁, -, htaken, hrefused⟩ := herr e rfl
    refine .pure hw₁ ⟨fun hr => (by cases hr), fun e' he => ⟨h₁, ?_⟩⟩
    by_cases hexists : e = .alreadyExists
    · exact .taken (htaken hexists)
    · exact .failed ⟨e, _, Or.inl ⟨hexists, hrefused⟩⟩

end BareLine.SaveTransaction
