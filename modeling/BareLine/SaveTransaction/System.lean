import BareLine.SaveTransaction.Cleanup

/-!
# Reclaiming beside a transaction

Other processes run `reclaim` on the folder, one operation at a time.  `Watch` is what a
reclaimer has seen: it may remove something only after it took the lease and then listed
nothing but the manifest and the editor version.
-/

namespace BareLine.SaveTransaction

open Lib

/-! ## §1 A folder with its reclaimers -/

/-- The disk, and the calls of `reclaim` under way with what they still have to do. -/
structure System where
  disk : Disk
  reclaimers : Nat → Option (Program Op Op.Answer (Except Errno Unit))
  /-- The call that holds the exclusive lease. -/
  holder : Option Nat
  /-- A cleanup record was created, whole or torn. -/
  announced : Bool

/-- The exclusive lease goes to the call that asked for it. -/
def holderAfter (holder : Option Nat) (i : Nat) : (op : Op) → op.Answer → Option Nat
  | .leaseExclusive, .ok () => some i
  | _, _ => holder

/-- A step of another process: it calls `reclaim`, goes on, or ends, also by a crash. -/
inductive Reclaims (generation : Generation) : System → System → Prop
  | start {s : System} (i : Nat) (folder : Bytes) (hfree : s.reclaimers i = none) :
      Reclaims generation s { s with
        reclaimers := Function.update s.reclaimers i
          (some (reclaimEntry folder generation).run) }
  | step {s : System} (i : Nat) {op : Op}
      {next : op.Answer → Program Op Op.Answer (Except Errno Unit)} {answer : op.Answer}
      {d' : Disk} (hprogram : s.reclaimers i = some (.call op next))
      (hstep : Performs true s.disk op answer d') :
      Reclaims generation s { s with
        disk := d'
        reclaimers := Function.update s.reclaimers i (some (next answer))
        holder := holderAfter s.holder i op answer }
  | leave {s : System} (i : Nat) :
      Reclaims generation s { s with
        disk := if s.holder = some i then { s.disk with exclusive := false } else s.disk
        reclaimers := Function.update s.reclaimers i none
        holder := if s.holder = some i then none else s.holder }

/-- What the other processes do between two operations of this one. -/
def Others (generation : Generation) (busy : Bool) (s s' : System) : Prop :=
  if busy then Relation.ReflTransGen (Reclaims generation) s s' else s' = s

/-- The announcement is the creation of the cleanup record. -/
def System.after (s : System) (d : Disk) : System :=
  { s with
    disk := d
    announced := s.announced || (d.names (.entry (.state .cleanupPending))).isSome }

/-- The machine of the process that cleans up, among others. -/
def machine (generation : Generation) (busy faults : Bool) : Machine Op Op.Answer System :=
  fun s op answer s' => ∃ s₁ d', Others generation busy s s₁ ∧
    Performs faults s₁.disk op answer d' ∧ s' = s₁.after d'

/-! ## §2 What a reclaimer may do -/

inductive Phase where
  | free
  | leased
  | clear
  deriving DecidableEq

/-- What a reclaimer has seen, and whether all it did was allowed. -/
structure Watch where
  phase : Phase
  fine : Prop

/-- The entries that may go. -/
def reclaimable : List Entry := [.manifest, .editor]

def Phase.allows (phase : Phase) : Op → Prop
  | .unlink (.entry entry) => phase = .clear ∧ entry ∈ reclaimable
  | .removeFolder => phase = .clear
  | .stat _ | .openAny _ | .kind _ | .read _ | .sync | .stillNamed | .openFolder
  | .leaseExclusive | .list | .listed | .checkCancelled => True
  | _ => False

def Phase.next (phase : Phase) : (op : Op) → op.Answer → Phase
  | .leaseExclusive, .ok () => .leased
  | .list, .ok entries =>
    if phase = .leased ∧ ∀ entry ∈ entries, ∃ name ∈ reclaimable, entry = some name then .clear
    else phase
  | _, _ => phase

def watch : Machine Op Op.Answer Watch := fun w op answer w' =>
  w' = ⟨w.phase.next op answer, w.fine ∧ w.phase.allows op⟩

/-- Everything a program asks for is allowed. -/
def Guarded {α : Type} (phase : Phase) (p : Program Op Op.Answer α) : Prop :=
  Meets watch Watch.fine p (fun _ _ => True) ⟨phase, True⟩

/-- An operation that is always allowed, and changes nothing of what was seen. -/
def Op.plain : Op → Prop
  | .stat _ | .openAny _ | .kind _ | .read _ | .sync | .stillNamed | .openFolder
  | .listed | .checkCancelled => True
  | _ => False

theorem Phase.next_of_plain (phase : Phase) {op : Op} (answer : op.Answer) (h : op.plain) :
    phase.next op answer = phase ∧ phase.allows op := by
  cases op <;> first | exact absurd h id | exact ⟨rfl, trivial⟩

/-- A program of plain operations leaves the watch as it was. -/
theorem Meets.plain {α : Type} {p : Program Op Op.Answer α} (h : p.Uses Op.plain) {w : Watch}
    (hfine : w.fine) : Meets watch Watch.fine p (fun _ w' => w'.phase = w.phase) w := by
  refine (h.meets (fun w' : Watch => w'.fine ∧ w'.phase = w.phase) ?_ ⟨hfine, rfl⟩).weaken
    (fun _ _ _ h => h.2) |>.relax fun _ h => h.1
  rintro w₁ op answer _ hplain rfl ⟨hfine, hphase⟩
  have hnext := Phase.next_of_plain w₁.phase answer hplain
  exact ⟨⟨hfine, hnext.2⟩, hnext.1.trans hphase⟩

theorem plain_refuse {c : Prop} [Decidable c] {error : Errno} :
    (refuseIf c error).run.Uses Op.plain := by
  rw [refuseIf]
  split <;> trivial

theorem plain_openRegular (name : Name) : (openRegular name).run.Uses Op.plain :=
  .andThen (.ask trivial) fun _ => .andThen (.ask trivial) fun _ =>
    .andThen plain_refuse fun _ => trivial

theorem plain_readRegular (name : Name) (limit : Nat) :
    (readRegular name limit).run.Uses Op.plain :=
  .andThen (plain_openRegular name) fun _ => .andThen (.ask trivial) fun _ =>
    .andThen plain_refuse fun _ => trivial

theorem plain_readManifest (entry : Entry) (generation : Generation) :
    (readManifest entry generation).run.Uses Op.plain :=
  .andThen (plain_readRegular _ _) fun _ => trivial

section Watching

variable {phase : Phase} {α : Type}

/-- After an allowed operation. -/
theorem Meets.watched {op : Op} {w : Watch} {post : op.Answer → Watch → Prop} (hfine : w.fine)
    (hallows : w.phase.allows op)
    (hpost : ∀ answer w', w'.fine → w'.phase = w.phase.next op answer → post answer w') :
    Meets watch Watch.fine (use op).run post w := by
  refine Meets.ask hfine ?_
  rintro answer _ rfl
  exact ⟨⟨hfine, hallows⟩, hpost answer _ ⟨hfine, hallows⟩ rfl⟩

/-- Unlinking what may go. -/
theorem guarded_unlinkPresent {entry : Entry} {w : Watch} (hfine : w.fine)
    (hclear : w.phase = .clear) (hentry : entry ∈ reclaimable) :
    Meets watch Watch.fine (unlinkPresent entry).run (fun _ w' => w'.phase = .clear) w := by
  refine Meets.andThen (Meets.lift (Meets.watched hfine ⟨hclear, hentry⟩ ?_))
  intro answer w' hfine hphase
  have hkeeps : w'.phase = .clear := by
    rw [hphase, ← hclear]
    cases answer <;> rfl
  show Meets watch Watch.fine _ _ w'
  split
  · exact .pure hfine hkeeps
  · exact .pure hfine hkeeps
  · exact .pure hfine hkeeps

/-- The listing decides. -/
theorem guarded_holdsOnly {w : Watch} (hfine : w.fine) (hleased : w.phase = .leased) :
    Meets watch Watch.fine (holdsOnly reclaimable).run
      (fun r w' => r = .ok true → w'.phase = .clear) w := by
  refine Meets.andThen (Meets.watched hfine trivial ?_)
  intro answer w' hfine hphase
  cases answer with
  | error e => exact fun h => nomatch h
  | ok entries =>
    show Meets watch Watch.fine _ _ w'
    split
    · exact .pure hfine fun h => nomatch h
    · next hall =>
      have hclear : w'.phase = .clear := by
        rw [hphase]
        refine if_pos ⟨hleased, fun entry hentry => ?_⟩
        by_contra hnone
        exact hall ⟨entry, hentry, fun name hname heq => hnone ⟨name, hname, heq⟩⟩
      refine Meets.andThen (Meets.lift ((Meets.plain (plain_openRegular _) hfine).weaken ?_))
      intro r w'' hfine hsame
      show Meets watch Watch.fine _ _ w''
      split
      · exact .pure hfine fun _ => hsame.trans hclear
      · exact .pure hfine fun _ => hsame.trans hclear
      · exact .pure hfine fun h => nomatch h

/-- `reclaim` removes something only under the lease, after a listing that allows it. -/
theorem guarded_reclaimEntry (folder : Bytes) (generation : Generation) :
    Guarded .free (reclaimEntry folder generation).run := by
  refine Meets.andThen (Meets.watched trivial trivial fun answer w hfine hphase => ?_)
  cases answer with
  | error e => trivial
  | ok _ =>
    refine Meets.andThen ((Meets.plain (plain_readManifest _ _) hfine).weaken ?_)
    intro manifest w₁ hfine hsame
    cases manifest with
    | error e => trivial
    | ok manifest =>
      show Meets watch Watch.fine _ _ w₁
      split
      · refine Meets.andThen (Meets.watched hfine trivial fun answer w₂ hfine hphase => ?_)
        cases answer with
        | error e => trivial
        | ok _ =>
          refine Meets.andThen ((guarded_holdsOnly hfine hphase).weaken ?_)
          intro only w₃ hfine honly
          rcases only with e | only
          · trivial
          · show Meets watch Watch.fine _ _ w₃
            split
            · next htrue =>
              subst htrue
              refine Meets.andThen ((guarded_unlinkPresent hfine (honly rfl) (by decide)).weaken ?_)
              intro first w₄ hfine hclear
              rcases first with e | ⟨⟩
              · trivial
              refine Meets.andThen ((guarded_unlinkPresent hfine hclear (by decide)).weaken ?_)
              intro second w₅ hfine hclear
              rcases second with e | ⟨⟩
              · trivial
              refine Meets.andThen (Meets.watched hfine trivial fun answer w₆ hfine hphase => ?_)
              rcases answer with e | ⟨⟩
              · trivial
              refine Meets.andThen (Meets.watched hfine (hphase.trans hclear)
                fun answer w₇ hfine _ => ?_)
              rcases answer with e | ⟨⟩
              · trivial
              exact Meets.watched hfine trivial fun _ _ _ _ => trivial
            · exact .pure hfine trivial
      · exact .pure hfine trivial

end Watching

/-! ## §3 A step of a reclaimer -/

/-- The disk without its leases. -/
def Disk.content (d : Disk) : Disk := { d with leases := 0, exclusive := false }

/-- Nothing is in the folder but what may go. -/
def OnlyReclaimable (d : Disk) : Prop :=
  (∀ entry, d.names (.entry entry) ≠ none → entry ∈ reclaimable) ∧ d.foreign = []

/-- Some of what may go is gone. -/
structure Shrinks (d d' : Disk) : Prop where
  names : ∀ name, d'.names name = d.names name ∨ d'.names name = none ∧
    ∃ entry ∈ reclaimable, name = .entry entry
  object : d'.object = d.object
  fresh : d'.fresh = d.fresh
  foreign : d'.foreign = d.foreign
  place : d'.place = d.place

theorem Disk.names_of_content {d d' : Disk} (h : d'.content = d.content) :
    d'.names = d.names :=
  show d'.content.names = d.content.names from congrArg Disk.names h

theorem Disk.foreign_of_content {d d' : Disk} (h : d'.content = d.content) :
    d'.foreign = d.foreign :=
  show d'.content.foreign = d.content.foreign from congrArg Disk.foreign h

theorem OnlyReclaimable.shrinks {d d' : Disk} (h : OnlyReclaimable d) (hd : Shrinks d d') :
    OnlyReclaimable d' := by
  refine ⟨fun entry hentry => h.1 entry fun hnone => ?_, hd.foreign.trans h.2⟩
  rcases hd.names (.entry entry) with hsame | ⟨hgone, -⟩
  · exact hentry (hsame.trans hnone)
  · exact hentry hgone

theorem OnlyReclaimable.of_content {d d' : Disk} (h : OnlyReclaimable d)
    (hd : d'.content = d.content) : OnlyReclaimable d' := by
  rw [OnlyReclaimable, Disk.names_of_content hd, Disk.foreign_of_content hd]
  exact h

/-- An operation a reclaimer is allowed. -/
theorem Phase.allows.effect {phase : Phase} {faults : Bool} {d d' : Disk} {op : Op}
    {answer : op.Answer} (hallows : phase.allows op) (h : Performs faults d op answer d') :
    d'.content = d.content ∨ phase = .clear ∧ Shrinks d d' := by
  rcases h with hdoes | ⟨-, -, e, -, -, rfl | ⟨node, bytes, k, rfl, -⟩⟩
  · have hd : d' = (d.does op).2 := congrArg Prod.snd hdoes
    subst hd
    cases op with
    | unlink name =>
      cases name with
      | entry entry =>
        simp only [Disk.does]
        split
        · exact Or.inl rfl
        · split
          · exact Or.inl rfl
          · refine Or.inr ⟨hallows.1, fun name => ?_, rfl, rfl, rfl, rfl⟩
            by_cases hname : name = .entry entry
            · exact Or.inr ⟨by rw [Disk.setName_names, if_pos hname], entry, hallows.2, hname⟩
            · exact Or.inl (by rw [Disk.setName_names, if_neg hname])
      | target => exact absurd hallows id
      | stage => exact absurd hallows id
    | removeFolder =>
      simp only [Disk.does]
      split
      · exact Or.inl rfl
      · split
        · exact Or.inr ⟨hallows, fun _ => Or.inl rfl, rfl, rfl, rfl, rfl⟩
        · exact Or.inl rfl
    | leaseExclusive =>
      simp only [Disk.does]
      split
      · exact Or.inl rfl
      · split <;> exact Or.inl rfl
    | stat name | openAny name | kind node | read node | sync | stillNamed | openFolder | list
    | listed | checkCancelled => exact Or.inl rfl
    | create name | write node bytes | setLen node length | setMetadata node
    | renameNoReplace a b | rename a b | exchange a b | makeFolder | leaseShared | release =>
      exact absurd hallows id
  · exact Or.inl rfl
  · exact absurd hallows id

/-- What a call of `reclaim` has seen is so. -/
def Watched (s : System) (i : Nat) (p : Program Op Op.Answer (Except Errno Unit)) : Prop :=
  ∃ phase, Guarded phase p ∧ (phase ≠ .free → s.holder = some i) ∧
    (phase = .clear → OnlyReclaimable s.disk)

structure AllWatched (s : System) : Prop where
  watched : ∀ i p, s.reclaimers i = some p → Watched s i p
  exclusive : s.holder ≠ none → s.disk.exclusive = true

/-- A call goes on where its lease and what the others saw stay. -/
theorem Watched.mono {s s' : System} {i : Nat} {p : Program Op Op.Answer (Except Errno Unit)}
    (h : Watched s i p) (hholder : s.holder = some i → s'.holder = some i)
    (hdisk : OnlyReclaimable s.disk → OnlyReclaimable s'.disk) : Watched s' i p := by
  obtain ⟨phase, hguarded, hheld, hclear⟩ := h
  exact ⟨phase, hguarded, fun hphase => hholder (hheld hphase),
    fun hphase => hdisk (hclear hphase)⟩

/-- A listing without any other name. -/
theorem onlyReclaimable_of_list {d : Disk} {faults : Bool} {entries : List (Option Entry)}
    {d' : Disk} (h : Performs faults d .list (.ok entries) d')
    (hentries : ∀ entry ∈ entries, ∃ name ∈ reclaimable, entry = some name) :
    OnlyReclaimable d' := by
  rcases h with hdoes | ⟨-, -, e, -, herror, -⟩
  · simp only [Disk.does, Prod.mk.injEq, Except.ok.injEq] at hdoes
    obtain ⟨rfl, rfl⟩ := hdoes
    refine ⟨fun entry hentry => ?_, ?_⟩
    · have hmem : entry ∈ d'.entries :=
        List.mem_filter.mpr ⟨entry.mem_all, Option.isSome_iff_ne_none.mpr hentry⟩
      obtain ⟨name, hname, heq⟩ := hentries (some entry)
        (List.mem_append_left _ (List.mem_map_of_mem hmem))
      exact Option.some.inj heq ▸ hname
    · cases hforeign : d'.foreign with
      | nil => rfl
      | cons name names =>
        obtain ⟨_, -, heq⟩ := hentries none (List.mem_append_right _ (by simp [hforeign]))
        cases heq
  · cases herror

/-- The lease is given to one call at a time. -/
theorem exclusive_of_lease {d d' : Disk} {faults : Bool}
    (h : Performs faults d .leaseExclusive (.ok ()) d') :
    d.exclusive = false ∧ d.leases = 0 ∧ d'.exclusive = true := by
  rcases h with hdoes | ⟨-, -, e, -, herror, -⟩
  · simp only [Disk.does] at hdoes
    split at hdoes
    · cases hdoes
    · split at hdoes
      · cases hdoes
      · next hfree =>
        cases hdoes
        rw [not_or, not_not] at hfree
        exact ⟨Bool.eq_false_iff.mpr hfree.1, hfree.2, rfl⟩
  · cases herror

/-- An operation of a reclaimer other than the lease leaves the lease. -/
theorem Phase.allows.exclusive {phase : Phase} {faults : Bool} {d d' : Disk} {op : Op}
    {answer : op.Answer} (hallows : phase.allows op) (h : Performs faults d op answer d')
    (hd : d.exclusive = true) : d'.exclusive = true := by
  rcases h with hdoes | ⟨-, -, e, -, -, rfl | ⟨node, bytes, k, rfl, -⟩⟩
  · have hd' : d' = (d.does op).2 := congrArg Prod.snd hdoes
    subst hd'
    cases op with
    | unlink name => simp only [Disk.does]; split; · exact hd
                     · split <;> exact hd
    | removeFolder => simp only [Disk.does]; split; · exact hd
                      · split <;> exact hd
    | leaseExclusive => simp only [Disk.does]; split; · exact hd
                        · split; · exact hd
                          · rfl
    | stat name | openAny name | kind node | read node | sync | stillNamed | openFolder | list
    | listed | checkCancelled => exact hd
    | create name | write node bytes | setLen node length | setMetadata node
    | renameNoReplace a b | rename a b | exchange a b | makeFolder | leaseShared | release =>
      exact absurd hallows id
  · exact hd
  · exact absurd hallows id

/-- What a step of a reclaimer does to the disk. -/
inductive ReclaimEffect (d d' : Disk) : Prop
  | kept (h : d'.content = d.content)
  | shrunk (honly : OnlyReclaimable d) (h : Shrinks d d')

theorem ReclaimEffect.only {d d' : Disk} (h : ReclaimEffect d d') (hd : OnlyReclaimable d) :
    OnlyReclaimable d' := by
  cases h with
  | kept h => exact hd.of_content h
  | shrunk _ h => exact hd.shrinks h

/-- A step of a reclaimer keeps what all of them have seen. -/
theorem Reclaims.effect {generation : Generation} {s s' : System} (h : AllWatched s)
    (hstep : Reclaims generation s s') :
    AllWatched s' ∧ s'.announced = s.announced ∧ ReclaimEffect s.disk s'.disk := by
  cases hstep with
  | start i folder hfree =>
    refine ⟨⟨fun j p hp => ?_, h.exclusive⟩, rfl, .kept rfl⟩
    simp only [Function.update_apply] at hp
    split at hp
    · cases hp
      exact ⟨.free, guarded_reclaimEntry folder generation, fun hne => absurd rfl hne,
        fun heq => nomatch heq⟩
    · exact (h.watched j p hp).mono id id
  | leave i =>
    have hcontent : (if s.holder = some i then { s.disk with exclusive := false }
        else s.disk).content = s.disk.content := by split <;> rfl
    refine ⟨⟨fun j p hp => ?_, ?_⟩, rfl, .kept hcontent⟩
    · simp only [Function.update_apply] at hp
      split at hp
      · cases hp
      · next hj =>
        refine (h.watched j p hp).mono (fun hholder => ?_) fun hd => hd.of_content hcontent
        show (if s.holder = some i then none else s.holder) = some j
        rw [if_neg fun hi => hj (Option.some.inj (hholder.symm.trans hi)), hholder]
    · show (if s.holder = some i then none else s.holder) ≠ none → _
      intro hsome
      split at hsome
      · exact absurd rfl hsome
      · next hi => simpa only [if_neg hi] using h.exclusive hsome
  | @step i op next answer d' hprogram hperforms =>
    obtain ⟨phase, hguarded, hheld, hclear⟩ := h.watched i _ hprogram
    have hnext := hguarded.2 answer _ rfl
    have hallows : phase.allows op := hnext.holds.2
    have heffect : ReclaimEffect s.disk d' := by
      rcases hallows.effect hperforms with hkept | ⟨hphase, hshrinks⟩
      · exact .kept hkept
      · exact .shrunk (hclear hphase) hshrinks
    have hlease : holderAfter s.holder i op answer ≠ s.holder →
        s.holder = none ∧ d'.exclusive = true := by
      intro hchanged
      unfold holderAfter at hchanged
      split at hchanged
      · have hlocked := exclusive_of_lease hperforms
        refine ⟨?_, hlocked.2.2⟩
        by_contra hsome
        rw [h.exclusive hsome] at hlocked
        exact nomatch hlocked.1
      · exact absurd rfl hchanged
    refine ⟨⟨fun j p hp => ?_, fun hsome => ?_⟩, rfl, heffect⟩
    · simp only [Function.update_apply] at hp
      split at hp
      · next hj =>
        subst hj
        cases hp
        -- What this call has seen after its step.
        refine ⟨phase.next op answer, ?_, ?_, ?_⟩
        · have htrue : (⟨phase.next op answer, True⟩ : Watch) =
              ⟨phase.next op answer, True ∧ phase.allows op⟩ := by simp [hallows]
          rw [Guarded, htrue]
          exact hnext
        · intro hphase
          show holderAfter s.holder j op answer = some j
          unfold holderAfter
          split
          · rfl
          · next hother =>
            refine hheld fun hfree => hphase ?_
            subst hfree
            unfold Phase.next
            split
            · exact (hother rfl HEq.rfl).elim
            · split
              · next hif => exact nomatch hif.1
              · rfl
            · rfl
        · intro hphase
          by_cases hwas : phase = .clear
          · exact heffect.only (hclear hwas)
          · unfold Phase.next at hphase
            split at hphase
            · cases hphase
            · split at hphase
              · next hif => exact onlyReclaimable_of_list hperforms hif.2
              · exact absurd hphase hwas
            · exact absurd hphase hwas
      · next hj =>
        refine (h.watched j p hp).mono (fun hholder => ?_) heffect.only
        show holderAfter s.holder i op answer = some j
        by_cases hchanged : holderAfter s.holder i op answer = s.holder
        · exact hchanged.trans hholder
        · exact nomatch (hlease hchanged).1.symm.trans hholder
    · by_cases hchanged : holderAfter s.holder i op answer = s.holder
      · exact hallows.exclusive hperforms (h.exclusive (hchanged ▸ hsome))
      · exact (hlease hchanged).2

end BareLine.SaveTransaction
