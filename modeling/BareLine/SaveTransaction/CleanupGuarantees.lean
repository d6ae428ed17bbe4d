import BareLine.SaveTransaction.Progress

/-!
# Cleanup of a save transaction is crash-safe

- §1: calls on a token.
- §2: what `inspect` reports, and what `resume` accepts.
- §3: runs of a transaction.
- §4: live transactions.
- §5: crash safety.
-/

namespace BareLine.SaveTransaction

open Lib

variable {save : Save} {d₀ d d' : Disk} {s s' s'' : System} {busy faults : Bool}

/-! ## §1 Calls on a token -/

/-- What may be called on the token of a receipt, in any order. -/
inductive Call where
  | publish
  | mark
  | cleanup
  deriving DecidableEq

/-- A call; a failure leaves the token to the next one. -/
def Call.run (call : Call) (token : Cleanup) : Program Op Op.Answer Cleanup :=
  match call with
  | .publish => do
    match ← (publishCleanupAuthority token).run with
    | .ok token => pure token
    | .error _ => pure token
  | .mark => do
    let _ ← (markState token.generation .cleanupPending).run
    pure token
  | .cleanup => do
    let result ← SaveTransaction.cleanup token
    pure result.2

def runCalls : List Call → Cleanup → Program Op Op.Answer Cleanup
  | [], token => pure token
  | call :: calls, token => do
    let token ← call.run token
    runCalls calls token

/-- The process that saved: it retries until it ends. -/
def retries : Nat → Cleanup → Program Op Op.Answer Cleanup
  | 0, token => pure token
  | n + 1, token => do
    let result ← retire token
    retries n result.2

/-- A later process: `resume`, calls on the token, and the end of its lease. -/
def resumeAndCall (place : Place) (generation : Generation) (recovery : CommitRecovery)
    (calls : List Call) : Program Op Op.Answer Unit := do
  match ← (resume place generation recovery).run with
  | .ok (some token) => do
    let _ ← runCalls calls token
    let _ ← (use .release).run
    pure ()
  | _ => pure ()

/-- `retire` announces before it cleans up. -/
theorem retire_meets {token : Cleanup} (h : Kept save d₀ s) (htoken : TokenOk save s.disk token) :
    Keeps save d₀ busy faults (retire token)
      (fun r s' => Kept save d₀ s' ∧ TokenOk save s'.disk r.2) s := by
  refine Meets.bind ((publish_meets h htoken.generation).weaken ?_)
  rintro r s₁ - ⟨haside, hsame⟩
  have htoken₁ := htoken.aside haside
  cases r with
  | error e => exact .pure haside.kept ⟨haside.kept, htoken₁⟩
  | ok next =>
    obtain ⟨hgeneration, hartifacts⟩ := hsame next rfl
    have hnext : TokenOk save s₁.disk next :=
      ⟨hgeneration.trans htoken.generation, hartifacts ▸ htoken₁.artifacts,
        hartifacts ▸ htoken₁.all⟩
    refine Meets.bind ((mark_meets hnext.generation haside.kept).weaken ?_)
    rintro r s₂ - ⟨haside₂, hannounced⟩
    have hnext₂ := hnext.aside haside₂
    cases r with
    | error e => exact .pure haside₂.kept ⟨haside₂.kept, hnext₂⟩
    | ok _ =>
      exact (cleanup_meets haside₂.kept (hannounced rfl) hnext₂).weaken
        fun r s₃ _ h₃ => ⟨h₃.1.kept, h₃.2.1⟩

theorem retries_meets (n : Nat) {token : Cleanup} (h : Kept save d₀ s)
    (htoken : TokenOk save s.disk token) :
    Keeps save d₀ busy faults (retries n token)
      (fun _ s' => Kept save d₀ s') s := by
  induction n generalizing token s with
  | zero => exact .pure h h
  | succ n ih =>
    exact Meets.bind ((retire_meets h htoken).weaken fun r s₁ _ h₁ => ih h₁.1 h₁.2)

/-- Any call keeps an announced cleanup. -/
theorem call_meets (call : Call) {token : Cleanup} (h : Kept save d₀ s)
    (hannounced : s.announced = true) (htoken : TokenOk save s.disk token) :
    Keeps save d₀ busy faults (call.run token)
      (fun next s' => Kept save d₀ s' ∧ s'.announced = true ∧ TokenOk save s'.disk next ∧
        (call = .cleanup → faults = false → Pending save d₀ s.disk → Done save d₀ s'.disk)) s := by
  cases call with
  | publish =>
    refine Meets.bind ((publish_meets h htoken.generation).weaken ?_)
    rintro r s₁ - ⟨haside, hsame⟩
    have htoken₁ := htoken.aside haside
    have hnow := haside.announced hannounced
    cases r with
    | error e => exact .pure haside.kept ⟨haside.kept, hnow, htoken₁, fun hcall => nomatch hcall⟩
    | ok next =>
      obtain ⟨hgeneration, hartifacts⟩ := hsame next rfl
      exact .pure haside.kept ⟨haside.kept, hnow,
        ⟨hgeneration.trans htoken.generation, hartifacts ▸ htoken₁.artifacts,
          hartifacts ▸ htoken₁.all⟩, fun hcall => nomatch hcall⟩
  | mark =>
    refine Meets.bind ((mark_meets htoken.generation h).weaken ?_)
    rintro r s₁ - ⟨haside, -⟩
    exact .pure haside.kept ⟨haside.kept, haside.announced hannounced, htoken.aside haside,
      fun hcall => nomatch hcall⟩
  | cleanup =>
    refine Meets.bind ((cleanup_meets h hannounced htoken).weaken ?_)
    rintro r s₁ - ⟨hfewer, htoken₁, hdone⟩
    exact .pure hfewer.kept ⟨hfewer.kept, hfewer.announced.trans hannounced, htoken₁,
      fun _ => hdone⟩

theorem runCalls_meets (calls : List Call) {token : Cleanup} (h : Kept save d₀ s)
    (hannounced : s.announced = true) (htoken : TokenOk save s.disk token) :
    Keeps save d₀ busy faults (runCalls calls token)
      (fun _ s' => Kept save d₀ s') s := by
  induction calls generalizing token s with
  | nil => exact .pure h h
  | cons call calls ih =>
    exact Meets.bind ((call_meets call h hannounced htoken).weaken fun next s₁ _ h₁ =>
      ih h₁.1 h₁.2.1 h₁.2.2.1)

/-! ## §2 What `inspect` reports, and what `resume` accepts -/

/-- An operation on the shared lease. -/
def Op.leases : Op → Prop
  | .leaseShared | .release => True
  | _ => False

theorem Disk.does_leases {op : Op} (hop : op.leases) (d : Disk) :
    Same d (d.does op).2 ∧ (d.does op).2.folder = d.folder ∧
      (d.does op).2.exclusive = d.exclusive ∧
      (d.exclusive = false → ∃ a, (d.does op).1 = .ok a) := by
  cases op with
  | leaseShared =>
    simp only [Disk.does]
    split
    · exact ⟨⟨rfl, rfl, rfl, rfl, rfl⟩, rfl, rfl, fun _ => ⟨(), rfl⟩⟩
    · split
      · next hexclusive =>
        exact ⟨⟨rfl, rfl, rfl, rfl, rfl⟩, rfl, rfl,
          fun hfree => (by cases hexclusive.symm.trans hfree)⟩
      · exact ⟨⟨rfl, rfl, rfl, rfl, rfl⟩, rfl, rfl, fun _ => ⟨(), rfl⟩⟩
  | release => exact ⟨⟨rfl, rfl, rfl, rfl, rfl⟩, rfl, rfl, fun _ => ⟨(), rfl⟩⟩
  | _ => exact absurd hop id

/-- Without other processes the lease is given. -/
theorem lease_meets {op : Op} (hop : op.leases) (h : Kept save d₀ s) :
    Keeps save d₀ busy faults (use op).run
      (fun r s' => Still save d₀ busy s s' ∧ (faults = false → busy = false →
        s.disk.exclusive = false → ∃ a, r = .ok a)) s := by
  refine Meets.ask h ?_
  rintro answer _ ⟨s₁, d', hothers, hperforms, rfl⟩
  rcases hperforms with hdoes | ⟨hfaults, -, e, -, rfl, rfl | ⟨node, bytes, k, hop', -⟩⟩
  · obtain ⟨hsame, hfolder, hexclusive, hok⟩ := Disk.does_leases hop s₁.disk
    have hd : d' = (s₁.disk.does op).2 := congrArg Prod.snd hdoes
    subst hd
    have hstill := h.still_of_content hothers hsame hfolder hexclusive
    refine ⟨hstill.kept, hstill, fun _ hbusy hfree => ?_⟩
    obtain ⟨a, ha⟩ := hok (((Still.of_others h hothers).quiet hbusy).trans hfree)
    exact ⟨a, (congrArg Prod.fst hdoes).trans ha⟩
  · have hstill := h.still_of_content hothers (.refl s₁.disk) rfl rfl
    exact ⟨hstill.kept, hstill, fun hsound => nomatch hfaults.symm.trans hsound⟩
  · subst hop'
    exact absurd hop id

/-- The listing of the parent. -/
theorem listed_meets (h : Kept save d₀ s) :
    Keeps save d₀ busy faults (use .listed).run
      (fun r s' => Still save d₀ busy s s' ∧ (faults = false → Pending save d₀ s.disk →
        r = .ok (decide (s.disk.place < 4096)))) s := by
  refine Meets.ask h ?_
  rintro answer _ ⟨s₁, d', hothers, hperforms, rfl⟩
  have hsame := Still.of_others h hothers
  have hstill := h.still_of_content hothers (.refl s₁.disk) rfl rfl
  rcases hperforms with hdoes | ⟨hfaults, -, e, -, rfl, rfl | ⟨node, bytes, k, hop', -⟩⟩
  · simp only [Disk.does, Prod.mk.injEq] at hdoes
    obtain ⟨rfl, rfl⟩ := hdoes
    refine ⟨hstill.kept, hstill, fun _ hpending => ?_⟩
    have hnot : ¬Done save d₀ s.disk := fun hdone =>
      hpending.authority_ne (hdone.gone .authority fun h => (by cases h))
    rw [hsame.folder hnot, hpending.folder, Bool.true_and, hsame.same.place]
  · exact ⟨hstill.kept, hstill, fun hsound => (by cases hfaults.symm.trans hsound)⟩
  · cases hop'

theorem regularChild_meets (entry : Entry) (h : Kept save d₀ s) :
    Keeps save d₀ busy faults (regularChild entry).run
      (fun r s' => Still save d₀ busy s s' ∧ (∃ found, r = .ok found) ∧
        (faults = false → r = .ok (isOk (s.disk.opens (.entry entry))))) s := by
  refine Meets.result (openRegular_meets _ h) fun r s₁ hanswered h₁ => ?_
  refine .pure h₁.kept ⟨h₁, ⟨_, rfl⟩, fun hfaults => ?_⟩
  rcases hanswered with rfl | ⟨htrue, -⟩
  · rfl
  · exact nomatch htrue.symm.trans hfaults

/-- What `inspect` says of an announced cleanup. -/
def Save.report (save : Save) (d : Disk) : CommitRecovery where
  target := some save.manifest.target
  displaced := save.manifest.mode == .replace && isOk (d.opens (.entry .displaced))
  state := .cleanupPending
  verified := true

theorem recoveryOf_announced {state : CommitState} {manifest : Except Errno Manifest}
    {proposed displaced : Bool} (hstate : state = .cleanupPending ∨ state = .unverified)
    (hmanifest : manifest = .ok save.manifest ∨ ∃ e, manifest = .error e) :
    recoveryOf save.place state manifest (.ok save.manifest) proposed displaced =
      some ⟨some save.manifest.target, save.manifest.mode == .replace && displaced,
        .cleanupPending, true⟩ := by
  have hnamed : manifest.toOption.orElse
      (fun _ => (Except.ok save.manifest : Except Errno _).toOption) = some save.manifest := by
    rcases hmanifest with rfl | ⟨e, rfl⟩ <;> rfl
  simp only [recoveryOf, hnamed, save.absolute, save.parent, and_self, if_true]
  rcases hstate with rfl | rfl <;> cases proposed <;> simp [isOk]

/-- Reading the manifest of an announced cleanup. -/
theorem Pending.readsManifest (h : Pending save d₀ d) :
    d.readsManifest .authority save.generation = .ok save.manifest ∧
      (d.readsManifest .manifest save.generation = .ok save.manifest ∨
        ∃ e, d.readsManifest .manifest save.generation = .error e) := by
  have hread (entry : Entry) (hfile : d.file (.entry entry) = some ⟨.regular, save.bytes⟩) :
      d.readsManifest entry save.generation = .ok save.manifest := by
    obtain ⟨node, hnode, hobject⟩ := names_of_file hfile
    have hopens : d.opens (.entry entry) = .ok node := by
      simp only [Disk.opens, hnode, hobject, if_true]
    have hlimit : ¬MANIFEST_LIMIT < save.bytes.length := Nat.not_lt.mpr h.bounded
    simp only [Disk.readsManifest, Disk.reads, hopens, hobject, if_neg hlimit]
    exact parseManifest_manifestBytes save.encoded
  refine ⟨hread _ h.authority, ?_⟩
  rcases h.manifest with hnone | hfile
  · refine Or.inr ⟨.notFound, ?_⟩
    simp only [Disk.readsManifest, Disk.reads, Disk.opens, hnone]
  · exact Or.inl (hread _ hfile)

theorem Disk.readsManifest_same (h : Same d d') (entry : Entry) (generation : Generation) :
    d'.readsManifest entry generation = d.readsManifest entry generation := by
  simp only [Disk.readsManifest, Disk.reads_same h]

theorem Answered.sound {α : Type} {r value : Except Errno α} (h : Answered faults r value)
    (hfaults : faults = false) : r = value := by
  rcases h with heq | ⟨htrue, -⟩
  · exact heq
  · exact nomatch htrue.symm.trans hfaults

/-- `inspect` reports an announced cleanup as pending. -/
theorem inspectEntry_meets (h : Kept save d₀ s) :
    Keeps save d₀ busy faults
      (inspectEntry save.place save.generation).run
      (fun r s' => Still save d₀ busy s s' ∧ (faults = false → busy = false →
        s.disk.exclusive = false → Pending save d₀ s.disk →
          r = .ok (some (save.report s.disk)))) s := by
  have hopen : Keeps save d₀ busy faults
      (ExceptT.run (m := Program Op Op.Answer) (do use .openFolder; use .leaseShared))
      (fun r s' => Still save d₀ busy s s' ∧ (faults = false → busy = false →
        s.disk.exclusive = false → Pending save d₀ s.disk → r = .ok ())) s := by
    refine Meets.andThen ((look_meets (show Op.looks .openFolder from trivial) h).weaken ?_)
    rintro (e | _) s₁ - ⟨h₁, hok⟩
    · exact ⟨h₁, fun hfaults _ _ hpending => nomatch (hok hfaults hpending).choose_spec⟩
    · refine (lease_meets (show Op.leases .leaseShared from trivial) h₁.kept).weaken ?_
      rintro r s₂ - ⟨h₂, hlease⟩
      refine ⟨h₁.trans h₂, fun hfaults hbusy hfree _ => ?_⟩
      obtain ⟨a, ha⟩ := hlease hfaults hbusy ((h₁.quiet hbusy).trans hfree)
      exact ha
  refine Meets.andThen (Meets.lift (hopen.weaken ?_))
  rintro r s₁ - ⟨h₁, hopened⟩
  show Meets _ _ _ _ s₁
  split
  · refine .pure h₁.kept ⟨h₁, fun hfaults hbusy hfree hpending => ?_⟩
    exact nomatch hopened hfaults hbusy hfree hpending
  · refine Meets.andThen ((stateFromRecords_meets h₁.kept).weaken ?_)
    rintro r s₂ - ⟨h₂, ⟨state, rfl⟩, hstate⟩
    refine Meets.result (readManifest_meets _ _ h₂.kept) fun manifest s₃ hmanifest h₃ => ?_
    refine Meets.result (readManifest_meets _ _ h₃.kept) fun authority s₄ hauthority h₄ => ?_
    refine Meets.andThen ((regularChild_meets .editor h₄.kept).weaken ?_)
    rintro r s₅ - ⟨h₅, ⟨proposed, rfl⟩, -⟩
    refine Meets.andThen ((regularChild_meets .displaced h₅.kept).weaken ?_)
    rintro r s₆ - ⟨h₆, ⟨displaced, rfl⟩, hdisplaced⟩
    refine Meets.andThen ((lease_meets (show Op.leases .release from trivial) h₆.kept).weaken ?_)
    have hto₆ := h₁.trans (h₂.trans (h₃.trans (h₄.trans (h₅.trans h₆))))
    rintro (e | _) s₇ - ⟨h₇, hrelease⟩
    · refine ⟨hto₆.trans h₇, fun hfaults hbusy hfree _ => ?_⟩
      exact nomatch (hrelease hfaults hbusy ((hto₆.quiet hbusy).trans hfree)).choose_spec
    · refine .pure h₇.kept ⟨hto₆.trans h₇, fun hfaults hbusy hfree hpending => ?_⟩
      have hpending₁ : Pending save d₀ s₁.disk :=
        hpending.same h₁.same (h₁.folder fun hdone =>
          hpending.authority_ne (hdone.gone .authority fun h => nomatch h))
      obtain ⟨hauth, hman⟩ := hpending₁.readsManifest
      have h₁₂ : Same s₁.disk s₂.disk := h₂.same
      rw [hauthority.sound hfaults, hmanifest.sound hfaults,
        Disk.readsManifest_same (h₂.same.trans h₃.same), Disk.readsManifest_same h₂.same, hauth,
        recoveryOf_announced
          ((hstate hfaults hpending₁).imp (fun h => Except.ok.inj h) fun h => Except.ok.inj h) hman,
        Except.ok.inj (hdisplaced hfaults),
        Disk.opens_same (h₁.trans (h₂.trans (h₃.trans (h₄.trans h₅)))).same]
      rfl

theorem inspect_meets (h : Kept save d₀ s) :
    Keeps save d₀ busy faults
      (inspect save.place save.generation).run
      (fun r s' => Still save d₀ busy s s' ∧ (faults = false → busy = false →
        s.disk.exclusive = false → Pending save d₀ s.disk → s.disk.place < 4096 →
          r = .ok (some (save.report s.disk)))) s := by
  refine Meets.andThen ((listed_meets h).weaken ?_)
  rintro (e | visited) s₁ - ⟨h₁, hlisted⟩
  · exact ⟨h₁, fun hfaults _ _ hpending => nomatch hlisted hfaults hpending⟩
  · refine Meets.answered (Meets.static trivial h₁.kept) (fun _ s₂ _ h₂ => ?_)
      fun e s₂ hanswered h₂ => ⟨h₁.trans h₂, fun hfaults => nomatch hanswered.sound hfaults⟩
    show Meets _ _ _ _ s₂
    have hto₂ := h₁.trans h₂
    split
    · refine (inspectEntry_meets h₂.kept).weaken ?_
      rintro r s₃ - ⟨h₃, hreport⟩
      refine ⟨hto₂.trans h₃, fun hfaults hbusy hfree hpending _ => ?_⟩
      have hnot : ¬Done save d₀ s.disk := fun hdone =>
        hpending.authority_ne (hdone.gone .authority fun h => nomatch h)
      rw [hreport hfaults hbusy ((hto₂.quiet hbusy).trans hfree)
        (hpending.same hto₂.same (hto₂.folder hnot)), Save.report, Disk.opens_same hto₂.same,
        Save.report]
    · next hvisited =>
      refine .pure h₂.kept ⟨hto₂, fun hfaults _ _ hpending hplace => ?_⟩
      have := Except.ok.inj (hlisted hfaults hpending)
      rw [this, decide_eq_true hplace] at hvisited
      exact absurd rfl hvisited

/-- The recovery names the displaced version where the save left one. -/
def Truthful (save : Save) (d : Disk) (recovery : CommitRecovery) : Prop :=
  recovery.displaced = true ↔
    save.manifest.mode = .replace ∧ d.names (.entry .displaced) ≠ none

theorem opens_of_regular {entry : Entry} (hrecords : save.records entry)
    (h : Sound save d₀ d) : d.opens (.entry entry) = match d.names (.entry entry) with
      | none => .error .notFound
      | some node => .ok node := by
  rw [Disk.opens]
  cases hnode : d.names (.entry entry) with
  | none => rfl
  | some node => exact if_pos (h.regular entry node hrecords hnode)

/-- What `inspect` reports is so. -/
theorem truthful_report (h : Sound save d₀ d) : Truthful save d (save.report d) := by
  rw [Truthful, Save.report, Bool.and_eq_true, beq_iff_eq]
  refine and_congr_right fun hmode => ?_
  rw [opens_of_regular (fun _ => hmode) h]
  cases d.names (.entry .displaced) with
  | none => exact ⟨fun h => (nomatch h), fun h => absurd rfl h⟩
  | some node => exact ⟨fun _ => Option.some_ne_none node, fun _ => rfl⟩

/-- What `preserved` found of an entry. -/
def Found (d : Disk) (entry : Entry) (artifacts : List (Entry × Node)) : Prop :=
  (∀ artifact ∈ artifacts, artifact.1 = entry ∧ d.names (.entry entry) = some artifact.2) ∧
    (d.names (.entry entry) ≠ none → ∃ node, (entry, node) ∈ artifacts)

/-- Taking an artifact over. -/
theorem preserved_meets {entry : Entry} (hrecords : save.records entry) (h : Kept save d₀ s) :
    Keeps save d₀ busy faults (preserved entry).run
      (fun r s' => Still save d₀ busy s s' ∧
        (∀ artifacts, r = .ok artifacts → Found s.disk entry artifacts) ∧
        (faults = false → ∃ artifacts, r = .ok artifacts)) s := by
  refine Meets.result (openRegular_meets _ h) fun r s₁ hanswered h₁ => ?_
  have hopens := opens_of_regular hrecords h.stage.sound
  show Meets _ _ _ _ s₁
  split
  · next node =>
    refine .pure h₁.kept ⟨h₁, fun artifacts hr => ?_, fun _ => ⟨_, rfl⟩⟩
    cases hr
    have hnode : s.disk.names (.entry entry) = some node := by
      rcases hanswered with hvalue | ⟨-, e, -, herror⟩
      · exact (Disk.opens_ok hvalue.symm).1
      · cases herror
    refine ⟨fun artifact hmem => ?_, fun _ => ⟨node, List.mem_singleton_self _⟩⟩
    rw [List.mem_singleton.mp hmem]
    exact ⟨rfl, hnode⟩
  · refine .pure h₁.kept ⟨h₁, fun artifacts hr => ?_, fun _ => ⟨_, rfl⟩⟩
    cases hr
    have hnone := Disk.opens_notFound hanswered.notFound
    exact ⟨fun artifact hmem => (nomatch hmem), fun hne => absurd hnone hne⟩
  · next e hother =>
    refine .pure h₁.kept ⟨h₁, fun _ hr => (nomatch hr), fun hfaults => ?_⟩
    have hvalue := hanswered.sound hfaults
    rw [hopens] at hvalue
    split at hvalue
    · cases hvalue
      exact absurd rfl hother
    · cases hvalue

theorem tokenOk_of_found {proposed displaced : List (Entry × Node)} {authority : Bool}
    (hproposed : Found d .editor proposed)
    (hdisplaced : save.manifest.mode = .replace → Found d .displaced displaced)
    (hnone : save.manifest.mode ≠ .replace → displaced = []) :
    TokenOk save d ⟨save.generation, displaced ++ proposed, authority⟩ where
  generation := rfl
  artifacts artifact hmem := by
    rcases List.mem_append.mp hmem with hmem | hmem
    · have hmode : save.manifest.mode = .replace := by
        by_contra hmode
        rw [hnone hmode] at hmem
        exact nomatch hmem
      obtain ⟨hentry, hnode⟩ := (hdisplaced hmode).1 artifact hmem
      rw [hentry]
      exact ⟨by decide, fun _ => hmode, Or.inl hnode⟩
    · obtain ⟨hentry, hnode⟩ := hproposed.1 artifact hmem
      rw [hentry]
      exact ⟨by decide, fun h => (nomatch h), Or.inl hnode⟩
  all entry hentry hrecords hleft := by
    rcases List.mem_cons.mp hentry with rfl | hentry
    · obtain ⟨node, hnode⟩ := hproposed.2 hleft
      exact ⟨node, List.mem_append_right _ hnode⟩
    · rw [List.mem_singleton] at hentry
      subst hentry
      obtain ⟨node, hnode⟩ := (hdisplaced (hrecords rfl)).2 hleft
      exact ⟨node, List.mem_append_left _ hnode⟩

/-- What resuming a save comes to. -/
abbrev Resumes (save : Save) (d₀ : Disk) (busy faults : Bool) (recovery : CommitRecovery)
    (s : System) (r : Except Errno Cleanup) (s' : System) : Prop :=
  Still save d₀ busy s s' ∧ (∀ token, r = .ok token → TokenOk save s'.disk token) ∧
    (faults = false → Pending save d₀ s.disk → recovery.target = some save.manifest.target →
      (∃ node, s.disk.opens .target = .ok node) → ∃ token, r = .ok token)

/-- The stage and the version that the token of a resumed save lists are those on the disk. -/
theorem token_meets {recovery : CommitRecovery} (htruthful : Truthful save s.disk recovery)
    {s₆ : System} (h₆ : Still save d₀ busy s s₆) :
    Keeps save d₀ busy faults
      (ExceptT.run (m := Program Op Op.Answer) (do
        let _ ← openRegular .target
        let proposed ← preserved .editor
        let displaced ← if recovery.displaced then preserved .displaced else pure []
        return (⟨save.generation, displaced ++ proposed, true⟩ : Cleanup)))
      (Resumes save d₀ busy faults recovery s) s₆ := by
  refine Meets.answered (openRegular_meets _ h₆.kept) (fun _ s₇ _ h₇ => ?_)
    fun e s₇ hanswered h₇ => ⟨h₆.trans h₇, fun _ hr => (nomatch hr),
      fun hfaults _ _ htarget => by
        obtain ⟨node, hnode⟩ := htarget
        have hvalue := hanswered.sound hfaults
        rw [Disk.opens_same h₆.same, hnode] at hvalue
        cases hvalue⟩
  have hto₇ := h₆.trans h₇
  have heditor : save.records .editor := fun h => nomatch h
  refine Meets.andThen ((preserved_meets heditor h₇.kept).weaken ?_)
  rintro (e | proposed) s₈ - ⟨h₈, hproposed, hsound⟩
  · exact ⟨hto₇.trans h₈, fun _ hr => (nomatch hr), fun hfaults =>
      nomatch (hsound hfaults).choose_spec⟩
  · have hto₈ := hto₇.trans h₈
    have hfound : Found s.disk .editor proposed := by
      have := hproposed proposed rfl
      rwa [Found, hto₇.same.names] at this
    have hend (displaced : List (Entry × Node)) {s₉ : System} (h₉ : Still save d₀ busy s s₉)
        (hdisplaced : save.manifest.mode = .replace → Found s.disk .displaced displaced)
        (hnone : save.manifest.mode ≠ .replace → displaced = []) :
        TokenOk save s₉.disk ⟨save.generation, displaced ++ proposed, true⟩ :=
      (tokenOk_of_found hfound hdisplaced hnone).fewer h₉.fewer
    show Meets _ _ _ _ s₈
    by_cases hnamed : recovery.displaced = true
    · obtain ⟨hmode, -⟩ := htruthful.mp hnamed
      rw [if_pos hnamed]
      refine Meets.andThen ((preserved_meets (fun _ => hmode) h₈.kept).weaken ?_)
      rintro (e | displaced) s₉ - ⟨h₉, hdisplaced, hsound⟩
      · exact ⟨hto₈.trans h₉, fun _ hr => (nomatch hr), fun hfaults =>
          nomatch (hsound hfaults).choose_spec⟩
      · have hfound' : Found s.disk .displaced displaced := by
          have := hdisplaced displaced rfl
          rwa [Found, hto₈.same.names] at this
        refine .pure h₉.kept ⟨hto₈.trans h₉, fun token hr => ?_, fun _ _ _ _ => ⟨_, rfl⟩⟩
        cases hr
        exact hend displaced (hto₈.trans h₉) (fun _ => hfound') fun hne => absurd hmode hne
    · rw [if_neg hnamed]
      refine .pure h₈.kept ⟨hto₈, fun token hr => ?_, fun _ _ _ _ => ⟨_, rfl⟩⟩
      cases hr
      refine hend [] hto₈ (fun hmode => ⟨fun _ hmem => (nomatch hmem), fun hleft => ?_⟩)
        fun _ => rfl
      exact absurd (htruthful.mpr ⟨hmode, hleft⟩) hnamed

/-- The token of `resume` covers what is left, and cleanup is still pending. -/
theorem resumeLeased_meets {recovery : CommitRecovery} (h : Kept save d₀ s)
    (htruthful : Truthful save s.disk recovery) :
    Keeps save d₀ busy faults
      (resumeLeased save.place save.generation recovery).run
      (Resumes save d₀ busy faults recovery s) s := by
  refine Meets.andThen ((stateFromRecords_meets h).weaken ?_)
  rintro r s₁ - ⟨h₁, ⟨state, rfl⟩, hstate⟩
  have hpending₁ (hpending : Pending save d₀ s.disk) : Pending save d₀ s₁.disk :=
    hpending.same h₁.same (h₁.folder fun hdone =>
      hpending.authority_ne (hdone.gone .authority fun h => nomatch h))
  refine Meets.answered (readManifest_meets _ _ h₁.kept) (fun manifest s₂ hmanifest h₂ => ?_)
    fun e s₂ hanswered h₂ => ⟨h₁.trans h₂, fun _ hr => (nomatch hr), fun hfaults hpending => by
      have hvalue := hanswered.sound hfaults
      rw [(hpending₁ hpending).readsManifest.1] at hvalue
      cases hvalue⟩
  obtain ⟨-, -, rfl, -⟩ := h₁.kept.stage.authority_of_reads hmanifest
  have hto₂ := h₁.trans h₂
  refine Meets.answered (meets_refuse h₂.kept) (fun _ s₃ _ h₃ => ?_)
    fun e s₃ hanswered h₃ => ⟨hto₂.trans h₃, fun _ hr => (nomatch hr), fun hfaults hpending => by
      have hvalue := hanswered.sound hfaults
      have hfound := (hstate hfaults hpending).imp (fun h => Except.ok.inj h)
        fun h => Except.ok.inj h
      rw [if_neg (not_not.mpr hfound)] at hvalue
      cases hvalue⟩
  have hto₃ := hto₂.trans h₃
  refine Meets.answered (meets_refuse h₃.kept) (fun _ s₄ _ h₄ => ?_)
    fun e s₄ hanswered h₄ => ⟨hto₃.trans h₄, fun _ hr => (nomatch hr), fun hfaults _ htarget => by
      have hvalue := hanswered.sound hfaults
      rw [if_neg] at hvalue
      · cases hvalue
      · rintro (hne | ⟨hparent, hstore⟩)
        · exact hne htarget
        · rcases save.home with hhome | hhome
          · exact hparent (hhome ▸ save.parent)
          · exact hstore hhome⟩
  have hto₄ := hto₃.trans h₄
  refine Meets.result (readManifest_meets _ _ h₄.kept) fun primary s₅ hprimary h₅ => ?_
  have hto₅ := hto₄.trans h₅
  -- The primary manifest is the same, or it is not there.
  cases primary with
  | error e => exact token_meets htruthful hto₅
  | ok found =>
    refine Meets.answered (meets_refuse h₅.kept) (fun _ s₆ _ h₆ =>
        token_meets htruthful (hto₅.trans h₆))
      fun e s₆ hanswered h₆ => ⟨hto₅.trans h₆, fun _ hr => (nomatch hr), fun hfaults hpending => by
        have hvalue := hanswered.sound hfaults
        have hread := hprimary.sound hfaults
        rw [Disk.readsManifest_same (h₂.trans (h₃.trans h₄)).same] at hread
        rw [if_neg] at hvalue
        · cases hvalue
        · rw [not_not]
          rcases (hpending₁ hpending).readsManifest.2 with hok | ⟨e, herror⟩
          · exact Except.ok.inj (hread.trans hok)
          · exact nomatch hread.trans herror⟩

/-- `resume` on an announced cleanup. -/
theorem resume_meets {recovery : CommitRecovery} (h : Kept save d₀ s)
    (htruthful : Truthful save s.disk recovery) :
    Keeps save d₀ busy faults
      (resume save.place save.generation recovery).run
      (fun r s' => Still save d₀ busy s s' ∧
        (∀ token, r = .ok (some token) → TokenOk save s'.disk token) ∧
        (faults = false → busy = false → s.disk.exclusive = false → Pending save d₀ s.disk →
          recovery = save.report s.disk → (∃ node, s.disk.opens .target = .ok node) →
            ∃ token, r = .ok (some token))) s := by
  unfold resume
  split
  · next hother =>
    refine .pure h ⟨.refl h, fun _ hr => (nomatch hr), fun _ _ _ _ hreport => ?_⟩
    subst hreport
    rcases hother with hfalse | hstate
    · cases hfalse
    · exact absurd rfl hstate
  · refine Meets.andThen ((look_meets (show Op.looks .openFolder from trivial) h).weaken ?_)
    rintro (e | _) s₁ - ⟨h₁, hopen⟩
    · exact ⟨h₁, fun _ hr => (nomatch hr), fun hfaults _ _ hpending =>
        nomatch (hopen hfaults hpending).choose_spec⟩
    refine Meets.andThen ((lease_meets (show Op.leases .leaseShared from trivial) h₁.kept).weaken ?_)
    rintro (e | _) s₂ - ⟨h₂, hlease⟩
    · exact ⟨h₁.trans h₂, fun _ hr => (nomatch hr), fun hfaults hbusy hfree =>
        nomatch (hlease hfaults hbusy ((h₁.quiet hbusy).trans hfree)).choose_spec⟩
    have hto₂ := h₁.trans h₂
    have htruthful₂ : Truthful save s₂.disk recovery := by
      rw [Truthful, hto₂.same.names]
      exact htruthful
    refine Meets.andThen (Meets.lift ((resumeLeased_meets h₂.kept htruthful₂).weaken ?_))
    rintro r s₃ - ⟨h₃, htoken, hok⟩
    have hto₃ := hto₂.trans h₃
    show Meets _ _ _ _ s₃
    split
    · next token =>
      refine .pure h₃.kept ⟨hto₃, fun token' hr => ?_, fun _ _ _ _ _ _ => ⟨_, rfl⟩⟩
      cases hr
      exact htoken _ rfl
    · next e =>
      have hno : faults = false → Pending save d₀ s.disk → recovery = save.report s.disk →
          (∃ node, s.disk.opens .target = .ok node) → False := by
        intro hfaults hpending hreport htarget
        have hpending₂ : Pending save d₀ s₂.disk :=
          hpending.same hto₂.same (hto₂.folder fun hdone =>
            hpending.authority_ne (hdone.gone .authority fun h => nomatch h))
        obtain ⟨token, hr⟩ := hok hfaults hpending₂ (hreport ▸ rfl)
          (by rw [Disk.opens_same hto₂.same]; exact htarget)
        cases hr
      refine Meets.andThen ((lease_meets (show Op.leases .release from trivial) h₃.kept).weaken ?_)
      rintro (e' | _) s₄ - ⟨h₄, -⟩
      · exact ⟨hto₃.trans h₄, fun _ hr => (nomatch hr), fun hfaults _ _ hpending hreport htarget =>
          (hno hfaults hpending hreport htarget).elim⟩
      · exact .pure h₄.kept ⟨hto₃.trans h₄, fun _ hr => (nomatch hr),
          fun hfaults _ _ hpending hreport htarget =>
            (hno hfaults hpending hreport htarget).elim⟩

/-! ## §3 Runs of a transaction -/

/-- A committed save with its receipt. -/
structure Committed (save : Save) (d₀ : Disk) (receipt : Cleanup) : Prop
    extends Before save d₀ d₀ where
  unpublished : d₀.names (.entry .authority) = none
  token : TokenOk save d₀ receipt

/-- The folder before anything else happens to it. -/
def System.start (d₀ : Disk) : System := ⟨d₀, fun _ => none, none, false⟩

/-- What happens to a committed save: the process that saved retires the transaction, with
every crash and every failure; then inspections, and resumed cleanups of what was announced;
processes end, and others call `reclaim`. -/
inductive History (save : Save) (d₀ : Disk) (receipt : Cleanup) : System → Prop
  | retired {n : Nat} {r : Option Cleanup} {s : System}
      (h : Run (machine save.generation true true) (System.start d₀) (retries n receipt) r s) :
      History save d₀ receipt s
  | inspected {s s' : System} {r : Option (Except Errno (Option CommitRecovery))}
      (h : History save d₀ receipt s)
      (hrun : Run (machine save.generation true true) s
        (inspect save.place save.generation).run r s') : History save d₀ receipt s'
  | resumed {s s' : System} {recovery : CommitRecovery} {calls : List Call} {r : Option Unit}
      (h : History save d₀ receipt s) (hannounced : s.announced = true)
      (htruthful : Truthful save s.disk recovery)
      (hrun : Run (machine save.generation true true) s
        (resumeAndCall save.place save.generation recovery calls) r s') :
      History save d₀ receipt s'
  | ended {s : System} (leases : Nat) (h : History save d₀ receipt s) :
      History save d₀ receipt { s with disk := { s.disk with leases := leases } }
  | reclaimed {s s' : System} (h : History save d₀ receipt s)
      (hstep : Reclaims save.generation s s') : History save d₀ receipt s'

variable {receipt : Cleanup}

theorem Committed.kept (h : Committed save d₀ receipt) : Kept save d₀ (System.start d₀) where
  watched := ⟨fun _ _ hp => (nomatch hp), fun hholder => absurd rfl hholder⟩
  stage := .before h.toBefore

/-- A resumed cleanup keeps what was announced. -/
theorem resumeAndCall_meets {recovery : CommitRecovery} {calls : List Call} (h : Kept save d₀ s)
    (hannounced : s.announced = true) (htruthful : Truthful save s.disk recovery) :
    Keeps save d₀ busy faults
      (resumeAndCall save.place save.generation recovery calls) (fun _ s' => Kept save d₀ s') s := by
  refine Meets.bind ((resume_meets h htruthful).weaken ?_)
  rintro r s₁ - ⟨h₁, htoken, -⟩
  show Meets _ _ _ _ s₁
  split
  · next token =>
    refine Meets.bind ((runCalls_meets calls h₁.kept (h₁.announced.trans hannounced)
      (htoken token rfl)).weaken fun _ s₂ _ h₂ => ?_)
    exact Meets.bind ((lease_meets (show Op.leases .release from trivial) h₂).weaken
      fun _ s₃ _ h₃ => .pure h₃.1.kept h₃.1.kept)
  · exact .pure h₁.kept h₁.kept

/-- Every world of a run is in one of the states. -/
theorem History.kept (hcommitted : Committed save d₀ receipt) (h : History save d₀ receipt s) :
    Kept save d₀ s := by
  induction h with
  | retired hrun => exact ((retries_meets _ hcommitted.kept hcommitted.token).run hrun).1
  | inspected _ hrun ih => exact ((inspect_meets ih).run hrun).1
  | resumed _ hannounced htruthful hrun ih =>
    exact ((resumeAndCall_meets ih hannounced htruthful).run hrun).1
  | @ended s leases _ ih =>
    exact ⟨⟨fun i p hp => (ih.watched.watched i p hp).mono id id, ih.watched.exclusive⟩,
      ih.stage.same ⟨rfl, rfl, rfl, rfl, rfl⟩ fun _ => rfl⟩
  | @reclaimed s s' _ hstep ih =>
    have hothers : Others save.generation true s s' := Relation.ReflTransGen.single hstep
    exact (ih.others hothers).1

/-! ## §4 Live transactions -/

/-- Any transaction, with a live process and calls of `reclaim`.  A live process holds a shared
lease while it works in the folder, where the filesystem has locks. -/
inductive Beside (generation : Generation) : System → Prop
  | start {d : Disk} (hfree : d.exclusive = false) : Beside generation (System.start d)
  | live {s : System} {d' : Disk} (h : Beside generation s)
      (hlease : s.disk.leases ≠ 0 ∨ s.disk.flock = false)
      (hleases : d'.leases = s.disk.leases ∧ d'.exclusive = s.disk.exclusive ∧
        d'.flock = s.disk.flock) : Beside generation { s with disk := d' }
  | leased {s : System} {d' : Disk} (h : Beside generation s)
      (hstep : s.disk.does .leaseShared = (.ok (), d')) : Beside generation { s with disk := d' }
  | ended {s : System} (leases : Nat) (h : Beside generation s)
      (hfewer : leases ≤ s.disk.leases) :
      Beside generation { s with disk := { s.disk with leases := leases } }
  | reclaimed {s s' : System} (h : Beside generation s) (hstep : Reclaims generation s s') :
      Beside generation s'

/-- What a reclaimer is allowed leaves the shared leases. -/
theorem Phase.allows.leases {phase : Phase} {d d' : Disk} {op : Op} {answer : op.Answer}
    (hallows : phase.allows op) (h : Performs faults d op answer d') :
    d'.leases = d.leases ∧ d'.flock = d.flock := by
  rcases h with hdoes | ⟨-, -, e, -, -, rfl | ⟨node, bytes, k, rfl, -⟩⟩
  · have hd : d' = (d.does op).2 := congrArg Prod.snd hdoes
    subst hd
    cases op with
    | unlink name | removeFolder | leaseExclusive =>
      simp only [Disk.does]
      split
      · exact ⟨rfl, rfl⟩
      · split <;> exact ⟨rfl, rfl⟩
    | stat name | openAny name | kind node | read node | sync | stillNamed | openFolder | list
    | listed | checkCancelled => exact ⟨rfl, rfl⟩
    | create name | write node bytes | setLen node length | setMetadata node
    | renameNoReplace a b | rename a b | exchange a b | makeFolder | leaseShared | release =>
      exact absurd hallows id
  · exact ⟨rfl, rfl⟩
  · exact absurd hallows id

theorem flock_of_lease {d d' : Disk} (h : Performs faults d .leaseExclusive (.ok ()) d') :
    d.flock = true := by
  rcases h with hdoes | ⟨-, -, e, -, herror, -⟩
  · simp only [Disk.does] at hdoes
    split at hdoes
    · cases hdoes
    · next hflock => exact Bool.not_eq_false _ ▸ hflock
  · cases herror

/-- What a reclaimer has seen of any transaction: a lease excludes the others. -/
structure Spared (s : System) : Prop extends AllWatched s where
  alone : s.holder ≠ none → s.disk.leases = 0 ∧ s.disk.flock = true

/-- Without the exclusive lease nobody has seen a clear folder. -/
theorem AllWatched.changed {d' : Disk} (h : AllWatched s) (hnone : s.holder = none) :
    AllWatched { s with disk := d' } where
  watched i p hp := by
    obtain ⟨phase, hguarded, hheld, -⟩ := h.watched i p hp
    refine ⟨phase, hguarded, hheld, fun hclear => ?_⟩
    have := hheld (fun hfree => nomatch hclear.symm.trans hfree)
    rw [hnone] at this
    cases this
  exclusive hholder := absurd hnone hholder

theorem Reclaims.spared {generation : Generation} (h : Spared s)
    (hstep : Reclaims generation s s') : Spared s' := by
  refine ⟨(hstep.effect h.toAllWatched).1, fun hholder => ?_⟩
  cases hstep with
  | start i folder hfree => exact h.alone hholder
  | leave i =>
    have hwas : s.holder ≠ none := fun hnone => by
      simp only [hnone, ite_self] at hholder
      exact hholder rfl
    have halone := h.alone hwas
    show (if s.holder = some i then { s.disk with exclusive := false } else s.disk).leases = 0 ∧
      (if s.holder = some i then { s.disk with exclusive := false } else s.disk).flock = true
    split <;> exact halone
  | @step i op next answer d' hprogram hperforms =>
    obtain ⟨phase, hguarded, -, -⟩ := h.watched i _ hprogram
    have hallows : phase.allows op := (hguarded.2 answer _ rfl).holds.2
    obtain ⟨hleases, hflock⟩ := hallows.leases hperforms
    show d'.leases = 0 ∧ d'.flock = true
    rw [hleases, hflock]
    by_cases hchanged : holderAfter s.holder i op answer = s.holder
    · exact h.alone (hchanged ▸ hholder)
    · unfold holderAfter at hchanged
      split at hchanged
      · exact ⟨(exclusive_of_lease hperforms).2.1, flock_of_lease hperforms⟩
      · exact absurd rfl hchanged

theorem Beside.spared {generation : Generation} (h : Beside generation s) : Spared s := by
  induction h with
  | start hfree => exact ⟨⟨fun _ _ hp => (nomatch hp), fun hholder => absurd rfl hholder⟩,
      fun hholder => absurd rfl hholder⟩
  | @live s d' _ hlease hleases ih =>
    have hnone : s.holder = none := by
      by_contra hholder
      obtain ⟨hzero, hflock⟩ := ih.alone hholder
      rcases hlease with hne | hno
      · exact hne hzero
      · exact nomatch hflock.symm.trans hno
    exact ⟨ih.toAllWatched.changed hnone, fun hholder => absurd hnone hholder⟩
  | @leased s d' _ hstep ih =>
    have hnone : s.holder = none ∨ s.disk.flock = false := by
      by_contra hholder
      rw [not_or] at hholder
      simp only [Disk.does, if_neg hholder.2, ih.exclusive hholder.1] at hstep
      cases hstep
    have hnone : s.holder = none := by
      rcases hnone with hnone | hflock
      · exact hnone
      · by_contra hholder
        exact nomatch (ih.alone hholder).2.symm.trans hflock
    exact ⟨ih.toAllWatched.changed hnone, fun hholder => absurd hnone hholder⟩
  | @ended s leases _ hfewer ih =>
    refine ⟨⟨fun i p hp => (ih.watched i p hp).mono id id, ih.exclusive⟩, fun hholder => ?_⟩
    obtain ⟨hzero, hflock⟩ := ih.alone hholder
    exact ⟨Nat.le_zero.mp (hzero ▸ hfewer), hflock⟩
  | reclaimed _ hstep ih => exact hstep.spared ih

/-- `reclaim` removes nothing of a live process, and nothing beside a state record. -/
theorem Beside.reclaims {generation : Generation} (h : Beside generation s)
    (hstep : Reclaims generation s s') (hchanged : s'.disk.content ≠ s.disk.content) :
    s.disk.leases = 0 ∧ OnlyReclaimable s.disk := by
  have hspared := h.spared
  cases hstep with
  | start i folder hfree => exact absurd rfl hchanged
  | leave i =>
    refine absurd ?_ hchanged
    show (if s.holder = some i then { s.disk with exclusive := false } else s.disk).content = _
    split <;> rfl
  | @step i op next answer d' hprogram hperforms =>
    obtain ⟨phase, hguarded, hheld, hclear⟩ := hspared.watched i _ hprogram
    have hallows : phase.allows op := (hguarded.2 answer _ rfl).holds.2
    rcases hallows.effect hperforms with hkept | ⟨hphase, -⟩
    · exact absurd hkept hchanged
    · have hholder := hheld (fun hfree => nomatch hphase.symm.trans hfree)
      exact ⟨(hspared.alone (hholder ▸ Option.some_ne_none i)).1, hclear hphase⟩

/-! ## §5 Crash safety -/

/-- What holds of an announced cleanup that is not at its end, while no call of `reclaim` holds
the lease of the folder. -/
structure CrashSafe (save : Save) (d₀ : Disk) (s : System) : Prop where
  reported : s.disk.exclusive = false → s.disk.place < 4096 → ∀ r s',
    Run (machine save.generation false false) s
      (inspect save.place save.generation).run (some r) s' →
    r = .ok (some (save.report s.disk))
  resumed : s.disk.exclusive = false → (∃ node, s.disk.opens .target = .ok node) → ∀ r s',
    Run (machine save.generation false false) s
      (resume save.place save.generation (save.report s.disk)).run (some r) s' →
    ∃ token, r = .ok (some token)
  finished : s.disk.exclusive = false → (∃ node, s.disk.opens .target = .ok node) →
    (∃ s', Run (machine save.generation false false) s
      (resumeAndCall save.place save.generation (save.report s.disk) [.cleanup]) (some ()) s') ∧
    ∀ s', Run (machine save.generation false false) s
      (resumeAndCall save.place save.generation (save.report s.disk) [.cleanup]) (some ()) s' →
      Done save d₀ s'.disk
  spared : ∀ s', Reclaims save.generation s s' → s'.disk.content = s.disk.content

/-- Nothing fails, and nobody else acts. -/
def System.answers (s : System) (op : Op) : op.Answer × System :=
  ((s.disk.does op).1, s.after (s.disk.does op).2)

theorem System.answers_machine {generation : Generation} {busy faults : Bool} (s : System)
    (op : Op) : machine generation busy faults s op (s.answers op).1 (s.answers op).2 := by
  refine ⟨s, (s.disk.does op).2, ?_, Or.inl rfl, rfl⟩
  rw [Others]
  split
  · exact .refl
  · rfl

/-- A round that nothing interrupts ends the cleanup. -/
theorem Pending.round (h : Kept save d₀ s) (hannounced : s.announced = true)
    (hpending : Pending save d₀ s.disk) (hfree : s.disk.exclusive = false)
    (htarget : ∃ node, s.disk.opens .target = .ok node) :
    Meets (machine save.generation false false) (Kept save d₀)
      (resumeAndCall save.place save.generation (save.report s.disk) [.cleanup])
      (fun _ s' => Done save d₀ s'.disk) s := by
  refine Meets.bind ((resume_meets h (truthful_report h.stage.sound)).weaken ?_)
  rintro r s₁ - ⟨h₁, htoken, hok⟩
  obtain ⟨token, rfl⟩ := hok rfl rfl hfree hpending rfl htarget
  have hpending₁ : Pending save d₀ s₁.disk :=
    hpending.same h₁.same (h₁.folder fun hdone =>
      hpending.authority_ne (hdone.gone .authority fun h => nomatch h))
  refine Meets.bind (Meets.bind ((call_meets .cleanup h₁.kept (h₁.announced.trans hannounced)
    (htoken token rfl)).weaken ?_))
  rintro next s₂ - ⟨hkept, -, -, hdone⟩
  refine .pure hkept (Meets.bind ((lease_meets (show Op.leases .release from trivial) hkept).weaken
    fun _ s₃ _ h₃ => .pure h₃.1.kept ?_))
  exact (hdone rfl rfl hpending₁).same h₃.1.same

/-- Whatever interrupts the process that saved and those that resume its cleanup, an announced
cleanup is reported as pending, and resumed, until none of its entries is left.  The other
entries stay, and `reclaim` spares every live and every recorded transaction. -/
theorem cleanup_crash_safe (hcommitted : Committed save d₀ receipt)
    (h : History save d₀ receipt s) :
    (s.announced = true → Pending save d₀ s.disk ∧ CrashSafe save d₀ s ∨
      Done save d₀ s.disk) ∧
    (s.disk.foreign = d₀.foreign ∧ s.disk.names .target = d₀.names .target ∧
      s.disk.names .stage = d₀.names .stage ∧
      ∀ entry ∈ artifactEntries, s.disk.names (.entry entry) = d₀.names (.entry entry) ∨
        s.disk.names (.entry entry) = none ∧ save.records entry) ∧
    ∀ t t', Beside save.generation t → Reclaims save.generation t t' →
      t'.disk.content ≠ t.disk.content → t.disk.leases = 0 ∧ OnlyReclaimable t.disk := by
  have hkept := h.kept hcommitted
  have hsound := hkept.stage.sound
  refine ⟨fun hannounced => ?_, ⟨hsound.foreign, hsound.target.1, hsound.stage, hsound.artifact⟩,
    fun t t' hbeside hstep hchanged => hbeside.reclaims hstep hchanged⟩
  have hstage := hkept.stage
  rw [hannounced] at hstage
  cases hstage with
  | done hdone => exact Or.inr hdone
  | pending hpending =>
    refine Or.inl ⟨hpending, ?_⟩
    constructor
    · intro hfree hplace r s' hrun
      exact ((inspect_meets hkept).run hrun).2 r rfl |>.2 rfl rfl hfree hpending hplace
    · intro hfree htarget r s' hrun
      exact ((resume_meets hkept (truthful_report hsound)).run hrun).2 r rfl |>.2.2 rfl rfl hfree
        hpending rfl htarget
    · intro hfree htarget
      refine ⟨⟨_, Run.follow (fun s op => s.answers_machine op) _ s⟩, fun s' hrun => ?_⟩
      exact ((hpending.round hkept hannounced hfree htarget).run hrun).2 () rfl
    · intro s' hstep
      obtain ⟨-, -, heffect⟩ := hstep.effect hkept.watched
      cases heffect with
      | kept h => exact h
      | shrunk honly _ => exact absurd honly (not_only_of_name (by decide) hpending.authority_ne)

/-! ### A reclaimer beside an announced cleanup -/

/-- A save of `/d/f` that replaced a file. -/
def notes : Save where
  generation := 7
  manifest := ⟨ascii "/d/f", .replace⟩
  bytes := MANIFEST_MAGIC ++ (leBytes 16 7 ++ (1 :: (leBytes 4 4 ++ ascii "/d/f")))
  place := ⟨ascii "/d", ascii "/d", none⟩
  encoded := by decide +kernel
  absolute := by decide +kernel
  parent := by decide +kernel
  home := Or.inl rfl

def notesNames : Name → Option Node
  | .target => some 0
  | .entry .editor => some 1
  | .entry .displaced => some 2
  | .entry .manifest => some 3
  | .entry (.state .precommit) => some 4
  | .entry (.state .replaced) => some 5
  | _ => none

def notesObject : Node → Object
  | 2 => ⟨.regular, ascii "old"⟩
  | 3 => ⟨.regular, notes.bytes⟩
  | 4 => ⟨.regular, stateRecord .precommit⟩
  | 5 => ⟨.regular, stateRecord .replaced⟩
  | _ => ⟨.regular, ascii "new"⟩

def notesDisk : Disk where
  names := notesNames
  object := notesObject
  fresh := 6
  folder := true
  foreign := []
  place := 0
  flock := true
  noReplace := true
  exchange := true
  leases := 1
  exclusive := false

def notesReceipt : Cleanup := ⟨7, [(.editor, 1), (.displaced, 2)], false⟩

theorem notesNames_some {name : Name} {node : Node} (h : notesNames name = some node) :
    node < 6 ∧ (notesObject node).kind = .regular := by
  have hcase : node = 0 ∨ node = 1 ∨ node = 2 ∨ node = 3 ∨ node = 4 ∨ node = 5 := by
    unfold notesNames at h
    split at h <;> first | (cases h; decide) | cases h
  rcases hcase with rfl | rfl | rfl | rfl | rfl | rfl <;> exact ⟨by decide, rfl⟩

theorem notes_committed : Committed notes notesDisk notesReceipt where
  fresh _ _ h := (notesNames_some h).1
  regular _ _ _ h := (notesNames_some h).2
  unverified := rfl
  artifact _ _ := Or.inl rfl
  target := ⟨rfl, rfl⟩
  stage := rfl
  foreign := rfl
  place := rfl
  folder := rfl
  manifest := rfl
  precommit := fun h => nomatch h
  unmarked := rfl
  authority := Or.inl rfl
  unpublished := rfl
  token := {
    generation := rfl
    artifacts := by
      intro artifact hmem
      rcases List.mem_cons.mp hmem with rfl | hmem
      · exact ⟨by decide, fun _ => rfl, Or.inl rfl⟩
      · rw [List.mem_singleton.mp hmem]
        exact ⟨by decide, fun _ => rfl, Or.inl rfl⟩
    all := by
      intro entry hentry _ _
      rcases List.mem_cons.mp hentry with rfl | hentry
      · exact ⟨1, List.mem_cons_self⟩
      · rw [List.mem_singleton.mp hentry]
        exact ⟨2, List.mem_cons_of_mem _ List.mem_cons_self⟩ }

/-- Only `still_named` fails, so that cleanup ends before it removes anything. -/
def System.interrupts (s : System) (op : Op) : op.Answer × System :=
  if op = .stillNamed then (.error .io, s.after s.disk) else s.answers op

theorem System.interrupts_machine {generation : Generation} (s : System) (op : Op) :
    machine generation true true s op (s.interrupts op).1 (s.interrupts op).2 := by
  unfold System.interrupts
  split
  · next hop =>
    subst hop
    exact ⟨s, s.disk, .refl, Or.inr ⟨rfl, fun h => (nomatch h), .io, rfl, rfl, Or.inl rfl⟩, rfl⟩
  · exact s.answers_machine op

/-- The next step of a call of `reclaim`. -/
def System.advance (s : System) (i : Nat) : System :=
  match s.reclaimers i with
  | some (.call op next) =>
    { s with
      disk := (s.disk.does op).2
      reclaimers := Function.update s.reclaimers i (some (next (s.disk.does op).1))
      holder := holderAfter s.holder i op (s.disk.does op).1 }
  | _ => s

theorem History.advance (h : History save d₀ receipt s) (i : Nat) :
    History save d₀ receipt (s.advance i) := by
  unfold System.advance
  split
  · next op next hprogram => exact .reclaimed h (.step i hprogram (Or.inl rfl))
  · exact h

/-- The cleanup of `notes` is announced, and its process is gone. -/
def notesAnnounced : System :=
  let s := ((retries 1 notesReceipt).follow System.interrupts (System.start notesDisk)).2
  { s with disk := { s.disk with leases := 0 } }

theorem notesAnnounced_history : History notes notesDisk notesReceipt notesAnnounced :=
  .ended 0 (.retired (Run.follow (fun s op => s.interrupts_machine op) _ _))

theorem cleanup_crash_safe_notes :
    Pending notes notesDisk notesAnnounced.disk ∧ CrashSafe notes notesDisk notesAnnounced ∨
      Done notes notesDisk notesAnnounced.disk :=
  (cleanup_crash_safe notes_committed notesAnnounced_history).1 (by decide +kernel)

/-- Another process calls `reclaim`, up to its lease. -/
def notesReclaimed : System :=
  let s : System := { notesAnnounced with
    reclaimers := Function.update notesAnnounced.reclaimers 0
      (some (reclaimEntry (ascii "/d") 7).run) }
  ((((s.advance 0).advance 0).advance 0).advance 0).advance 0

theorem notesReclaimed_history : History notes notesDisk notesReceipt notesReclaimed :=
  (((((History.reclaimed notesAnnounced_history (.start 0 (ascii "/d") rfl)).advance 0).advance
    0).advance 0).advance 0).advance 0

/-- While a call of `reclaim` holds the lease, an announced cleanup is reported as unverified,
though none of its records is gone. -/
theorem lease_hides_cleanup :
    ∃ s, History notes notesDisk notesReceipt s ∧ s.announced = true ∧
      (s.disk.names (.entry .authority)).isSome = true ∧
      ∃ s', Run (machine notes.generation false false) s
        (inspect notes.place notes.generation).run (some (.ok (some .unverified))) s' := by
  refine ⟨notesReclaimed, notesReclaimed_history, by decide +kernel, by decide +kernel, ?_⟩
  have hanswers (s : System) (op : Op) :
      machine notes.generation false false s op (s.answers op).1 (s.answers op).2 :=
    s.answers_machine op
  have hrun := Run.follow hanswers (inspect notes.place notes.generation).run notesReclaimed
  have hresult : ((inspect notes.place notes.generation).run.follow System.answers
      notesReclaimed).1 = .ok (some .unverified) := by
    decide +kernel
  rw [hresult] at hrun
  exact ⟨_, hrun⟩

end BareLine.SaveTransaction
