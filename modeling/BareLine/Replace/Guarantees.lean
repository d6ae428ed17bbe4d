import BareLine.Replace.Restoring

/-!
# What a job never does

A job is applied, and then reconciled and rolled back any number of times.  It may end at any
moment, other programs may change any file at any moment, and whatever may fail may fail.
-/

namespace BareLine.Replace

open Lib

variable {Digest Edit Encoding : Type} [DecidableEq Digest]

/-! ## §1 Sessions -/

/-- The world in which a procedure starts; the memory is whatever is left there. -/
def World.begin (w : World Digest) (procedure : Procedure) (memory : ReplaceReceipt Digest) :
    World Digest :=
  { w with trail := { w.trail with procedure, memory } }

/-- The worlds a job leads to, each with the result of the last procedure if it returned. -/
inductive Session (job : Job Digest Edit Encoding) :
    Option (Except IoError (ReplaceReceipt Digest)) → World Digest → Prop
  | apply {w w' : World Digest} {memory : ReplaceReceipt Digest}
      {result : Option (Except IoError (ReplaceReceipt Digest))}
      (hdisk : w.trail.disk = none) (hlog : w.trail.log = [])
      (hrun : Run (machine job.services.sha256) (w.begin .apply memory) (applyDiskFiles job).run
        result w') : Session job result w'
  | reconcile {w w' : World Digest} {memory : ReplaceReceipt Digest}
      {result result' : Option (Except IoError (ReplaceReceipt Digest))}
      (h : Session job result w)
      (hrun : Run (machine job.services.sha256) (w.begin .reconcile memory)
        (reconcileReceipt job.services).run result' w') : Session job result' w'
  | rollback {w w' : World Digest} {memory : ReplaceReceipt Digest}
      {result result' : Option (Except IoError (ReplaceReceipt Digest))}
      (h : Session job result w)
      (hrun : Run (machine job.services.sha256) (w.begin .rollback memory)
        (rollbackReceipt job.services job.paging).run result' w') : Session job result' w'

section Sessions

variable {job : Job Digest Edit Encoding} {w w' : World Digest}
variable {result : Option (Except IoError (ReplaceReceipt Digest))}

omit [DecidableEq Digest] in
theorem Trustworthy.begin (h : Trustworthy job w.trail) (procedure : Procedure)
    (memory : ReplaceReceipt Digest) : Trustworthy job (w.begin procedure memory).trail :=
  ⟨h.disk, h.overwrites⟩

omit [DecidableEq Digest] in
/-- A run in the machine, judged by what it does to the job's data. -/
theorem judge {p : Task Digest (ReplaceReceipt Digest)}
    (h : Keeps job p.run
      (fun r t' => ∀ receipt, r = .ok receipt → Tracks job t'.log none receipt.files) w.trail)
    (hrun : Run (machine job.services.sha256) w p.run result w') :
    Trustworthy job w'.trail ∧ ∀ receipt, result = some (.ok receipt) →
      Tracks job w'.trail.log none receipt.files := by
  obtain ⟨htrust, hpost⟩ := h.run (hrun.map World.trail fun _ _ _ _ => trace_of_machine)
  exact ⟨htrust, fun receipt heq => hpost _ heq receipt rfl⟩

/-- Every world of a job keeps the invariant, and every receipt returned fits. -/
theorem Session.trustworthy (hinjective : Function.Injective job.services.sha256)
    (h : Session job result w) :
    Trustworthy job w.trail ∧ ∀ receipt, result = some (.ok receipt) →
      Tracks job w.trail.log none receipt.files := by
  induction h with
  | @apply w w' memory result hdisk hlog hrun =>
    refine judge (meets_applyDiskFiles hinjective ⟨fun receipt heq => ?_, fun _ _ _ _ hmem => ?_⟩
      rfl) hrun
    · exact nomatch hdisk.symm.trans heq
    · have hmem : _ ∈ w.trail.log := hmem
      rw [hlog] at hmem
      cases hmem
  | reconcile h hrun ih =>
    refine judge (meets_reconcileReceipt hinjective (ih.1.begin _ _) (fun t' h' receipt heq => ?_)
      fun e t' _ receipt heq => nomatch heq) hrun
    cases heq
    exact h'.fits.tracks
  | rollback h hrun ih => exact judge (meets_rollbackReceipt hinjective (ih.1.begin _ _) rfl) hrun

end Sessions

/-! ## §2 Reconciling resolves records -/

section Reconciling

variable {services : Services Digest Edit Encoding} {readable : Path → Prop}
variable {w w' : World Digest} {index : Nat}

/-- What the machine says of a readable file: its data, or that there is none. -/
def Truth {α : Type} (entry : Option FileEntry) (f : FileEntry → α) (r : Except IoError α) : Prop :=
  match entry with
  | some entry => r = .ok (f entry)
  | none => ∃ text, r = .error ⟨.notFound, text⟩

/-- What a machine answers on which nothing is cancelled or fails by itself, and every readable
path can be read. -/
def obliging (readable : Path → Prop) (w : World Digest) : (op : Op Digest) → op.Answer → Prop
  | .isCancelled, cancelled => cancelled = false
  | .approve path _, r => readable path → Truth (w.files path) (fun _ => ()) r
  | .identity path, r => readable path → Truth (w.files path) (·.identity) r
  | .read path, r => readable path → Truth (w.files path) (·.content) r
  | .readReceipt, r => ∀ receipt, w.trail.disk = some receipt → r = .ok receipt
  | .publishJson, r => r = .ok ()
  | _, _ => True

/-- Such a machine, with no other program that changes a file. -/
def still (sha256 : Bytes → Digest) (readable : Path → Prop) :
    Machine (Op Digest) Op.Answer (World Digest) :=
  fun w op answer w' => respond sha256 w op answer w' ∧ obliging readable w op answer

/-- The operations that change no file. -/
def Op.keepsFiles : Op Digest → Bool
  | copyNew .. | save .. => false
  | _ => true

omit [DecidableEq Digest] in
/-- Only backups and saves change files. -/
theorem respond_files {sha256 : Bytes → Digest} {op : Op Digest} {answer : op.Answer}
    (hop : op.keepsFiles = true) (h : respond sha256 w op answer w') : w'.files = w.files := by
  cases op with
  | copyNew | save => cases hop
  | read | readReceipt =>
    cases answer with
    | ok a => exact (congrArg World.files h.2 :)
    | error e => exact (congrArg World.files h :)
  | publishJson =>
    cases answer with
    | ok a => exact (congrArg World.files h :)
    | error e => rcases h with h | h <;> exact (congrArg World.files h :)
  | memory => exact (congrArg World.files h.2 :)
  | isCancelled | approve | identity | isReadOnly | attempt | lockOpenFiles | isOpen
  | newJobDirectory | syncAll | assign | setAfterHash | setBackup | setState =>
    exact (congrArg World.files h :)

/-- The operations that only look at files. -/
def Op.looks : Op Digest → Bool
  | read _ => true
  | op => op.quiet

omit [DecidableEq Digest] in
theorem uses_refuseIf {allowed : Op Digest → Prop} {c : Prop} [Decidable c] {text : String} :
    (refuseIf c text : Task Digest Unit).run.Uses allowed := by
  rw [refuseIf]
  split <;> trivial

omit [DecidableEq Digest] in
theorem uses_currentFingerprint {path : Path} {cancellable : Bool} :
    (currentFingerprint services path cancellable).run.Uses (Op.looks · = true) := by
  rw [currentFingerprint]
  refine .andThen ⟨rfl, fun _ => trivial⟩ fun _ => ?_
  refine .andThen ⟨rfl, fun _ => trivial⟩ fun _ => ?_
  refine .andThen ⟨rfl, fun _ => trivial⟩ fun _ => .andThen uses_refuseIf fun _ => ?_
  refine .andThen ⟨rfl, fun _ => trivial⟩ fun _ => ?_
  refine .andThen ⟨rfl, fun _ => trivial⟩ fun _ => .andThen uses_refuseIf fun _ => ?_
  exact .andThen ⟨rfl, fun _ => trivial⟩ fun _ => .andThen uses_refuseIf fun _ => trivial

omit [DecidableEq Digest] in
theorem keepsFiles_of_looks (op : Op Digest) (h : op.looks = true) : op.keepsFiles = true := by
  cases op <;> first | rfl | cases h

theorem uses_reconcileRecord {record : FileReceipt Digest} :
    (reconcileRecord services index record).run.Uses (Op.keepsFiles · = true) := by
  rw [reconcileRecord]
  refine .andThen ⟨rfl, fun _ => trivial⟩ fun _ => .andThen uses_refuseIf fun _ => ?_
  refine .andThen (.bind (uses_currentFingerprint.mono keepsFiles_of_looks) fun _ => trivial)
    fun r => ?_
  cases r with
  | ok fingerprint => exact ⟨rfl, fun _ => trivial⟩
  | error e =>
    dsimp only
    split
    · exact ⟨rfl, fun _ => trivial⟩
    · refine .andThen ⟨rfl, fun _ => trivial⟩ fun _ => .andThen uses_refuseIf fun _ => ?_
      split
      · exact ⟨rfl, fun _ => trivial⟩
      · trivial

theorem uses_reconcileFrom {count : Nat} :
    (reconcileFrom services index count).run.Uses (Op.keepsFiles · = true) := by
  induction count generalizing index with
  | zero => trivial
  | succ count ih =>
    rw [reconcileFrom]
    refine .andThen ⟨rfl, fun _ => trivial⟩ fun _ => ?_
    split
    · split
      · exact .andThen uses_reconcileRecord fun _ => ih
      · exact ih
    · exact ih

/-- Reconciling asks for nothing that changes a file. -/
theorem uses_reconcileReceipt :
    (reconcileReceipt services).run.Uses (Op.keepsFiles · = true) := by
  rw [reconcileReceipt]
  refine .andThen ?_ fun receipt => .andThen ⟨rfl, fun _ => trivial⟩ fun _ => ?_
  · rw [readReceipt]
    refine .andThen ⟨rfl, fun _ => trivial⟩ fun _ => .andThen uses_refuseIf fun _ => ?_
    exact .andThen uses_refuseIf fun _ => trivial
  · refine .andThen uses_reconcileFrom fun _ => .andThen ?_ fun _ => ⟨rfl, fun _ => trivial⟩
    rw [persist]
    refine .andThen ⟨rfl, fun _ => trivial⟩ fun _ => .andThen uses_refuseIf fun _ => ?_
    exact ⟨rfl, fun _ => trivial⟩

/-- The files and the receipts in memory and on disk are the same. -/
def Alike (w w' : World Digest) : Prop :=
  w'.files = w.files ∧ w'.trail.memory = w.trail.memory ∧ w'.trail.disk = w.trail.disk

omit [DecidableEq Digest] in
theorem Alike.trans {w'' : World Digest} (h : Alike w w') (h' : Alike w' w'') : Alike w w'' :=
  ⟨h'.1.trans h.1, h'.2.1.trans h.2.1, h'.2.2.trans h.2.2⟩

omit [DecidableEq Digest] in
/-- Looking at files leaves them and the receipts alone. -/
theorem respond_looks {sha256 : Bytes → Digest} {op : Op Digest} {answer : op.Answer}
    (hop : op.looks = true) (h : respond sha256 w op answer w') : Alike w w' := by
  refine ⟨respond_files (keepsFiles_of_looks op hop) h, ?_⟩
  have hsame {v : World Digest} (heq : w' = v) (hmemory : v.trail.memory = w.trail.memory)
      (hdisk : v.trail.disk = w.trail.disk) :
      w'.trail.memory = w.trail.memory ∧ w'.trail.disk = w.trail.disk := by
    subst heq
    exact ⟨hmemory, hdisk⟩
  cases op with
  | read path =>
    cases answer with
    | ok content => exact hsame h.2 rfl rfl
    | error e => exact hsame h rfl rfl
  | copyNew | save | readReceipt | publishJson | memory | assign | setAfterHash | setBackup
  | setState => cases hop
  | isCancelled | approve | identity | isReadOnly | attempt | lockOpenFiles | isOpen
  | newJobDirectory | syncAll => exact hsame h rfl rfl

omit [DecidableEq Digest] in
theorem meets_looks {op : Op Digest} {post : op.Answer → World Digest → Prop}
    (hop : op.looks = true)
    (hpost : ∀ answer w', Alike w w' → obliging readable w op answer → post answer w') :
    Meets (still services.sha256 readable) (fun _ => True) (Program.ask op) post w :=
  .ask trivial fun answer w' ⟨hresponse, hobliging⟩ =>
    ⟨trivial, hpost answer w' (respond_looks hop hresponse) hobliging⟩

omit [DecidableEq Digest] in
theorem Truth.ok {α : Type} {entry : FileEntry} {f : FileEntry → α} {r : Except IoError α}
    (h : Truth (w.files path) f r) (hentry : w.files path = some entry) : r = .ok (f entry) := by
  rw [hentry] at h
  exact h

omit [DecidableEq Digest] in
/-- A fingerprint of a readable path is taken, unless there is no file. -/
theorem meets_readable {path : Path} {cancellable : Bool}
    {post : Except IoError (Fingerprint Digest) → World Digest → Prop}
    (hpost : ∀ r w', Alike w w' →
      (readable path → (∃ fingerprint, r = .ok fingerprint) ∨
        ∃ text, r = .error ⟨.notFound, text⟩) → post r w') :
    Meets (still services.sha256 readable) (fun _ => True)
      (currentFingerprint services path cancellable).run post w := by
  by_cases hreadable : readable path
  · rw [currentFingerprint]
    refine .andThen (meets_looks rfl fun approved w₁ h₁ htruth => ?_)
    have htruth := htruth hreadable
    cases hentry : w.files path with
    | none =>
      rw [hentry] at htruth
      obtain ⟨text, rfl⟩ := htruth
      exact hpost _ _ h₁ fun _ => Or.inr ⟨text, rfl⟩
    | some entry =>
      have here {w' : World Digest} (h : Alike w w') : w'.files path = some entry :=
        (congrFun h.1 path).trans hentry
      cases htruth.ok hentry
      refine .andThen (meets_looks rfl fun identity w₂ h₂ htruth => ?_)
      have h₂ := h₁.trans h₂
      cases (htruth hreadable).ok (here h₁)
      refine .andThen (.lift (meets_looks rfl fun cancelled w₃ h₃ htruth => ?_))
      have h₃ := h₂.trans h₃
      cases htruth
      refine .andThen (meets_refuseIf trivial (fun h => (by cases h.1)) fun _ => ?_)
      refine .andThen (meets_looks rfl fun content w₄ h₄ htruth => ?_)
      have h₄ := h₃.trans h₄
      cases (htruth hreadable).ok (here h₃)
      refine .andThen (meets_looks rfl fun identity w₅ h₅ htruth => ?_)
      have h₅ := h₄.trans h₅
      cases (htruth hreadable).ok (here h₄)
      refine .andThen (meets_refuseIf trivial (fun h => absurd rfl h) fun _ => ?_)
      refine .andThen (meets_looks rfl fun identity w₆ h₆ htruth => ?_)
      have h₆ := h₅.trans h₆
      cases (htruth hreadable).ok (here h₅)
      refine .andThen (meets_refuseIf trivial (fun h => absurd rfl h) fun _ => ?_)
      exact .pure trivial (hpost _ _ h₆ fun _ => Or.inl ⟨_, rfl⟩)
  · refine ((uses_currentFingerprint.meets (Alike w) (fun w' op answer w'' hop hstep h => ?_)
      ⟨rfl, rfl, rfl⟩).relax fun _ _ => trivial).weaken fun r w' _ h => ?_
    · exact h.trans (respond_looks hop hstep.1)
    · exact hpost r w' h fun h => absurd h hreadable

/-- The records up to an index are resolved where their paths are readable. -/
def ResolvedTo (readable : Path → Prop) (files : List (FileReceipt Digest)) (index : Nat) : Prop :=
  ∀ i record, i < index → files[i]? = some record → readable record.path →
    record.state.unresolved = false

omit [DecidableEq Digest] in
/-- One more record is resolved. -/
theorem ResolvedTo.step {files : List (FileReceipt Digest)} (h : ResolvedTo readable files index)
    {f : FileReceipt Digest → FileReceipt Digest}
    (hf : ∀ record, files[index]? = some record → readable (f record).path →
      (f record).state.unresolved = false) :
    ResolvedTo readable (files.modify index f) (index + 1) := by
  intro i record hi hrecord hreadable
  by_cases heq : index = i
  · subst heq
    rw [List.getElem?_modify_eq] at hrecord
    obtain ⟨old, hold, rfl⟩ := Option.map_eq_some_iff.mp hrecord
    exact hf old hold hreadable
  · rw [List.getElem?_modify_ne _ _ heq] at hrecord
    exact h i record (by omega) hrecord hreadable

omit [DecidableEq Digest] in
/-- A record that is resolved already, or whose path is not readable. -/
theorem ResolvedTo.skip {files : List (FileReceipt Digest)} (h : ResolvedTo readable files index)
    (hf : ∀ record, files[index]? = some record → readable record.path →
      record.state.unresolved = false) : ResolvedTo readable files (index + 1) := by
  intro i record hi hrecord hreadable
  by_cases heq : i = index
  · subst heq
    exact hf record hrecord hreadable
  · exact h i record (by omega) hrecord hreadable

theorem reconciledState_resolved (record : FileReceipt Digest) (sha256 : Digest) :
    (reconciledState record sha256).unresolved = false := by
  rw [reconciledState]
  split_ifs <;> rfl

omit [DecidableEq Digest] in
theorem meets_resolving {state : ReceiptState} {post : Except IoError Unit → World Digest → Prop}
    (hpost : ∀ w', w'.trail.memory.files =
      w.trail.memory.files.modify index (fun record => { record with state }) →
      w'.trail.disk = w.trail.disk → post (.ok ()) w') :
    Meets (still services.sha256 readable) (fun _ => True) (setState index state).run post w := by
  refine .lift (.ask trivial fun _ w' hstep => ⟨trivial, hpost w' ?_ ?_⟩)
  · exact (congrArg (·.trail.memory.files) hstep.1 :)
  · exact (congrArg (·.trail.disk) hstep.1 :)

/-- One more record is resolved. -/
theorem resolves_reconcileRecord {record : FileReceipt Digest}
    (hrecord : w.trail.memory.files[index]? = some record)
    (h : ResolvedTo readable w.trail.memory.files index) :
    Meets (still services.sha256 readable) (fun _ => True)
      (reconcileRecord services index record).run
      (fun r w' => r = .ok () ∧ w'.trail.memory.files.length = w.trail.memory.files.length ∧
        w'.trail.disk = w.trail.disk ∧
        ResolvedTo readable w'.trail.memory.files (index + 1)) w := by
  -- Whatever resolved state the record is given.
  have hset {state : ReceiptState} (hstate : readable record.path → state.unresolved = false)
      {w₁ : World Digest} (h₁ : Alike w w₁) :
      Meets (still services.sha256 readable) (fun _ => True) (setState index state).run
        (fun r w' => r = .ok () ∧ w'.trail.memory.files.length = w.trail.memory.files.length ∧
          w'.trail.disk = w.trail.disk ∧
          ResolvedTo readable w'.trail.memory.files (index + 1)) w₁ := by
    refine meets_resolving fun w' hfiles hdisk => ⟨rfl, ?_⟩
    rw [hfiles, h₁.2.1]
    refine ⟨List.length_modify .., hdisk.trans h₁.2.2, h.step fun old hold => ?_⟩
    rw [hrecord] at hold
    cases hold
    exact hstate
  rw [reconcileRecord]
  refine .andThen (.lift (meets_looks rfl fun cancelled w₁ h₁ hfalse => ?_))
  cases hfalse
  refine .andThen (meets_refuseIf trivial (fun h => (by cases h)) fun _ => ?_)
  refine .andThen (.lift (meets_readable fun r w₂ h₂ hr => ?_))
  have h₂ := h₁.trans h₂
  cases r with
  | ok fingerprint => exact hset (fun _ => reconciledState_resolved ..) h₂
  | error e =>
    dsimp only
    split
    · exact hset (fun _ => rfl) h₂
    · next hfound =>
      -- Only a path that is not readable fails otherwise.
      have hunreadable : ¬readable record.path := by
        intro hreadable
        rcases hr hreadable with ⟨_, heq⟩ | ⟨text, heq⟩
        · cases heq
        · cases heq
          exact hfound rfl
      refine .andThen (.lift (meets_looks rfl fun cancelled w₃ h₃ hfalse => ?_))
      have h₃ := h₂.trans h₃
      cases hfalse
      refine .andThen (meets_refuseIf trivial (fun h => (by cases h)) fun _ => ?_)
      dsimp only
      split
      · exact hset (fun hreadable => absurd hreadable hunreadable) h₃
      · refine .pure trivial ⟨rfl, by rw [h₃.2.1], h₃.2.2, ?_⟩
        rw [h₃.2.1]
        refine h.skip fun old hold hreadable => ?_
        rw [hrecord] at hold
        cases hold
        exact absurd hreadable hunreadable

theorem resolves_reconcileFrom {count : Nat}
    (hcount : index + count = w.trail.memory.files.length)
    (h : ResolvedTo readable w.trail.memory.files index) :
    Meets (still services.sha256 readable) (fun _ => True)
      (reconcileFrom services index count).run
      (fun r w' => r = .ok () ∧ w'.trail.memory.files.length = w.trail.memory.files.length ∧
        w'.trail.disk = w.trail.disk ∧
        ResolvedTo readable w'.trail.memory.files w'.trail.memory.files.length) w := by
  induction count generalizing index w with
  | zero =>
    rw [Nat.add_zero] at hcount
    exact .pure trivial ⟨rfl, rfl, rfl, hcount ▸ h⟩
  | succ count ih =>
    rw [reconcileFrom]
    refine .andThen (.lift (.ask trivial fun receipt w' hstep => ⟨trivial, ?_⟩))
    obtain ⟨⟨rfl, rfl⟩, -⟩ := hstep
    dsimp only
    split
    · next record hrecord =>
      split
      · refine .andThen ((resolves_reconcileRecord hrecord h).weaken fun r w' _ hone => ?_)
        obtain ⟨hr, hlen, hdisk, h'⟩ := hone
        cases hr
        refine (ih (by omega) h').weaken fun r w'' _ hrest => ?_
        obtain ⟨hr, hlen', hdisk', h''⟩ := hrest
        exact ⟨hr, hlen'.trans hlen, hdisk'.trans hdisk, h''⟩
      · next hresolved =>
        refine ih (by omega) (h.skip fun old hold _ => ?_)
        rw [hrecord] at hold
        cases hold
        simpa using hresolved
    · next hnone =>
      have hbeyond := List.getElem?_eq_none_iff.mp hnone
      omega

/-- Every record of a readable target is resolved; the receipt is published and returned if it is
within the budget, and otherwise refused. -/
def Reconciled (services : Services Digest Edit Encoding) (readable : Path → Prop)
    (receipt : ReplaceReceipt Digest) (r : Except IoError (ReplaceReceipt Digest))
    (t : Trail Digest) : Prop :=
  (∀ record ∈ t.memory.files, readable record.path → record.state.unresolved = false) ∧
    if (services.serialized t.memory).length ≤ MAX_RECEIPT then
      r = .ok t.memory ∧ t.disk = some t.memory
    else r = .error (.other "receipt budget") ∧ t.disk = some receipt

/-- A receipt that can be read is reconciled. -/
theorem resolves_reconcileReceipt {receipt : ReplaceReceipt Digest}
    (hdisk : w.trail.disk = some receipt) (hversion : receipt.version = 1)
    (hlen : receipt.files.length ≤ MAX_FILES)
    (hsize : (services.serialized receipt).length ≤ MAX_RECEIPT) :
    Meets (still services.sha256 readable) (fun _ => True) (reconcileReceipt services).run
      (fun r w' => Reconciled services readable receipt r w'.trail) w := by
  rw [reconcileReceipt, readReceipt]
  refine .andThen (.andThen (.ask trivial fun r w₁ hstep => ⟨trivial, ?_⟩))
  have hr : r = .ok receipt := hstep.2 receipt hdisk
  subst hr
  obtain ⟨⟨-, rfl⟩, -⟩ := hstep
  refine .andThen (meets_refuseIf trivial (fun h => absurd hsize (Nat.not_le_of_lt h)) fun _ => ?_)
  refine .andThen (meets_refuseIf trivial (fun h => ?_) fun _ => .pure trivial ?_)
  · rcases h with h | h
    · exact absurd hversion h
    · omega
  refine .andThen (.lift (.ask trivial fun _ w₂ hstep => ⟨trivial, ?_⟩))
  obtain ⟨rfl, -⟩ := hstep
  have hnone : ResolvedTo readable receipt.files 0 := fun i _ hi => absurd hi (Nat.not_lt_zero i)
  refine .andThen (Meets.weaken (resolves_reconcileFrom (Nat.zero_add _) hnone)
    fun r w₃ _ hdone => ?_)
  obtain ⟨hr, hlen, hdisk₃, h⟩ := hdone
  cases hr
  have hresolved : ∀ record ∈ w₃.trail.memory.files, readable record.path →
      record.state.unresolved = false := by
    intro record hmem
    obtain ⟨i, hi⟩ := List.getElem?_of_mem hmem
    exact h i record (List.getElem?_eq_some_iff.mp hi).1 hi
  refine .andThen ?_
  rw [persist]
  refine .andThen (.lift (.ask trivial fun receipt₃ w₄ hstep => ⟨trivial, ?_⟩))
  obtain ⟨⟨rfl, rfl⟩, -⟩ := hstep
  refine .andThen (meets_refuseIf trivial (fun hlarge => ⟨hresolved, ?_⟩) fun hsmall => ?_)
  · rw [if_neg (Nat.not_le_of_lt hlarge)]
    exact ⟨rfl, hdisk₃.trans hdisk⟩
  refine .ask trivial fun r w₄ hstep => ⟨trivial, ?_⟩
  have hr : r = .ok () := hstep.2
  subst hr
  obtain ⟨rfl, -⟩ := hstep
  refine .lift (.ask trivial fun receipt' w₅ hstep => ⟨trivial, ?_⟩)
  obtain ⟨⟨rfl, rfl⟩, -⟩ := hstep
  refine ⟨hresolved, ?_⟩
  show if (services.serialized w₄.trail.memory).length ≤ MAX_RECEIPT then _ else _
  rw [if_pos (Nat.le_of_not_lt hsmall)]
  exact ⟨rfl, rfl⟩

end Reconciling

/-! ## §3 Foreign content is never destroyed -/

/-- What a receipt reports is so. -/
structure Reported (job : Job Digest Edit Encoding) (log : List Event)
    (receipt : ReplaceReceipt Digest) : Prop where
  length : receipt.files.length = job.selected.length
  path : ∀ (index : Nat) (file : DiskPreviewFile job.services) (record : FileReceipt Digest),
    job.selected[index]? = some file → receipt.files[index]? = some record →
      record.path = file.path
  /-- A record is committed only if its target was last seen with the output then. -/
  committed : ∀ (index : Nat) (file : DiskPreviewFile job.services) (record : FileReceipt Digest),
    job.selected[index]? = some file → receipt.files[index]? = some record →
      record.state.isCommitted = true →
        ∃ output, file.output = .ok output ∧ Classified log index record.state file.path output
  /-- A record is rolled back only if its target was last seen with the original then. -/
  rolledBack : ∀ (index : Nat) (file : DiskPreviewFile job.services) (record : FileReceipt Digest),
    job.selected[index]? = some file → receipt.files[index]? = some record →
      record.state = .rolledBack → Classified log index .rolledBack file.path file.source
  /-- Where backups are required, a committed record names one that held the original. -/
  backup : ∀ (index : Nat) (file : DiskPreviewFile job.services) (record : FileReceipt Digest),
    job.selected[index]? = some file → receipt.files[index]? = some record →
      record.state.isCommitted = true → job.options.backup = .required →
        ∃ target, record.backup = some target ∧ .copied file.path target file.source ∈ log

omit [DecidableEq Digest] in
theorem Tracks.reported {job : Job Digest Edit Encoding} {log : List Event}
    {receipt : ReplaceReceipt Digest} (h : Tracks job log none receipt.files) :
    Reported job log receipt where
  length := h.length
  path index file record hfile hrecord := (h.record index file record hfile hrecord).1
  committed index file record hfile hrecord :=
    (h.sound index file record nofun hfile hrecord).committed
  rolledBack index file record hfile hrecord :=
    (h.sound index file record nofun hfile hrecord).restored
  backup index file record hfile hrecord hcommitted hrequired := by
    have hsound := h.sound index file record nofun hfile hrecord
    have hrestorable := ReceiptState.restorable_of_isCommitted hcommitted
    obtain ⟨-, -, -, hbackup⟩ := (hsound.used (Or.inr hrestorable)).resolve_left
      (hsound.hashed (Or.inl hrestorable))
    exact hbackup hrequired

/-- A job overwrites a target only while it holds what is expected, reports what is so, and
reconciling resolves every record of a readable target without changing a file; the receipt that
says so is published unless it exceeds the budget. -/
theorem never_destroys_foreign_content {job : Job Digest Edit Encoding}
    (hinjective : Function.Injective job.services.sha256)
    {result : Option (Except IoError (ReplaceReceipt Digest))} {w : World Digest}
    (h : Session job result w) :
    (∀ procedure path before after, .overwritten procedure path before after ∈ w.trail.log →
      Expected job path before procedure) ∧
    (∀ receipt, w.trail.disk = some receipt ∨ result = some (.ok receipt) →
      Reported job w.trail.log receipt) ∧
    (∀ memory result' w', Run (respond job.services.sha256) (w.begin .reconcile memory)
      (reconcileReceipt job.services).run result' w' → w'.files = w.files) ∧
    ∀ memory readable receipt r w', w.trail.disk = some receipt →
      Run (still job.services.sha256 readable) (w.begin .reconcile memory)
        (reconcileReceipt job.services).run (some r) w' →
      Reconciled job.services readable receipt r w'.trail := by
  obtain ⟨htrust, hresult⟩ := h.trustworthy hinjective
  refine ⟨htrust.overwrites, fun receipt hreceipt => ?_, fun memory result' w' hrun => ?_,
    fun memory readable receipt r w' hdisk hrun => ?_⟩
  · rcases hreceipt with hdisk | hresult'
    · exact (htrust.disk receipt hdisk).2.1.reported
    · exact (hresult receipt hresult').reported
  · have hkeeps : Meets (respond job.services.sha256) (fun w' => w'.files = w.files)
        (reconcileReceipt job.services).run (fun _ w' => w'.files = w.files)
        (w.begin .reconcile memory) :=
      uses_reconcileReceipt.meets _
        (fun w₁ op answer w₂ hop hstep hsame => (respond_files hop hstep).trans hsame) rfl
    exact (hkeeps.run hrun).1
  · obtain ⟨hversion, htracks, hsize⟩ := htrust.disk receipt hdisk
    have hlen : receipt.files.length ≤ MAX_FILES := by
      rw [htracks.length]
      exact Nat.le_trans (List.length_filter_le ..) job.files_bounded
    have hstart : (w.begin .reconcile memory).trail.disk = some receipt := hdisk
    exact ((resolves_reconcileReceipt hstart hversion hlen hsize).run hrun).2 r rfl

/-! ## §4 A machine that computes its answers -/

section Json

def base64Digit (n : Nat) : Char :=
  "ABCDEFGHIJKLMNOPQRSTUVWXYZabcdefghijklmnopqrstuvwxyz0123456789+/".toList.getD n 'A'

/-- Padded base64. -/
def base64 : List Nat → List Char
  | [] => []
  | [a] => [base64Digit (a / 4), base64Digit (a % 4 * 16), '=', '=']
  | [a, b] =>
    [base64Digit (a / 4), base64Digit (a % 4 * 16 + b / 16), base64Digit (b % 16 * 4), '=']
  | a :: b :: c :: rest =>
    [base64Digit (a / 4), base64Digit (a % 4 * 16 + b / 16), base64Digit (b % 16 * 4 + c / 64),
      base64Digit (c % 64)] ++ base64 rest

/-- A text that has nothing to escape. -/
def stringJson (text : List Char) : List Char := "\"".toList ++ text ++ "\"".toList

def listJson (items : List (List Char)) : List Char :=
  "[".toList ++ List.intercalate ",".toList items ++ "]".toList

def bytesJson (bytes : Bytes) : List Char :=
  listJson (bytes.map fun b => (toString b.toNat).toList)

/-- `SerializedPath` of a native path -/
def pathJson (path : Path) : List Char :=
  let name := ("/".intercalate path).toList
  "\x7b\"version\":1,\"encoding\":\"unix_bytes\",\"data\":".toList ++
    stringJson (base64 (name.map Char.toNat)) ++ ",\"display\":".toList ++ stringJson name ++
    "\x7d".toList

def stateJson : ReceiptState → List Char
  | .planned => stringJson "Planned".toList
  | .staged => stringJson "Staged".toList
  | .uncertain reason => reasonJson "Uncertain" reason
  | .committed => stringJson "Committed".toList
  | .reconciledCommitted => stringJson "ReconciledCommitted".toList
  | .rollbackStaged => stringJson "RollbackStaged".toList
  | .rolledBack => stringJson "RolledBack".toList
  | .skipped reason => reasonJson "Skipped" reason
  | .failed reason => reasonJson "Failed" reason
  | .conflict => stringJson "Conflict".toList
  | .rollbackFailed reason => reasonJson "RollbackFailed" reason
where
  reasonJson (state reason : String) : List Char :=
    "\x7b".toList ++ stringJson state.toList ++ ":".toList ++ stringJson reason.toList ++
      "\x7d".toList

def optionJson {α : Type} (json : α → List Char) : Option α → List Char
  | none => "null".toList
  | some a => json a

def recordJson (record : FileReceipt Bytes) : List Char :=
  let identity := record.original.identity
  "\x7b\"path\":".toList ++ pathJson record.path ++
    ",\"original\":\x7b\"volume\":".toList ++ (toString identity.volume).toList ++
    ",\"file\":".toList ++ (toString identity.file).toList ++
    ",\"length\":".toList ++ (toString identity.length).toList ++
    ",\"modified\":".toList ++ (toString identity.modified).toList ++
    ",\"sha256\":".toList ++ bytesJson record.original.sha256 ++
    "\x7d,\"after_hash\":".toList ++ optionJson bytesJson record.afterHash ++
    ",\"backup\":".toList ++ optionJson pathJson record.backup ++
    ",\"matches\":".toList ++ (toString record.matched).toList ++
    ",\"state\":".toList ++ stateJson record.state ++ "\x7d".toList

/-- A receipt up to the outcomes of its open documents. -/
def receiptHead (version : Nat) (files : List (FileReceipt Bytes)) : List Char :=
  "\x7b\"version\":".toList ++ (toString version).toList ++ ",\"files\":".toList ++
    listJson (files.map recordJson) ++ ",\"open_outcomes\":".toList

/-- What serde writes for a receipt. -/
def receiptJson (receipt : ReplaceReceipt Bytes) : List Char :=
  receiptHead receipt.version receipt.files ++
    (listJson (receipt.openOutcomes.map fun text => stringJson text.toList) ++ "\x7d".toList)

end Json

/-- Files hashed by themselves, edits that replace the whole file. -/
def plainServices : Services Bytes Bytes Unit where
  sha256 := id
  serialized receipt := (receiptJson receipt).map fun c => UInt8.ofNat c.toNat
  rendered _ _ _ edits content := .ok (edits.getLastD content)
  rewritten _ content := .ok content

/-- A machine with one readable file, on which nothing fails. -/
def plainAnswers (w : World Bytes) : (op : Op Bytes) → op.Answer × World Bytes
  | .isCancelled | .isOpen .. => (false, w)
  | .approve path _ =>
    if path = ["f"] ∧ w.files path = none then (.error ⟨.notFound, "No such file"⟩, w)
    else (.ok (), w)
  | .attempt | .lockOpenFiles | .syncAll _ => (.ok (), w)
  | .identity path =>
    match w.files path with
    | some entry => (.ok entry.identity, w)
    | none => (.error ⟨.notFound, "No such file"⟩, w)
  | .read path =>
    match w.files path with
    | some entry => (.ok entry.content, w.note (.observed path entry.content))
    | none => (.error ⟨.notFound, "No such file"⟩, w)
  | .isReadOnly _ => (.ok false, w)
  | .newJobDirectory parent => (.ok (parent ++ ["job"]), w)
  | .copyNew source target =>
    match w.files target, w.files source with
    | none, some entry =>
      (.ok entry.content, (w.put target ⟨⟨0, 1, entry.content.length, 0⟩, entry.content⟩).note
        (.copied source target entry.content))
    | _, _ => (.error (.other "copy failed"), w)
  | .save target expected bytes =>
    match w.files target with
    | some entry =>
      if expected = ⟨entry.identity, entry.content⟩ then
        (.ok (), (w.put target ⟨⟨0, 2, bytes.length, 0⟩, bytes⟩).note
          (.overwritten w.trail.procedure target entry.content bytes))
      else (.error (.other "changed"), w)
    | none => (.error ⟨.notFound, "No such file"⟩, w)
  | .readReceipt =>
    match w.trail.disk with
    | some receipt => (.ok receipt, w)
    | none => (.error ⟨.notFound, "No such file"⟩, w)
  | .publishJson => (.ok (), { w with trail := w.trail.publish })
  | .memory => (w.trail.memory, w)
  | .assign receipt => ((), { w with trail := { w.trail with memory := receipt } })
  | .setAfterHash index hash => ((), { w with trail := w.trail.setAfterHash index hash })
  | .setBackup index path => ((), { w with trail := w.trail.setBackup index path })
  | .setState index state => ((), { w with trail := w.trail.setState index state })

theorem plainAnswers_still (w : World Bytes) (op : Op Bytes) :
    still id (· = ["f"]) w op (plainAnswers w op).1 (plainAnswers w op).2 := by
  cases op with
  | isCancelled => exact ⟨rfl, rfl⟩
  | approve path write =>
    by_cases hmissing : path = ["f"] ∧ w.files path = none
    · simp only [plainAnswers, if_pos hmissing]
      refine ⟨rfl, fun _ => ?_⟩
      rw [hmissing.2]
      exact ⟨_, rfl⟩
    · simp only [plainAnswers, if_neg hmissing]
      refine ⟨rfl, fun hpath => ?_⟩
      obtain ⟨entry, hentry⟩ := Option.ne_none_iff_exists'.mp fun h => hmissing ⟨hpath, h⟩
      rw [hentry]
      rfl
  | identity path =>
    cases hfile : w.files path with
    | none =>
      simp only [plainAnswers, hfile]
      exact ⟨rfl, fun _ => by rw [hfile]; exact ⟨_, rfl⟩⟩
    | some entry =>
      simp only [plainAnswers, hfile]
      exact ⟨rfl, fun _ => by rw [hfile]; rfl⟩
  | read path =>
    cases hfile : w.files path with
    | none =>
      simp only [plainAnswers, hfile]
      exact ⟨rfl, fun _ => by rw [hfile]; exact ⟨_, rfl⟩⟩
    | some entry =>
      simp only [plainAnswers, hfile]
      exact ⟨⟨⟨entry, hfile, rfl⟩, rfl⟩, fun _ => by rw [hfile]; rfl⟩
  | copyNew source target =>
    refine ⟨?_, trivial⟩
    cases htarget : w.files target with
    | some entry =>
      simp only [plainAnswers, htarget]
      rfl
    | none =>
      cases hsource : w.files source with
      | none =>
        simp only [plainAnswers, htarget, hsource]
        rfl
      | some entry =>
        simp only [plainAnswers, htarget, hsource]
        exact ⟨htarget, entry, _, hsource, rfl, rfl⟩
  | save target expected bytes =>
    refine ⟨?_, trivial⟩
    cases htarget : w.files target with
    | none =>
      simp only [plainAnswers, htarget]
      exact Or.inl rfl
    | some entry =>
      simp only [plainAnswers, htarget]
      split_ifs with hexpected
      · exact ⟨entry, _, htarget, hexpected, rfl⟩
      · exact Or.inl rfl
  | readReceipt =>
    cases hdisk : w.trail.disk with
    | none =>
      simp only [plainAnswers, hdisk]
      exact ⟨rfl, fun receipt h => by cases hdisk.symm.trans h⟩
    | some receipt =>
      simp only [plainAnswers, hdisk]
      exact ⟨⟨hdisk, rfl⟩, fun _ h => by rw [Option.some.inj (hdisk.symm.trans h)]⟩
  | publishJson => exact ⟨rfl, rfl⟩
  | memory => exact ⟨⟨rfl, rfl⟩, trivial⟩
  | isOpen | isReadOnly | attempt | lockOpenFiles | newJobDirectory | syncAll | assign
  | setAfterHash | setBackup | setState => exact ⟨rfl, trivial⟩

theorem plainAnswers_machine (w : World Bytes) (op : Op Bytes) :
    machine id w op (plainAnswers w op).1 (plainAnswers w op).2 :=
  ⟨w.files, (plainAnswers_still w op).1⟩

/-- A job that replaces the byte `a` in one file by `b`. -/
def plainJob (outcomes : List String) : Job Bytes Bytes Unit where
  services := plainServices
  files := [⟨["f"], [97], ⟨⟨0, 0, 1, 0⟩, [97]⟩, rfl, false, false, (), true, [⟨true, [98]⟩]⟩]
  files_bounded := by decide
  options := ⟨["receipts"], .required, outcomes⟩
  paging := false

/-- A machine with the previewed file, before the job. -/
def plainWorld : World Bytes where
  files path := if path = ["f"] then some ⟨⟨0, 0, 1, 0⟩, [97]⟩ else none
  trail := ⟨none, ⟨0, [], []⟩, .apply, []⟩

/-- The world in which the job ended right after it wrote its file. -/
def savedWorld : World Bytes :=
  (applyDiskFiles (plainJob [])).run.followFor plainAnswers 30 plainWorld

theorem session_saved : Session (plainJob []) none savedWorld := by
  have hrun : Run (machine id) (plainWorld.begin .apply ⟨0, [], []⟩)
      (applyDiskFiles (plainJob [])).run none savedWorld :=
    Run.followFor plainAnswers_machine 30 _ _
  exact .apply rfl rfl hrun

/-- The job of one file ended right after it wrote the file: the write was expected, the receipt
on disk is true, and reconciling resolves its record without a change to the files. -/
theorem never_destroys_foreign_content_saved :
    savedWorld.trail.log = [.overwritten .apply ["f"] [97] [98], .classified 0 .staged,
      .copied ["f"] ["receipts", "job", "original-0.bak"] [97], .observed ["f"] [97]] ∧
    Expected (plainJob []) ["f"] [97] .apply ∧
    (∀ memory result' w', Run (respond id) (savedWorld.begin .reconcile memory)
      (reconcileReceipt plainServices).run result' w' → w'.files = savedWorld.files) ∧
    ∃ receipt r w', savedWorld.trail.disk = some receipt ∧
      Reported (plainJob []) savedWorld.trail.log receipt ∧
      Run (still id (· = ["f"])) (savedWorld.begin .reconcile ⟨0, [], []⟩)
        (reconcileReceipt plainServices).run (some r) w' ∧
      Reconciled plainServices (· = ["f"]) receipt r w'.trail := by
  have hlog : savedWorld.trail.log = [.overwritten .apply ["f"] [97] [98], .classified 0 .staged,
      .copied ["f"] ["receipts", "job", "original-0.bak"] [97], .observed ["f"] [97]] := by
    decide +kernel
  have hpublished : savedWorld.trail.disk.isSome = true := by decide +kernel
  obtain ⟨receipt, hdisk⟩ := Option.isSome_iff_exists.mp hpublished
  obtain ⟨hexpected, hreported, hfiles, hresolved⟩ :=
    never_destroys_foreign_content (fun _ _ => id) session_saved
  have hrun := Run.follow plainAnswers_still (reconcileReceipt plainServices).run
    (savedWorld.begin .reconcile ⟨0, [], []⟩)
  refine ⟨hlog, hexpected .apply ["f"] [97] [98] (by rw [hlog]; exact List.mem_cons_self), hfiles,
    receipt, _, _, hdisk, hreported receipt (Or.inl hdisk), hrun, ?_⟩
  exact hresolved ⟨0, [], []⟩ (· = ["f"]) receipt _ _ hdisk hrun

/-! ## §5 Receipts that outgrow their budget -/

theorem serialized_length (version : Nat) (files : List (FileReceipt Bytes)) (text : List Char) :
    (plainServices.serialized ⟨version, files, [String.ofList text]⟩).length =
      (receiptHead version files).length + text.length + 5 := by
  have hquote : "\"".toList.length = 1 := rfl
  have hopen : "[".toList.length = 1 := rfl
  have hclose : "]".toList.length = 1 := rfl
  have hend : "\x7d".toList.length = 1 := rfl
  simp only [plainServices, receiptJson, listJson, stringJson, List.length_map, List.length_append,
    List.map_cons, List.map_nil, String.toList_ofList, List.intercalate_singleton, hquote, hopen,
    hclose, hend]
  omega

/-- The files of a receipt when its job starts. -/
def plannedFiles : List (FileReceipt Bytes) :=
  [⟨["f"], ⟨⟨0, 0, 1, 0⟩, [97]⟩, none, none, 1, .planned⟩]

/-- What reconciling makes of them. -/
def skippedFiles : List (FileReceipt Bytes) :=
  [⟨["f"], ⟨⟨0, 0, 1, 0⟩, [97]⟩, none, none, 1,
    .skipped "Interrupted before commit; no automatic retry"⟩]

section Runs

variable {w : World Bytes}

/-- The computed run of an operation. -/
theorem run_use (op : Op Bytes) :
    Run (still id (· = ["f"])) w (use op).run (some (.ok (plainAnswers w op).1))
      (plainAnswers w op).2 :=
  .call (plainAnswers_still w op) .done

theorem run_refuseIf {c : Prop} [Decidable c] {text : String} (h : ¬c) :
    Run (still id (· = ["f"])) w (refuseIf c text : Task Bytes Unit).run (some (.ok ())) w := by
  rw [refuseIf, if_neg h]
  exact .done

theorem run_refused {α : Type} {c : Prop} [Decidable c] {text : String}
    {next : Unit → Task Bytes α} (h : c) :
    Run (still id (· = ["f"])) w (refuseIf c text >>= next).run (some (.error (.other text)))
      w := by
  refine .fails ?_
  rw [refuseIf, if_pos h]
  exact .done

theorem run_persist
    (h : (plainServices.serialized w.trail.memory).length ≤ MAX_RECEIPT) :
    Run (still id (· = ["f"])) w (persist plainServices).run (some (.ok ()))
      { w with trail := w.trail.publish } := by
  rw [persist]
  refine .andThen (run_use .memory) (.andThen (run_refuseIf (Nat.not_lt.mpr h)) ?_)
  exact .call (plainAnswers_still w .publishJson) .done

theorem run_persist_large
    (h : MAX_RECEIPT < (plainServices.serialized w.trail.memory).length) :
    Run (still id (· = ["f"])) w (persist plainServices).run
      (some (.error (.other "receipt budget"))) w := by
  rw [persist]
  exact .andThen (run_use .memory) (run_refused h)

end Runs

/-- The world in which a job ended right after it published its first receipt. -/
def plannedWorld (outcomes : List String) : World Bytes :=
  { plainWorld with trail := ⟨some ⟨1, plannedFiles, outcomes⟩, ⟨1, plannedFiles, outcomes⟩,
    .apply, []⟩ }

theorem session_planned {outcomes : List String}
    (h : (plainServices.serialized ⟨1, plannedFiles, outcomes⟩).length ≤ MAX_RECEIPT) :
    Session (plainJob outcomes) none (plannedWorld outcomes) := by
  have hrun : Run (still id (· = ["f"])) plainWorld (applyDiskFiles (plainJob outcomes)).run none
      (plannedWorld outcomes) := by
    rw [applyDiskFiles]
    refine .andThen (.call (plainAnswers_still _ (.approve ["receipts"] true)) .done) ?_
    refine .andThen (.call (plainAnswers_still _ (.newJobDirectory ["receipts"])) .done) ?_
    refine .andThen (run_use (.assign ⟨1, plannedFiles, outcomes⟩)) ?_
    exact .andThen (run_persist h) .stop
  have hrun' : Run (machine id) (plainWorld.begin .apply ⟨0, [], []⟩)
      (applyDiskFiles (plainJob outcomes)).run none (plannedWorld outcomes) :=
    hrun.map id fun w _ _ _ hstep => ⟨w.files, hstep.1⟩
  exact .apply rfl rfl hrun'

/-- Reconciling such a receipt fails where the longer one exceeds the budget. -/
theorem run_reconcile_large {outcomes : List String}
    (h : (plainServices.serialized ⟨1, plannedFiles, outcomes⟩).length ≤ MAX_RECEIPT)
    (hlarge : MAX_RECEIPT < (plainServices.serialized ⟨1, skippedFiles, outcomes⟩).length) :
    ∃ w', Run (still id (· = ["f"])) ((plannedWorld outcomes).begin .reconcile ⟨0, [], []⟩)
        (reconcileReceipt plainServices).run (some (.error (.other "receipt budget"))) w' ∧
      w'.trail.disk = some ⟨1, plannedFiles, outcomes⟩ := by
  refine ⟨(plannedWorld outcomes).begin .reconcile ⟨1, skippedFiles, outcomes⟩ |>.note
    (.observed ["f"] [97]) |>.note (.classified 0 (.skipped
      "Interrupted before commit; no automatic retry")), ?_, rfl⟩
  have hsupported : ¬(1 ≠ 1 ∨ plannedFiles.length > MAX_FILES) := by decide
  rw [reconcileReceipt, readReceipt]
  refine .andThen (a := ⟨1, plannedFiles, outcomes⟩) (.andThen
    (.call (plainAnswers_still _ .readReceipt) .done) (.andThen (run_refuseIf (Nat.not_lt.mpr h))
      (.andThen (run_refuseIf hsupported) .done))) ?_
  refine .andThen (run_use (.assign ⟨1, plannedFiles, outcomes⟩)) ?_
  exact .andThen (a := ()) (Run.follow plainAnswers_still (reconcileFrom plainServices 0 1).run _)
    (.fails (run_persist_large hlarge))

/-- With a long enough outcome of an open document the first receipt of a job just fits the
budget, and reconciling it never succeeds: its record stays planned. -/
theorem long_receipt_stays_planned :
    let outcome : String := String.ofList (List.replicate 8388356 'a')
    let planned : ReplaceReceipt Bytes := ⟨1, plannedFiles, [outcome]⟩
    Session (plainJob [outcome]) none (plannedWorld [outcome]) ∧
    (plannedWorld [outcome]).trail.disk = some planned ∧
    (∃ w', Run (still id (· = ["f"])) ((plannedWorld [outcome]).begin .reconcile ⟨0, [], []⟩)
      (reconcileReceipt plainServices).run (some (.error (.other "receipt budget"))) w' ∧
      w'.trail.disk = some planned) ∧
    ∃ record ∈ planned.files, record.path = ["f"] ∧ record.state.unresolved = true := by
  intro outcome planned
  have hplanned : (receiptHead 1 plannedFiles).length = 247 := by decide +kernel
  have hskipped : (receiptHead 1 skippedFiles).length = 297 := by decide +kernel
  have hfits : (plainServices.serialized ⟨1, plannedFiles, [outcome]⟩).length ≤ MAX_RECEIPT := by
    rw [serialized_length, hplanned, List.length_replicate]
    decide
  have hlarge : MAX_RECEIPT <
      (plainServices.serialized ⟨1, skippedFiles, [outcome]⟩).length := by
    rw [serialized_length, hskipped, List.length_replicate]
    decide
  exact ⟨session_planned hfits, rfl, run_reconcile_large hfits hlarge, _, List.mem_cons_self, rfl,
    rfl⟩

end BareLine.Replace
