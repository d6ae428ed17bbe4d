import BareLine.Replace.Applying

/-!
# Reconciling and rolling back keep the invariant

- §1: reconciling.
- §2: restoring one file.
- §3: rolling back.
-/

namespace BareLine.Replace

open Lib

variable {Digest Edit Encoding : Type} {job : Job Digest Edit Encoding}
variable {t : Trail Digest} {index : Nat} {file : DiskPreviewFile job.services}
variable {record : FileReceipt Digest} {procedure : Procedure} [DecidableEq Digest]

/-! ## §1 Reconciling -/

omit [DecidableEq Digest] in
theorem suits_of {state : ReceiptState} (hrecord : t.memory.files[index]? = some record)
    (h : Sound job (.classified index state :: t.log) index file { record with state }) :
    Suits index file state t := by
  intro record' hrecord'
  rw [hrecord] at hrecord'
  cases hrecord'
  exact h

omit [DecidableEq Digest] in
/-- A record that is given a state that suits it, as the last step. -/
theorem meets_settle {state : ReceiptState} (h : Working job procedure none t)
    (hfile : job.selected[index]? = some file) (hsuits : Suits index file state t) :
    Keeps job (setState index state).run
      (fun _ t' => Working job procedure none t') t :=
  meets_setState h.trust ((h.except index).setState hfile hsuits)

section Injective

variable (hinjective : Function.Injective job.services.sha256)
include hinjective

/-- What the bytes of a target say about a record suits it. -/
theorem suits_reconciledState {content : Bytes} (h : Working job procedure none t)
    (hfile : job.selected[index]? = some file)
    (hrecord : t.memory.files[index]? = some record) (hunresolved : record.state.unresolved = true)
    (hseen : lastSeen record.path t.log = some content) :
    Suits index file (reconciledState record (job.services.sha256 content)) t := by
  obtain ⟨hpath, horiginal⟩ := h.fits.tracks.record index file record hfile hrecord
  have hsound := h.fits.tracks.sound index file record nofun hfile hrecord
  rw [hpath] at hseen
  refine suits_of hrecord ?_
  rw [reconciledState]
  split
  · next hrolledBack =>
    have hcontent := source_eq hinjective (horiginal ▸ hrolledBack.2)
    exact .rolledBack (hcontent ▸ hseen)
  · split
    · next hhash =>
      rcases hsound.used (Or.inl hunresolved) with hnone | hprotected
      · cases hnone.symm.trans hhash
      · exact .commit hinjective rfl hprotected hhash hseen
    · split
      · exact .final ⟨rfl, rfl⟩ nofun
      · exact .final ⟨rfl, rfl⟩ nofun

theorem meets_reconcileRecord (h : Working job procedure none t)
    (hfile : job.selected[index]? = some file)
    (hrecord : t.memory.files[index]? = some record)
    (hunresolved : record.state.unresolved = true) :
    Keeps job
      (reconcileRecord job.services index record).run
      (fun _ t' => Working job procedure none t') t := by
  rw [reconcileRecord]
  refine .andThen (meets_use_quiet rfl h.trust fun cancelled => ?_)
  refine meets_refused h.trust (fun e => h) fun _ => ?_
  refine .andThen (meets_resultOf (meets_currentFingerprint (fun t' => h.trust.looked)
    (fun identity content => ?_) fun e t' hlooked => ?_))
  · have hlooked : Looked record.path t (t.note (.observed record.path content)) :=
      Or.inr ⟨content, rfl⟩
    have h' := h.looked hlooked
    exact meets_settle h' hfile
      (suits_reconciledState hinjective h' hfile hrecord hunresolved (if_pos rfl))
  · have h' := h.looked hlooked
    have hmemory : t'.memory.files[index]? = some record := by
      rcases hlooked with rfl | ⟨content, rfl⟩
      · exact hrecord
      · exact hrecord
    dsimp only
    split
    · exact meets_settle h' hfile (suits_final ⟨rfl, rfl⟩ (by simp))
    · refine .andThen (meets_use_quiet rfl h'.trust fun cancelled => ?_)
      refine meets_refused h'.trust (fun e => h') fun _ => ?_
      split
      · have hsound := h'.fits.tracks.sound index file record (by simp) hfile hmemory
        refine meets_settle h' hfile (suits_of hmemory (.unknown rfl (by simp) ?_))
        exact (hsound.used (Or.inl hunresolved)).imp_right fun hprotected =>
          hprotected.mono (List.suffix_cons ..)
      · exact .pure h'.trust h'

omit hinjective [DecidableEq Digest] in
/-- Every record belongs to a selected file. -/
theorem file_of_record (h : Working job procedure none t)
    (hrecord : t.memory.files[index]? = some record) :
    ∃ file, job.selected[index]? = some file := by
  have hlen := (List.getElem?_eq_some_iff.mp hrecord).1
  rw [h.fits.tracks.length] at hlen
  exact ⟨_, List.getElem?_eq_getElem hlen⟩

theorem meets_reconcileFrom {count : Nat} (h : Working job procedure none t) :
    Keeps job
      (reconcileFrom job.services index count).run
      (fun _ t' => Working job procedure none t') t := by
  induction count generalizing index t with
  | zero => exact .pure h.trust h
  | succ count ih =>
    rw [reconcileFrom]
    refine .andThen (meets_memory h.trust ?_)
    dsimp only
    split
    · next record hrecord =>
      obtain ⟨file, hfile⟩ := file_of_record h hrecord
      split
      · next hunresolved =>
        refine .andThen ((meets_reconcileRecord hinjective h hfile hrecord hunresolved).weaken
          fun r t' _ h' => ?_)
        cases r with
        | ok u => exact ih h'
        | error e => exact h'
      · exact ih h
    · exact ih h

omit hinjective [DecidableEq Digest] in
/-- The receipt on disk fits, so it fits in memory. -/
theorem meets_loaded {post : Except IoError (ReplaceReceipt Digest) → Trail Digest → Prop}
    (h : Trustworthy job t)
    (hok : ∀ receipt, t.disk = some receipt → post (.ok receipt) t)
    (herror : ∀ e, post (.error e) t) :
    Keeps job (readReceipt job.services).run post t := by
  rw [readReceipt]
  refine .andThen (.ask h fun r t' hstep => ?_)
  obtain ⟨rfl, hdisk⟩ := trace_readReceipt hstep
  refine ⟨h, ?_⟩
  cases r with
  | error e => exact herror e
  | ok receipt =>
    refine meets_refused h herror fun _ => ?_
    refine meets_refused h herror fun _ => ?_
    exact .pure h (hok receipt (hdisk receipt rfl))

/-- Reconciling keeps the invariant, and leaves a receipt that fits. -/
theorem meets_reconcileReceipt {post : Except IoError (ReplaceReceipt Digest) → Trail Digest → Prop}
    (h : Trustworthy job t)
    (hok : ∀ t', Working job t.procedure none t' → post (.ok t'.memory) t')
    (herror : ∀ e t', t'.procedure = t.procedure → post (.error e) t') :
    Keeps job
      (reconcileReceipt job.services).run post t := by
  rw [reconcileReceipt]
  refine .andThen (meets_loaded h (fun receipt hdisk => ?_) fun e => herror e t rfl)
  obtain ⟨hversion, htracks, -⟩ := h.disk receipt hdisk
  refine .andThen (meets_assign h ?_)
  have hloaded : Working job t.procedure none { t with memory := receipt } :=
    ⟨⟨h.disk, h.overwrites⟩, ⟨hversion, htracks⟩, rfl⟩
  refine .andThen ((meets_reconcileFrom hinjective hloaded).weaken fun r t' _ h' => ?_)
  cases r with
  | error e => exact herror e t' h'.procedure
  | ok u =>
    refine .andThen (meets_persist h'.trust h'.fits (fun t'' ht => ?_) fun e t'' ht =>
      herror e t'' (h'.published ht).procedure)
    exact meets_memory (h'.publish ht).trust (hok _ (h'.publish ht))

end Injective

/-! ## §2 Restoring one file -/

/-- A record is being restored: only its state may have changed since it was read. -/
structure Restoring (index : Nat) (file : DiskPreviewFile job.services)
    (record : FileReceipt Digest) (t : Trail Digest) : Prop where
  working : Working job .rollback none t
  selected : job.selected[index]? = some file
  kept : ∃ state, t.memory.files[index]? = some { record with state }
  safe : Protected job t.log file record

namespace Restoring

omit [DecidableEq Digest]

/-- The record still belongs to its file. -/
theorem same (h : Restoring index file record t) :
    record.path = file.path ∧ record.original = file.fingerprint := by
  obtain ⟨state, hrecord⟩ := h.kept
  exact h.working.fits.tracks.record index file { record with state } h.selected hrecord

theorem note (h : Restoring index file record t) {event : Event}
    (hevent : ∀ procedure path before after, event = .overwritten procedure path before after →
      Expected job path before procedure) : Restoring index file record (t.note event) :=
  ⟨h.working.note hevent, h.selected, h.kept, h.safe.mono (List.suffix_cons ..)⟩

theorem looked (h : Restoring index file record t) {path : Path} {t' : Trail Digest}
    (hlooked : Looked path t t') : Restoring index file record t' := by
  rcases hlooked with rfl | ⟨content, rfl⟩
  · exact h
  · exact h.note fun _ _ _ _ heq => nomatch heq

/-- A state suits the record if it suits it as it was read. -/
theorem suits (h : Restoring index file record t) {state : ReceiptState}
    (hsound : Sound job (.classified index state :: t.log) index file { record with state }) :
    Suits index file state t := by
  obtain ⟨old, hrecord⟩ := h.kept
  exact suits_of hrecord hsound

/-- The intent to restore is recorded. -/
theorem staged (h : Restoring index file record t) :
    Restoring index file record (t.setState index .rollbackStaged) := by
  refine ⟨(h.working.except index).setState h.selected (h.suits (.restoring rfl nofun
    (h.safe.mono (List.suffix_cons ..)))), h.selected, ?_,
    h.safe.mono (List.suffix_cons ..)⟩
  obtain ⟨old, hrecord⟩ := h.kept
  refine ⟨.rollbackStaged, ?_⟩
  show (t.memory.files.modify index _)[index]? = _
  rw [List.getElem?_modify_eq, hrecord]
  rfl

theorem published (h : Restoring index file record t) {t' : Trail Digest}
    (ht : t' = t ∨ Published job t t') : Restoring index file record t' := by
  rcases ht with rfl | ht
  · exact h
  · obtain ⟨rfl, -⟩ := id ht
    exact ⟨h.working.publish ht, h.selected, h.kept, h.safe⟩

end Restoring

section Injective

variable (hinjective : Function.Injective job.services.sha256)
include hinjective

/-- A target is written back only while it holds this job's output. -/
theorem meets_writeBack {current : Fingerprint Digest} {paged : Bool} {original : Opened Digest}
    {post : Except IoError Restore → Trail Digest → Prop} (h : Restoring index file record t)
    (hhash : record.afterHash = some current.sha256)
    (hpost : ∀ r t', r ≠ .ok .alreadyOriginal → Restoring index file record t' → post r t') :
    Keeps job
      (writeBack job.services index record current paged original).run post t := by
  rw [writeBack]
  split
  · exact .pure h.working.trust (hpost _ t nofun h)
  · refine .andThen (meets_setState h.working.trust ?_)
    have hstaged := h.staged
    refine .andThen (meets_persist hstaged.working.trust hstaged.working.fits (fun t' ht => ?_)
      fun e t' ht => hpost _ t' nofun (hstaged.published ht))
    have hpublished := hstaged.published (Or.inr ht)
    obtain ⟨rfl, -⟩ := ht
    refine .andThen (meets_liftExcept hpublished.working.trust ?_)
    cases job.services.rewritten paged original.content with
    | error e => exact hpost _ _ nofun hpublished
    | ok bytes =>
      have hexpected {before : Bytes} (hbefore : job.services.sha256 before = current.sha256) :
          Expected job record.path before .rollback := by
        refine ⟨file, List.mem_of_getElem? h.selected, h.same.1.symm, ?_⟩
        exact h.safe.output hinjective (hbefore ▸ hhash)
      have hwritten (before : Bytes) (hbefore : job.services.sha256 before = current.sha256) :
          Restoring index file record
            (Trail.note _ (.overwritten (t.setState index .rollbackStaged).publish.procedure
              record.path before bytes)) :=
        hpublished.note fun procedure path content after heq => by
          cases heq
          exact hpublished.working.procedure ▸ hexpected hbefore
      refine .andThen (meets_save hpublished.working.trust (fun before hbefore => ?_)
        (fun before hbefore => ?_) ?_)
      · exact hpublished.working.procedure ▸ hexpected hbefore
      · have hwritten := hwritten before hbefore
        exact .pure hwritten.working.trust (hpost _ _ nofun hwritten)
      · rintro e t' (rfl | ⟨before, hbefore, rfl⟩)
        · exact hpost _ _ nofun hpublished
        · exact hpost _ _ nofun (hwritten before hbefore)

omit hinjective [DecidableEq Digest] in
theorem meets_orMissing {α β : Type} {result : Except IoError α} {missing : β}
    {next : α → Task Digest β} {post : Except IoError β → Trail Digest → Prop}
    (h : Trustworthy job t) (hmissing : post (.ok missing) t) (herror : ∀ e, post (.error e) t)
    (hnext : ∀ a, result = .ok a →
      Keeps job (next a).run post t) :
    Keeps job (orMissing result missing next).run post
      t := by
  unfold orMissing
  cases result with
  | ok a => exact hnext a rfl
  | error e =>
    dsimp only
    split
    · exact .pure h hmissing
    · exact .pure h (herror e)

/-- Restoring from a backup that can be read. -/
theorem meets_restoreBackup {paging : Bool} {backupPath : Path} {current : Fingerprint Digest}
    {post : Except IoError Restore → Trail Digest → Prop} (h : Restoring index file record t)
    (hhash : record.afterHash = some current.sha256)
    (hpost : ∀ r t', r ≠ .ok .alreadyOriginal → Restoring index file record t' → post r t') :
    Keeps job
      (restoreBackup job.services paging index record backupPath current).run post t := by
  rw [restoreBackup]
  split
  · refine meets_refused h.working.trust (fun e => hpost _ t (by simp) h) fun _ => ?_
    refine .andThen (meets_resultOf (meets_openPaged ⟨fun t' => h.working.trust.looked,
      fun identity content => ?_, fun e t' hlooked => ?_⟩))
    · have hopened := h.looked (Or.inr ⟨content, rfl⟩ : Looked backupPath t _)
      exact meets_writeBack hinjective hopened hhash hpost
    · have hopened := h.looked hlooked
      refine meets_orMissing hopened.working.trust (hpost _ _ (by simp) hopened)
        (fun e => hpost _ _ (by simp) hopened) fun a heq => (by cases heq)
  · refine .andThen (meets_resultOf (meets_quiet rfl h.working.trust fun approved => ?_))
    refine meets_orMissing h.working.trust (hpost _ _ (by simp) h) (fun e => hpost _ _ (by simp) h)
      fun a _ => ?_
    refine .andThen (meets_openTrusted ⟨fun t' => h.working.trust.looked,
      fun identity content => ?_, fun e t' hlooked => hpost _ _ (by simp) (h.looked hlooked)⟩)
    have hopened := h.looked (Or.inr ⟨content, rfl⟩ : Looked backupPath t _)
    exact meets_writeBack hinjective hopened hhash hpost

/-- Restoring one file, from the approval of its target on. -/
theorem meets_restore {paging : Bool} {backupPath : Path}
    {post : Except IoError Restore → Trail Digest → Prop} (h : Restoring index file record t)
    (hpost : ∀ r t', (r = .ok .alreadyOriginal → lastSeen file.path t'.log = some file.source) →
      Restoring index file record t' → post r t') :
    Keeps job
      (restore job.services paging index record backupPath).run post t := by
  have hother {r : Except IoError Restore} {t' : Trail Digest} (hr : r ≠ .ok .alreadyOriginal)
      (h' : Restoring index file record t') : post r t' :=
    hpost r t' (fun heq => absurd heq hr) h'
  rw [restore]
  refine .andThen (meets_resultOf (meets_quiet rfl h.working.trust fun approved => ?_))
  refine meets_orMissing h.working.trust (hother nofun h) (fun e => hother nofun h) fun _ _ => ?_
  refine .andThen (meets_resultOf (meets_currentFingerprint (fun t' => h.working.trust.looked)
    (fun identity content => ?_) fun e t' hlooked => ?_))
  · have hread := h.looked (Or.inr ⟨content, rfl⟩ : Looked record.path t _)
    refine meets_orMissing hread.working.trust (hother nofun hread) (fun e => hother nofun hread)
      fun current hcurrent => ?_
    cases hcurrent
    refine meets_then (fun _ h' => meets_quiet rfl hread.working.trust h')
      (fun e => hother nofun hread) fun _ => ?_
    refine meets_refused hread.working.trust (fun e => hother nofun hread) fun _ => ?_
    refine .andThen (meets_use_quiet rfl hread.working.trust fun opened => ?_)
    refine meets_refused hread.working.trust (fun e => hother nofun hread) fun _ => ?_
    split
    · refine .pure hread.working.trust ?_
      split
      · next hsame =>
        refine hpost _ _ (fun _ => ?_) hread
        rw [h.same.2] at hsame
        rw [← source_eq hinjective hsame.symm, ← h.same.1]
        exact if_pos rfl
      · exact hother nofun hread
    · next hhash =>
      exact meets_restoreBackup hinjective hread (by simpa using hhash)
        fun r t' hr h' => hother hr h'
  · have hread := h.looked hlooked
    exact meets_orMissing hread.working.trust (hother nofun hread) (fun e => hother nofun hread)
      fun a heq => nomatch heq

/-- What the bytes of a target say after an attempt suits the record. -/
theorem suits_restoredState {outcome : Except IoError Restore} {content : Bytes}
    (h : Restoring index file record t) (hseen : lastSeen record.path t.log = some content) :
    Suits index file (restoredState record outcome (job.services.sha256 content)) t := by
  refine h.suits ?_
  rw [h.same.1] at hseen
  unfold restoredState
  split
  · next hsame =>
    rw [h.same.2] at hsame
    have hcontent := source_eq hinjective hsame.symm
    exact .rolledBack (hcontent ▸ hseen)
  · split
    · exact .restoring rfl nofun (h.safe.mono (List.suffix_cons ..))
    · cases outcome with
      | ok r => exact .final ⟨rfl, rfl⟩ nofun
      | error e => exact .final ⟨rfl, rfl⟩ nofun

/-- The state of a record after an attempt to restore it suits it. -/
theorem meets_rollbackState {staged : Bool} {outcome : Except IoError Restore}
    {post : Except IoError ReceiptState → Trail Digest → Prop} (h : Restoring index file record t)
    (hseen : outcome = .ok .alreadyOriginal → lastSeen file.path t.log = some file.source)
    (hok : ∀ state t', Restoring index file record t' → Suits index file state t' →
      post (.ok state) t') :
    Keeps job
      (rollbackState job.services record staged outcome).run post t := by
  have hfinal {state : ReceiptState} (hused : state.unresolved = false ∧ state.restorable = false)
      (hstate : state ≠ .rolledBack) : post (.ok state) t :=
    hok state t h (suits_final hused hstate)
  unfold rollbackState
  split
  · exact .pure h.working.trust (hok _ _ h (h.suits (.rolledBack (hseen rfl))))
  · exact .pure h.working.trust (hfinal ⟨rfl, rfl⟩ (by simp))
  · exact .pure h.working.trust (hfinal ⟨rfl, rfl⟩ (by simp))
  · split
    · exact .pure h.working.trust (hok _ _ h
        (h.suits (.restoring rfl (by simp) (h.safe.mono (List.suffix_cons ..)))))
    · refine .andThen (meets_resultOf (meets_currentFingerprint (fun t' => h.working.trust.looked)
        (fun identity content => ?_) fun e t' hlooked => ?_))
      · have hread := h.looked (Or.inr ⟨content, rfl⟩ : Looked record.path t _)
        exact .pure hread.working.trust
          (hok _ _ hread (suits_restoredState hinjective hread (if_pos rfl)))
      · have hread := h.looked hlooked
        exact .pure hread.working.trust (hok _ _ hread
          (hread.suits (.restoring rfl (by simp) (hread.safe.mono (List.suffix_cons ..)))))

end Injective

/-! ## §3 Rolling back -/

section Injective

variable (hinjective : Function.Injective job.services.sha256)
include hinjective

theorem meets_rollbackRecord {paging : Bool} {backupPath : Path}
    (h : Restoring index file record t) :
    Keeps job
      (rollbackRecord job.services paging index record backupPath).run
      (fun _ t' => Working job .rollback none t') t := by
  rw [rollbackRecord]
  refine meets_then (fun _ h' => meets_quiet rfl h.working.trust h') (fun e => h.working)
    fun _ => ?_
  refine .andThen (meets_resultOf (meets_restore hinjective h fun outcome t₁ hseen h₁ => ?_))
  refine .andThen (meets_memory h₁.working.trust ?_)
  refine .andThen (meets_rollbackState hinjective h₁ hseen fun state t₂ h₂ hsuits => ?_)
  have hset := (h₂.working.except index).setState h₂.selected hsuits
  refine .andThen (meets_setState h₂.working.trust ?_)
  exact meets_persist hset.trust hset.fits (fun t₃ ht => hset.publish ht)
    fun e t₃ ht => hset.published ht

omit hinjective [DecidableEq Digest] in
/-- A record that may be restored has all that is needed. -/
theorem restoring_of_restorable (h : Working job .rollback none t)
    (hfile : job.selected[index]? = some file) (hrecord : t.memory.files[index]? = some record)
    (hrestorable : record.state.restorable = true) : Restoring index file record t := by
  have hsound := h.fits.tracks.sound index file record nofun hfile hrecord
  have hsafe := (hsound.used (Or.inr hrestorable)).resolve_left (hsound.hashed (Or.inl hrestorable))
  exact ⟨h, hfile, ⟨record.state, hrecord⟩, hsafe⟩

theorem meets_rollbackFrom {paging : Bool} {count : Nat} (h : Working job .rollback none t) :
    Keeps job
      (rollbackFrom job.services paging index count).run
      (fun _ t' => Working job .rollback none t') t := by
  induction count generalizing index t with
  | zero => exact .pure h.trust h
  | succ count ih =>
    rw [rollbackFrom]
    refine .andThen (meets_use_quiet rfl h.trust fun cancelled => ?_)
    dsimp only
    split
    · exact .pure h.trust h
    · refine .andThen (meets_memory h.trust ?_)
      dsimp only
      split
      · next record hrecord =>
        obtain ⟨file, hfile⟩ := file_of_record h hrecord
        split
        · next hrestorable =>
          split
          · have hrestoring := restoring_of_restorable h hfile hrecord hrestorable
            refine .andThen ((meets_rollbackRecord hinjective hrestoring).weaken
              fun r t' _ h' => ?_)
            cases r with
            | ok u => exact ih h'
            | error e => exact h'
          · exact ih h
        · exact ih h
      · exact ih h

omit hinjective [DecidableEq Digest] in
theorem meets_skipUnprotected {count : Nat} (h : Working job .rollback none t) :
    Keeps job
      (skipUnprotected index count : Task Digest Bool).run
      (fun _ t' => Working job .rollback none t') t := by
  induction count generalizing index t with
  | zero => exact .pure h.trust h
  | succ count ih =>
    rw [skipUnprotected]
    refine .andThen (meets_memory h.trust ?_)
    dsimp only
    split
    · next record hrecord =>
      obtain ⟨file, hfile⟩ := file_of_record h hrecord
      split
      · have hsuits : Suits index file (.skipped "No backup; replaced without a backup") t :=
          suits_final ⟨rfl, rfl⟩ nofun
        refine .andThen ((meets_settle h hfile hsuits).weaken fun r t' _ h' => ?_)
        cases r with
        | error e => exact h'
        | ok u =>
          refine .andThen ((ih h').weaken fun r t'' _ h'' => ?_)
          cases r with
          | error e => exact h''
          | ok b => exact .pure h''.trust h''
      · exact ih h
    · exact .pure h.trust h

/-- Rolling back keeps the invariant, and returns a receipt that fits. -/
theorem meets_rollbackReceipt {paging : Bool} (h : Trustworthy job t)
    (hprocedure : t.procedure = .rollback) :
    Keeps job
      (rollbackReceipt job.services paging).run
      (fun r t' => ∀ receipt, r = .ok receipt → Tracks job t'.log none receipt.files) t := by
  rw [rollbackReceipt]
  refine .andThen (meets_reconcileReceipt hinjective h (fun t₁ h₁ => ?_)
    fun e t' _ receipt heq => nomatch heq)
  rw [hprocedure] at h₁
  refine .andThen ((meets_skipUnprotected h₁).weaken fun r t₂ _ h₂ => ?_)
  -- The loop, and the receipt it leaves in memory.
  have hloop {t' : Trail Digest} (h' : Working job .rollback none t') :
      Keeps job
        (do
          rollbackFrom job.services paging 0 t₁.memory.files.length
          memory : Task Digest (ReplaceReceipt Digest)).run
        (fun r t' => ∀ receipt, r = .ok receipt → Tracks job t'.log none receipt.files) t' := by
    refine .andThen ((meets_rollbackFrom hinjective h').weaken fun r t'' _ h'' => ?_)
    cases r with
    | error e => exact fun _ heq => nomatch heq
    | ok u =>
      refine meets_memory h''.trust fun receipt heq => ?_
      cases heq
      exact h''.fits.tracks
  cases r with
  | error e => exact fun _ heq => nomatch heq
  | ok unprotected =>
    dsimp only
    split
    · exact .andThen (meets_persist h₂.trust h₂.fits (fun t' ht => hloop (h₂.publish ht))
        fun e t' _ receipt heq => nomatch heq)
    · exact hloop h₂

end Injective

end BareLine.Replace
