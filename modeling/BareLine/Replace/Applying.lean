import BareLine.Replace.Records

/-!
# Applying keeps the invariant

- §1: operations on receipts, and saving.
- §2: the work on one file.
- §3: the whole job.
-/

namespace BareLine.Replace

open Lib

variable {Digest Edit Encoding : Type} {job : Job Digest Edit Encoding}
variable {t : Trail Digest} {index : Nat} {file : DiskPreviewFile job.services}

/-! ## §1 Operations on receipts -/

/-- A procedure keeps the invariant of a job, and what it is used for. -/
abbrev Keeps (job : Job Digest Edit Encoding) {α : Type}
    (procedure : Program (Op Digest) Op.Answer α) (post : α → Trail Digest → Prop)
    (t : Trail Digest) : Prop :=
  Meets (trace job.services.sha256) (Trustworthy job) procedure post t

theorem Trustworthy.modify (h : Trustworthy job t) (index : Nat)
    (f : FileReceipt Digest → FileReceipt Digest) : Trustworthy job (t.modify index f) :=
  ⟨h.disk, h.overwrites⟩

theorem Trustworthy.setState (h : Trustworthy job t) (index : Nat) (state : ReceiptState) :
    Trustworthy job (t.setState index state) :=
  (h.modify index _).note fun _ _ _ _ heq => nomatch heq

/-- Publishing a receipt that fits, within the budget. -/
theorem Trustworthy.publish (h : Trustworthy job t) (hfits : t.Fits job none)
    (hsize : (job.services.serialized t.memory).length ≤ MAX_RECEIPT) :
    Trustworthy job t.publish where
  disk receipt hdisk := by
    cases hdisk
    exact ⟨hfits.version, hfits.tracks, hsize⟩
  overwrites := h.overwrites

/-- Looking at a file keeps the invariant. -/
theorem Trustworthy.looked (h : Trustworthy job t) {path : Path} {t' : Trail Digest}
    (hlooked : Looked path t t') : Trustworthy job t' := by
  rcases hlooked with rfl | ⟨content, rfl⟩
  · exact h
  · exact h.note fun _ _ _ _ heq => nomatch heq

theorem meets_memory {post : Except IoError (ReplaceReceipt Digest) → Trail Digest → Prop}
    (h : Trustworthy job t) (hpost : post (.ok t.memory) t) :
    Keeps job memory.run post t := by
  refine .lift (.ask h fun receipt t' ⟨files, files', now, heq, hsame⟩ => ?_)
  cases hsame
  cases heq
  exact ⟨h, hpost⟩

variable {post : Except IoError Unit → Trail Digest → Prop}

theorem meets_setState {state : ReceiptState} (h : Trustworthy job t)
    (hpost : post (.ok ()) (t.setState index state)) :
    Keeps job (setState index state).run post t := by
  refine .lift (.ask h fun _ t' ⟨files, files', now, hsame⟩ => ?_)
  cases hsame
  exact ⟨h.setState index state, hpost⟩

theorem meets_setAfterHash {hash : Digest} (h : Trustworthy job t)
    (hpost : post (.ok ()) (t.setAfterHash index hash)) :
    Keeps job (setAfterHash index hash).run post t := by
  refine .lift (.ask h fun _ t' ⟨files, files', now, hsame⟩ => ?_)
  cases hsame
  exact ⟨h.modify index _, hpost⟩

theorem meets_setBackup {path : Path} (h : Trustworthy job t)
    (hpost : post (.ok ()) (t.setBackup index path)) :
    Keeps job (setBackup index path).run post t := by
  refine .lift (.ask h fun _ t' ⟨files, files', now, hsame⟩ => ?_)
  cases hsame
  exact ⟨h.modify index _, hpost⟩

theorem meets_assign {receipt : ReplaceReceipt Digest} (h : Trustworthy job t)
    (hpost : post (.ok ()) { t with memory := receipt }) :
    Keeps job (assign receipt).run post t := by
  refine .lift (.ask h fun _ t' ⟨files, files', now, hsame⟩ => ?_)
  cases hsame
  exact ⟨⟨h.disk, h.overwrites⟩, hpost⟩

variable (job) in
/-- The receipt is published, which the budget allows. -/
def Published (t t' : Trail Digest) : Prop :=
  t' = t.publish ∧ (job.services.serialized t.memory).length ≤ MAX_RECEIPT

/-- Publishing, whatever it reports. -/
theorem meets_persist (h : Trustworthy job t) (hfits : t.Fits job none)
    (hok : ∀ t', Published job t t' → post (.ok ()) t')
    (herror : ∀ e t', t' = t ∨ Published job t t' → post (.error e) t') :
    Keeps job (persist job.services).run post t := by
  rw [persist]
  refine .andThen (meets_memory h ?_)
  refine meets_refused h (fun e => herror e t (Or.inl rfl)) fun hsize => ?_
  have hsize := Nat.le_of_not_lt hsize
  refine .ask h fun r t' hstep => ?_
  rcases trace_publishJson hstep with rfl | ⟨⟨e, rfl⟩, rfl⟩
  · refine ⟨h.publish hfits hsize, ?_⟩
    cases r with
    | ok u => exact hok _ ⟨rfl, hsize⟩
    | error e => exact herror e _ (Or.inr ⟨rfl, hsize⟩)
  · exact ⟨h, herror e _ (Or.inl rfl)⟩

/-- Saving, of a target that is expected to hold certain bytes. -/
theorem meets_save {target : Path} {expected : Fingerprint Digest} {bytes : Bytes}
    (h : Trustworthy job t)
    (hexpected : ∀ before, job.services.sha256 before = expected.sha256 →
      Expected job target before t.procedure)
    (hok : ∀ before, job.services.sha256 before = expected.sha256 →
      post (.ok ()) (t.note (.overwritten t.procedure target before bytes)))
    (herror : ∀ e t', (t' = t ∨ ∃ before, job.services.sha256 before = expected.sha256 ∧
      t' = t.note (.overwritten t.procedure target before bytes)) → post (.error e) t') :
    Keeps job (save target expected bytes).run post t := by
  refine .ask h fun r t' hstep => ?_
  rcases trace_save hstep with ⟨before, hbefore, rfl⟩ | ⟨⟨e, rfl⟩, rfl⟩
  · refine ⟨h.note fun procedure path content after heq => ?_, ?_⟩
    · cases heq
      exact hexpected before hbefore
    · cases r with
      | ok u => exact hok before hbefore
      | error e => exact herror e _ (Or.inr ⟨before, hbefore, rfl⟩)
  · exact ⟨h, herror e _ (Or.inl rfl)⟩

/-! ## §2 The work on one file -/

variable (job) in
/-- A procedure at work: the invariant, and the records in memory but perhaps one. -/
structure Working (procedure : Procedure) (exempt : Option Nat) (t : Trail Digest) : Prop where
  trust : Trustworthy job t
  fits : t.Fits job exempt
  procedure : t.procedure = procedure

namespace Working

variable {procedure : Procedure} {exempt : Option Nat}

theorem except (h : Working job procedure none t) (index : Nat) :
    Working job procedure (some index) t :=
  ⟨h.trust, h.fits.except index, h.procedure⟩

theorem note (h : Working job procedure exempt t) {event : Event}
    (hevent : ∀ procedure path before after, event = .overwritten procedure path before after →
      Expected job path before procedure) : Working job procedure exempt (t.note event) :=
  ⟨h.trust.note hevent, h.fits.note event, h.procedure⟩

theorem looked (h : Working job procedure exempt t) {path : Path} {t' : Trail Digest}
    (hlooked : Looked path t t') : Working job procedure exempt t' := by
  rcases hlooked with rfl | ⟨content, rfl⟩
  · exact h
  · exact h.note fun _ _ _ _ heq => nomatch heq

theorem modify (h : Working job procedure (some index) t)
    {f : FileReceipt Digest → FileReceipt Digest}
    (hf : ∀ record, (f record).path = record.path ∧ (f record).original = record.original) :
    Working job procedure (some index) (t.modify index f) :=
  ⟨h.trust.modify index f, h.fits.modify hf, h.procedure⟩

/-- The record is given a state that fits. -/
theorem setState (h : Working job procedure (some index) t)
    (hfile : job.selected[index]? = some file) {state : ReceiptState}
    (hsound : t.At index fun record =>
      Sound job (.classified index state :: t.log) index file { record with state }) :
    Working job procedure none (t.setState index state) where
  trust := h.trust.setState index state
  fits := by
    have hmodified := h.fits.modify (f := fun record => { record with state }) fun _ => ⟨rfl, rfl⟩
    exact (hmodified.note (.classified index state)).settle hfile (at_modify hsound)
  procedure := h.procedure

theorem publish (h : Working job procedure none t) {t' : Trail Digest}
    (ht : Published job t t') : Working job procedure none t' := by
  obtain ⟨rfl, hsize⟩ := ht
  exact ⟨h.trust.publish h.fits hsize, ⟨h.fits.version, h.fits.tracks⟩, h.procedure⟩

/-- Publication, whatever became of it. -/
theorem published (h : Working job procedure none t) {t' : Trail Digest}
    (ht : t' = t ∨ Published job t t') : Working job procedure none t' := by
  rcases ht with rfl | ht
  · exact h
  · exact h.publish ht

end Working

/-- Classify a record, and publish the receipt. -/
theorem meets_classify {procedure : Procedure} {state : ReceiptState} {α : Type} {a : α}
    {post : Except IoError α → Trail Digest → Prop}
    (h : Working job procedure (some index) t) (hfile : job.selected[index]? = some file)
    (hsound : t.At index fun record =>
      Sound job (.classified index state :: t.log) index file { record with state })
    (hok : ∀ t', t' = (t.setState index state).publish → Working job procedure none t' →
      post (.ok a) t')
    (herror : ∀ e t', Working job procedure none t' → post (.error e) t') :
    Keeps job
      (do setState index state; persist job.services; return a : Task Digest α).run post t := by
  have hset := h.setState hfile hsound
  refine .andThen (meets_setState h.trust ?_)
  refine .andThen (meets_persist hset.trust hset.fits (fun t' ht => ?_) fun e t' ht => ?_)
  · exact .pure (hset.publish ht).trust (hok _ ht.1 (hset.publish ht))
  · exact herror e t' (hset.published ht)

theorem meets_openTarget {post : Except IoError (Opened Digest) → Trail Digest → Prop}
    (h : Opens (Trustworthy job) job.services file.path t post) :
    Keeps job (openTarget job file).run post t := by
  have hhere := h.inv t (Or.inl rfl)
  have hfails (e : IoError) := h.error e t (Or.inl rfl)
  rw [openTarget]
  split
  · refine meets_refused hhere hfails fun _ => ?_
    refine meets_then (fun _ h' => meets_quiet rfl hhere h') hfails fun _ => ?_
    exact meets_openPaged h
  · refine meets_then (fun _ h' => meets_quiet rfl hhere h') hfails fun _ => ?_
    exact meets_openTrusted h

section Injective

variable (hinjective : Function.Injective job.services.sha256)
include hinjective

/-- Before its file is replaced, a record names the output and a backup. -/
theorem meets_stage [DecidableEq Digest] {directory : Path} {opened : Opened Digest}
    {post : Except IoError Bytes → Trail Digest → Prop} (h : Working job .apply (some index) t)
    (hfile : job.selected[index]? = some file) (hcontent : opened.content = file.source)
    (hok : ∀ output t', file.output = .ok output → Working job .apply none t' →
      t'.At index (Protected job t'.log file) → post (.ok output) t')
    (herror : ∀ e t', Working job .apply (some index) t' → post (.error e) t') :
    Keeps job
      (stage job directory index file opened).run post t := by
  rw [stage]
  refine meets_then (fun _ h' => meets_quiet rfl h.trust h') (fun e => herror e t h) fun _ => ?_
  refine .andThen (meets_liftExcept h.trust ?_)
  rw [hcontent]
  cases houtput : job.services.rendered file.paged file.encoding file.bom file.edits file.source with
  | error e => exact herror e t h
  | ok output =>
    dsimp only
    have houtput : file.output = .ok output := houtput
    have hhashed := h.modify (f := fun record =>
      { record with afterHash := some (job.services.sha256 output) }) fun _ => ⟨rfl, rfl⟩
    refine .andThen (meets_setAfterHash h.trust ?_)
    -- What is left to do once the record is protected.
    have hpublish {t' : Trail Digest} (h' : Working job .apply (some index) t')
        (hprotected : t'.At index (Protected job t'.log file)) :
        Keeps job
          (do setState index .staged; persist job.services; return output : Task Digest Bytes).run
            post t' := by
      refine meets_classify h' hfile (hprotected.imp fun record hrecord => ?_) ?_ ?_
      · exact .unknown rfl nofun (Or.inr (hrecord.mono (List.suffix_cons ..)))
      · rintro t'' rfl hworking
        refine hok output _ houtput hworking ?_
        exact at_modify (hprotected.imp fun record hrecord => hrecord.mono (List.suffix_cons ..))
      · exact fun e t'' hworking => herror e t'' (hworking.except index)
    dsimp only
    split
    · next hrequired =>
      refine .andThen (meets_backup ?_ ?_ ?_)
      · rintro t' (rfl | ⟨content, rfl⟩)
        · exact hhashed.trust
        · exact hhashed.trust.note fun _ _ _ _ heq => nomatch heq
      · intro content hcontent'
        have hcopied : Working job .apply (some index)
            (Trail.note _ (.copied file.path
              (directory ++ ["original-" ++ toString index ++ ".bak"]) content)) :=
          hhashed.note fun _ _ _ _ heq => nomatch heq
        have hsource := source_eq hinjective hcontent'.symm
        refine .andThen (meets_setBackup hcopied.trust ?_)
        refine hpublish (hcopied.modify fun _ => ⟨rfl, rfl⟩) ?_
        refine at_modify fun record hrecord => ⟨output, houtput, ?_, fun _ => ⟨_, rfl, ?_⟩⟩
        · exact at_modify (P := fun record =>
            record.afterHash = some (job.services.sha256 output)) (fun _ _ => rfl) record hrecord
        · rw [hsource]
          exact List.mem_cons_self
      · rintro e t' (rfl | ⟨content, rfl⟩)
        · exact herror e _ hhashed
        · exact herror e _ (hhashed.note fun _ _ _ _ heq => nomatch heq)
    · next hdisabled =>
      refine hpublish hhashed (at_modify fun record hrecord => ?_)
      exact ⟨output, houtput, rfl, fun hrequired => absurd hrequired hdisabled⟩

/-- What is known when the work on a file has ended. -/
def Explained (index : Nat) (file : DiskPreviewFile job.services) (t : Trail Digest) :
    Outcome → Prop
  | .saved => Working job .apply none t ∧ t.At index (Protected job t.log file) ∧
      ∃ output, file.output = .ok output ∧ lastSeen file.path t.log = some output
  | .interrupted _ => Working job .apply none t ∧ t.At index (Protected job t.log file)
  | .reviewChanged _ | .failed _ => Working job .apply (some index) t

/-- A file is replaced only while it is as previewed, and by the output. -/
theorem meets_replaceFile [DecidableEq Digest] {directory : Path}
    {post : Except IoError Outcome → Trail Digest → Prop} (h : Working job .apply none t)
    (hfile : job.selected[index]? = some file)
    (hpost : ∀ outcome t', Explained index file t' outcome → post (.ok outcome) t') :
    Keeps job
      (replaceFile job directory index file).run post t := by
  rw [replaceFile]
  refine .andThen (meets_resultOf (meets_openTarget ⟨fun t' => h.trust.looked, ?_, ?_⟩))
  · intro identity content
    have hopened := h.looked (Or.inr ⟨content, rfl⟩ : Looked file.path t _)
    dsimp only
    split
    · exact .pure hopened.trust (hpost (.reviewChanged _) _ (hopened.except index))
    · next hsame =>
      have hsame : (⟨identity, job.services.sha256 content⟩ : Fingerprint Digest) =
          file.fingerprint := by simpa using hsame
      have hcontent := source_eq hinjective (congrArg Fingerprint.sha256 hsame).symm
      refine .andThen (meets_resultOf (meets_stage hinjective (hopened.except index) hfile hcontent
        (fun output t' houtput h' hprotected => ?_) fun e t' h' => ?_))
      · have hexpected {before : Bytes}
            (hbefore : job.services.sha256 before = file.fingerprint.sha256) :
            Expected job file.path before .apply :=
          ⟨file, List.mem_of_getElem? hfile, rfl, source_eq hinjective hbefore.symm⟩
        have hwritten (before : Bytes) (hbefore : job.services.sha256 before = file.fingerprint.sha256) :
            Working job .apply none (t'.note (.overwritten t'.procedure file.path before output)) :=
          h'.note fun procedure path content after heq => by
            cases heq
            exact h'.procedure ▸ hexpected hbefore
        have hstill (before : Bytes) := hprotected.imp fun record (hrecord : Protected ..) =>
          hrecord.mono (List.suffix_cons (Event.overwritten t'.procedure file.path before output) _)
        refine .andThen (meets_resultOf (meets_save h'.trust (fun before hbefore => ?_)
          (fun before hbefore => ?_) ?_))
        · exact h'.procedure ▸ hexpected hbefore
        · have hwritten := hwritten before hbefore
          exact .pure hwritten.trust
            (hpost .saved _ ⟨hwritten, hstill before, output, houtput, if_pos rfl⟩)
        · rintro e t'' (rfl | ⟨before, hbefore, rfl⟩)
          · exact .pure h'.trust (hpost (.interrupted e) _ ⟨h', hprotected⟩)
          · have hwritten := hwritten before hbefore
            exact .pure hwritten.trust (hpost (.interrupted e) _ ⟨hwritten, hstill before⟩)
      · exact .pure h'.trust (hpost (.failed e) _ h')
  · intro e t' hlooked
    have h' := h.looked hlooked
    exact .pure h'.trust (hpost (.failed e) _ (h'.except index))

/-- The state a record can be given. -/
def Suits (index : Nat) (file : DiskPreviewFile job.services) (state : ReceiptState)
    (t : Trail Digest) : Prop :=
  t.At index fun record =>
    Sound job (.classified index state :: t.log) index file { record with state }

omit hinjective in
theorem suits_final {state : ReceiptState}
    (hused : state.unresolved = false ∧ state.restorable = false)
    (hrestored : state ≠ .rolledBack) : Suits index file state t :=
  fun _ _ => .final hused hrestored

/-- After an interrupted save, the bytes of the target decide. -/
theorem meets_classifyInterrupted [DecidableEq Digest] {error : IoError}
    {post : Except IoError ReceiptState → Trail Digest → Prop} (h : Working job .apply none t)
    (hprotected : t.At index (Protected job t.log file))
    (hok : ∀ state t', Working job .apply none t' → Suits index file state t' →
      post (.ok state) t') :
    Keeps job
      (classifyInterrupted job.services file.path index error).run post t := by
  rw [classifyInterrupted]
  refine .andThen (meets_memory h.trust ?_)
  dsimp only
  have huncertain {t' : Trail Digest} (hlooked : Looked file.path t t') :
      Suits index file (.uncertain error.text) t' := by
    rcases hlooked with rfl | ⟨content, rfl⟩
    · exact hprotected.imp fun record hrecord =>
        .unknown rfl nofun (Or.inr (hrecord.mono (List.suffix_cons ..)))
    · refine hprotected.imp fun record hrecord => .unknown rfl nofun (Or.inr (hrecord.mono ?_))
      exact (List.suffix_cons ..).trans (List.suffix_cons ..)
  cases hrecord : t.memory.files[index]? with
  | none => exact .pure h.trust (hok _ t h (huncertain (Or.inl rfl)))
  | some record =>
    refine .andThen (meets_resultOf (meets_currentFingerprint (fun t' => h.trust.looked)
      (fun identity content => ?_) fun e t' hlooked => ?_))
    · have hlooked : Looked file.path t (t.note (.observed file.path content)) :=
        Or.inr ⟨content, rfl⟩
      have h' := h.looked hlooked
      dsimp only
      split
      · next hhash =>
        refine .pure h'.trust (hok _ _ h' fun record' hrecord' => ?_)
        have hsame : record' = record := Option.some.inj (hrecord'.symm.trans hrecord)
        subst hsame
        exact .commit hinjective rfl ((hprotected _ hrecord).mono (List.suffix_cons ..)) hhash
          (if_pos rfl)
      · split
        · refine .andThen (meets_use_quiet rfl h'.trust fun cancelled => ?_)
          dsimp only
          split
          · exact .pure h'.trust (hok _ _ h' (suits_final ⟨rfl, rfl⟩ nofun))
          · exact .pure h'.trust (hok _ _ h' (suits_final ⟨rfl, rfl⟩ nofun))
        · exact .pure h'.trust (hok _ _ h' (suits_final ⟨rfl, rfl⟩ nofun))
    · exact .pure (h.looked hlooked).trust (hok _ _ (h.looked hlooked) (huncertain hlooked))

/-- The state of a record fits how the work on its file ended. -/
theorem meets_outcomeState [DecidableEq Digest] {outcome : Outcome}
    {post : Except IoError ReceiptState → Trail Digest → Prop}
    (h : Explained index file t outcome)
    (hok : ∀ state t', Working job .apply (some index) t' → Suits index file state t' →
      post (.ok state) t') :
    Keeps job (outcomeState job index file outcome).run
      post t := by
  cases outcome with
  | saved =>
    obtain ⟨h, hprotected, output, houtput, hseen⟩ := h
    refine .pure h.trust (hok _ _ (h.except index) (hprotected.imp fun record hrecord => ?_))
    obtain ⟨output', houtput', hhash, -⟩ := id hrecord
    rw [houtput] at houtput'
    cases houtput'
    exact .commit hinjective rfl hrecord hhash hseen
  | interrupted e =>
    refine meets_classifyInterrupted hinjective h.1 h.2 fun state t' h' hsuits => ?_
    exact hok state t' (h'.except index) hsuits
  | reviewChanged e | failed e =>
    exact .pure h.trust (hok _ _ h (suits_final ⟨rfl, rfl⟩ nofun))

end Injective

/-! ## §3 The whole job -/

/-- Skipping records leaves all records fit. -/
theorem meets_skipFrom {count : Nat} {post : Except IoError Unit → Trail Digest → Prop}
    (h : Working job .apply none t) (hcount : index + count ≤ job.selected.length)
    (hok : ∀ t', Working job .apply none t' → post (.ok ()) t') :
    Keeps job
      (skipFrom index count : Task Digest Unit).run post t := by
  induction count generalizing index t with
  | zero => exact .pure h.trust (hok t h)
  | succ count ih =>
    rw [skipFrom]
    have hfile := List.getElem?_eq_getElem (show index < job.selected.length by omega)
    refine .andThen (meets_setState h.trust (ih ?_ (by omega)))
    exact (h.except index).setState hfile (suits_final ⟨rfl, rfl⟩ nofun)

/-- The loop over the selected files. -/
theorem meets_applyFrom [DecidableEq Digest]
    (hinjective : Function.Injective job.services.sha256) {directory : Path}
    {files : List (DiskPreviewFile job.services)} (h : Working job .apply none t)
    (hfiles : job.selected.drop index = files) :
    Keeps job (applyFrom job directory index files).run
      (fun _ t' => Working job .apply none t') t := by
  induction files generalizing index t with
  | nil => exact .pure h.trust h
  | cons file rest ih =>
    have hlen := congrArg List.length hfiles
    rw [List.length_drop, List.length_cons] at hlen
    have hfile : job.selected[index]? = some file := by
      rw [← List.head?_drop, hfiles]
      rfl
    have hrest : job.selected.drop (index + 1) = rest := by
      rw [← List.drop_drop, hfiles]
      rfl
    -- A record that is passed over.
    have hskipped {t' : Trail Digest} (h' : Working job .apply none t') (reason : String) :
        Keeps job
          (do
            setState index (.skipped reason)
            persist job.services
            applyFrom job directory (index + 1) rest : Task Digest Unit).run (fun _ t' => Working job .apply none t') t' := by
      have hsuits : Suits index file (.skipped reason) t' := suits_final ⟨rfl, rfl⟩ nofun
      have hset := (h'.except index).setState hfile hsuits
      refine .andThen (meets_setState h'.trust ?_)
      refine .andThen (meets_persist hset.trust hset.fits (fun t'' ht => ?_)
        fun e t'' ht => hset.published ht)
      exact ih (hset.publish ht) hrest
    rw [applyFrom]
    refine .andThen (meets_use_quiet rfl h.trust fun cancelled => ?_)
    dsimp only
    split
    · refine .andThen (meets_skipFrom h (by rw [List.length_cons]; omega) fun t' h' => ?_)
      exact meets_persist h'.trust h'.fits (fun t'' ht => h'.publish ht)
        fun e t'' ht => h'.published ht
    · refine meets_then (fun _ h' => meets_quiet rfl h.trust h') (fun e => h) fun _ => ?_
      refine .andThen (meets_use_quiet rfl h.trust fun opened => ?_)
      dsimp only
      split
      · exact hskipped h _
      · have hreplace : Keeps job
            (do
              let outcome ← replaceFile job directory index file
              setState index (← outcomeState job index file outcome)
              persist job.services
              applyFrom job directory (index + 1) rest : Task Digest Unit).run
            (fun _ t' => Working job .apply none t') t := by
          refine .andThen (meets_replaceFile hinjective h hfile fun outcome t₁ hexplained => ?_)
          refine .andThen (meets_outcomeState hinjective hexplained fun state t₂ h₂ hsuits => ?_)
          have hset := h₂.setState hfile hsuits
          refine .andThen (meets_setState h₂.trust ?_)
          refine .andThen (meets_persist hset.trust hset.fits (fun t₃ ht => ?_)
            fun e t₃ ht => hset.published ht)
          exact ih (hset.publish ht) hrest
        refine .andThen (meets_resultOf ?_)
        refine meets_then (fun _ h' => meets_quiet rfl h.trust h') (fun e => hreplace) fun _ => ?_
        refine meets_quiet rfl h.trust fun readOnly => ?_
        dsimp only
        split
        · exact hskipped h _
        · exact hreplace

/-- Before a job publishes its first receipt. -/
theorem working_receipt (h : Trustworthy job t) (hprocedure : t.procedure = .apply) :
    Working job .apply none { t with memory := job.receipt } := by
  refine ⟨⟨h.disk, h.overwrites⟩, ⟨rfl, List.length_map .., ?_, ?_⟩, hprocedure⟩
  · intro index file record hfile hrecord
    have hrecord : (job.selected.map _)[index]? = some record := hrecord
    rw [List.getElem?_map, hfile] at hrecord
    cases hrecord
    exact ⟨rfl, rfl⟩
  · intro index file record _ hfile hrecord
    have hrecord : (job.selected.map _)[index]? = some record := hrecord
    rw [List.getElem?_map, hfile] at hrecord
    cases hrecord
    exact ⟨fun _ => Or.inl rfl, fun h => h.elim (fun h => nomatch h) (fun h => nomatch h),
      (fun h => nomatch h), fun h => nomatch h⟩

/-- Applying keeps the invariant, and returns a receipt that fits. -/
theorem meets_applyDiskFiles [DecidableEq Digest]
    (hinjective : Function.Injective job.services.sha256) (h : Trustworthy job t)
    (hprocedure : t.procedure = .apply) :
    Keeps job (applyDiskFiles job).run
      (fun r t' => ∀ receipt, r = .ok receipt → Tracks job t'.log none receipt.files) t := by
  have hworking := working_receipt h hprocedure
  rw [applyDiskFiles]
  refine meets_then (fun _ h' => meets_quiet rfl h h') (fun e _ heq => nomatch heq) fun _ => ?_
  refine meets_then (fun _ h' => meets_quiet rfl h h') (fun e _ heq => nomatch heq)
    fun directory => ?_
  refine .andThen (meets_assign h ?_)
  refine .andThen (meets_persist hworking.trust hworking.fits (fun t₁ ht => ?_)
    fun e _ _ _ heq => by cases heq)
  refine .andThen ((meets_applyFrom hinjective (hworking.publish ht) List.drop_zero).weaken
    fun r t' _ h' => ?_)
  cases r with
  | error e => exact fun _ heq => nomatch heq
  | ok u =>
    refine meets_memory h'.trust fun receipt heq => ?_
    cases heq
    exact h'.fits.tracks

end BareLine.Replace
