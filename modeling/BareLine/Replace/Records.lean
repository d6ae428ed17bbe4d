import BareLine.Replace.Rules

/-!
# What the records of a job say

The invariant of a job: its records fit what happened to the files, in memory and on disk, and
no file was overwritten that did not hold what the job expected.
-/

namespace BareLine.Replace

open Lib

variable {Digest Edit Encoding : Type} (job : Job Digest Edit Encoding)

/-! ## §1 Sound records -/

/-- A record was given a state when its file was last seen with some bytes. -/
def Classified (log : List Event) (index : Nat) (state : ReceiptState) (path : Path)
    (content : Bytes) : Prop :=
  ∃ later earlier, log = later ++ .classified index state :: earlier ∧
    lastSeen path earlier = some content

/-- A record names the output of its file and, where backups are required, a backup that was
written with the original bytes. -/
def Protected (log : List Event) (file : DiskPreviewFile job.services)
    (record : FileReceipt Digest) : Prop :=
  ∃ output, file.output = .ok output ∧
    record.afterHash = some (job.services.sha256 output) ∧
    (job.options.backup = .required →
      ∃ target, record.backup = some target ∧ .copied file.path target file.source ∈ log)

/-- A record of a file fits the events. -/
structure Sound (log : List Event) (index : Nat) (file : DiskPreviewFile job.services)
    (record : FileReceipt Digest) : Prop where
  /-- A record that may still be used has no hash yet, or all that is needed to restore it. -/
  used : record.state.unresolved = true ∨ record.state.restorable = true →
    record.afterHash = none ∨ Protected job log file record
  hashed : record.state.restorable = true ∨ record.state = .rollbackStaged →
    record.afterHash ≠ none
  committed : record.state.isCommitted = true →
    ∃ output, file.output = .ok output ∧ Classified log index record.state file.path output
  restored : record.state = .rolledBack →
    Classified log index .rolledBack file.path file.source

/-- The records belong to the selected files, and fit the events except perhaps one. -/
structure Tracks (log : List Event) (exempt : Option Nat) (files : List (FileReceipt Digest)) :
    Prop where
  length : files.length = job.selected.length
  record : ∀ (index : Nat) (file : DiskPreviewFile job.services) (record : FileReceipt Digest),
    job.selected[index]? = some file → files[index]? = some record →
      record.path = file.path ∧ record.original = file.fingerprint
  sound : ∀ (index : Nat) (file : DiskPreviewFile job.services) (record : FileReceipt Digest),
    exempt ≠ some index → job.selected[index]? = some file → files[index]? = some record →
      Sound job log index file record

/-! ## §2 The invariant -/

/-- What a procedure may overwrite. -/
def Expected (path : Path) (before : Bytes) : Procedure → Prop
  | .apply => ∃ file ∈ job.selected, file.path = path ∧ before = file.source
  | .rollback => ∃ file ∈ job.selected, file.path = path ∧ file.output = .ok before
  | .reconcile => False

/-- The invariant of a job. -/
structure Trustworthy (t : Trail Digest) : Prop where
  disk : ∀ receipt, t.disk = some receipt →
    receipt.version = 1 ∧ Tracks job t.log none receipt.files ∧
      (job.services.serialized receipt).length ≤ MAX_RECEIPT
  overwrites : ∀ procedure path before after,
    .overwritten procedure path before after ∈ t.log → Expected job path before procedure

variable {job} {log log' : List Event} {index : Nat} {file : DiskPreviewFile job.services}
variable {record : FileReceipt Digest} {state : ReceiptState} {path : Path} {content : Bytes}
variable {exempt : Option Nat} {files : List (FileReceipt Digest)} {t : Trail Digest}

theorem Classified.mono (h : Classified log index state path content) (hlog : log <:+ log') :
    Classified log' index state path content := by
  obtain ⟨later, earlier, rfl, hseen⟩ := h
  obtain ⟨more, rfl⟩ := hlog
  exact ⟨more ++ later, earlier, (List.append_assoc ..).symm, hseen⟩

theorem Protected.mono (h : Protected job log file record) (hlog : log <:+ log') :
    Protected job log' file record := by
  obtain ⟨output, houtput, hhash, hbackup⟩ := h
  refine ⟨output, houtput, hhash, fun hrequired => ?_⟩
  obtain ⟨target, htarget, hcopied⟩ := hbackup hrequired
  exact ⟨target, htarget, hlog.mem hcopied⟩

theorem Sound.mono (h : Sound job log index file record) (hlog : log <:+ log') :
    Sound job log' index file record where
  used hused := (h.used hused).imp_right fun hprotected => hprotected.mono hlog
  hashed := h.hashed
  committed hstate := by
    obtain ⟨output, houtput, hclassified⟩ := h.committed hstate
    exact ⟨output, houtput, hclassified.mono hlog⟩
  restored hstate := (h.restored hstate).mono hlog

theorem Tracks.mono (h : Tracks job log exempt files) (hlog : log <:+ log') :
    Tracks job log' exempt files where
  length := h.length
  record := h.record
  sound index file record hexempt hfile hrecord :=
    (h.sound index file record hexempt hfile hrecord).mono hlog

/-- Nothing is lost by excepting a record. -/
theorem Tracks.except (h : Tracks job log none files) (index : Nat) :
    Tracks job log (some index) files where
  length := h.length
  record := h.record
  sound i file record _ hfile hrecord := h.sound i file record nofun hfile hrecord

/-- Every event keeps the invariant that does not overwrite a file. -/
theorem Trustworthy.note (h : Trustworthy job t) {event : Event}
    (hevent : ∀ procedure path before after, event = .overwritten procedure path before after →
      Expected job path before procedure) : Trustworthy job (t.note event) where
  disk receipt hdisk := by
    obtain ⟨hversion, htracks, hsize⟩ := h.disk receipt hdisk
    exact ⟨hversion, htracks.mono (List.suffix_cons ..), hsize⟩
  overwrites procedure path before after hmem := by
    rcases List.mem_cons.mp hmem with heq | hmem
    · exact hevent procedure path before after heq.symm
    · exact h.overwrites procedure path before after hmem

/-! ## §3 Assignments to one record -/

/-- An assignment to the excepted record, of what may change. -/
theorem Tracks.modify (h : Tracks job log (some index) files)
    {f : FileReceipt Digest → FileReceipt Digest}
    (hf : ∀ record, (f record).path = record.path ∧ (f record).original = record.original) :
    Tracks job log (some index) (files.modify index f) where
  length := (List.length_modify ..).trans h.length
  record i file record hfile hrecord := by
    rw [List.getElem?_modify] at hrecord
    obtain ⟨old, hold, rfl⟩ := Option.map_eq_some_iff.mp hrecord
    have hsame := h.record i file old hfile hold
    split
    · exact ⟨(hf old).1.trans hsame.1, (hf old).2.trans hsame.2⟩
    · exact hsame
  sound i file record hexempt hfile hrecord := by
    have hne : index ≠ i := fun heq => hexempt (congrArg some heq)
    rw [List.getElem?_modify_ne _ _ hne] at hrecord
    exact h.sound i file record hexempt hfile hrecord

/-- All records fit again once the excepted one does. -/
theorem Tracks.settle (h : Tracks job log (some index) files)
    (hsound : ∀ file record, job.selected[index]? = some file → files[index]? = some record →
      Sound job log index file record) : Tracks job log none files where
  length := h.length
  record := h.record
  sound i file record _ hfile hrecord := by
    by_cases hi : i = index
    · subst hi
      exact hsound file record hfile hrecord
    · exact h.sound i file record (fun heq => hi (Option.some.inj heq).symm) hfile hrecord

/-- What holds of a record in memory. -/
def Trail.At (t : Trail Digest) (index : Nat) (P : FileReceipt Digest → Prop) : Prop :=
  ∀ record, t.memory.files[index]? = some record → P record

theorem at_modify {f : FileReceipt Digest → FileReceipt Digest} {P : FileReceipt Digest → Prop}
    (h : t.At index fun record => P (f record)) : (t.modify index f).At index P := by
  intro record hrecord
  have hrecord : (t.memory.files.modify index f)[index]? = some record := hrecord
  rw [List.getElem?_modify_eq] at hrecord
  obtain ⟨old, hold, rfl⟩ := Option.map_eq_some_iff.mp hrecord
  exact h old hold

theorem Trail.At.imp {P Q : FileReceipt Digest → Prop} (h : t.At index P)
    (hPQ : ∀ record, P record → Q record) : t.At index Q :=
  fun record hrecord => hPQ record (h record hrecord)

variable (job) in
/-- The receipt in memory fits the events, except perhaps in one record. -/
structure Trail.Fits (t : Trail Digest) (exempt : Option Nat) : Prop where
  version : t.memory.version = 1
  tracks : Tracks job t.log exempt t.memory.files

theorem Trail.Fits.except (h : t.Fits job none) (index : Nat) : t.Fits job (some index) :=
  ⟨h.version, h.tracks.except index⟩

theorem Trail.Fits.note (h : t.Fits job exempt) (event : Event) : (t.note event).Fits job exempt :=
  ⟨h.version, h.tracks.mono (List.suffix_cons ..)⟩

theorem Trail.Fits.modify (h : t.Fits job (some index))
    {f : FileReceipt Digest → FileReceipt Digest}
    (hf : ∀ record, (f record).path = record.path ∧ (f record).original = record.original) :
    (t.modify index f).Fits job (some index) :=
  ⟨h.version, h.tracks.modify hf⟩

theorem Trail.Fits.settle (h : t.Fits job (some index))
    (hfile : job.selected[index]? = some file) (hsound : t.At index (Sound job t.log index file)) :
    t.Fits job none := by
  refine ⟨h.version, h.tracks.settle fun file' record hfile' hrecord => ?_⟩
  rw [hfile] at hfile'
  cases hfile'
  exact hsound record hrecord

/-- A state that nothing uses any more fits any record. -/
theorem Sound.final (hused : state.unresolved = false ∧ state.restorable = false)
    (hrestored : state ≠ .rolledBack) : Sound job log index file { record with state } where
  used h := by
    rcases h with h | h
    · exact absurd h (by simp [hused.1])
    · exact absurd h (by simp [hused.2])
  hashed h := by
    rcases h with h | rfl
    · exact absurd h (by simp [hused.2])
    · cases hused.1
  committed h := absurd (ReceiptState.restorable_of_isCommitted h) (by simp [hused.2])
  restored h := absurd h hrestored

/-- A record that is left to reconciliation. -/
theorem Sound.unknown (hstate : state.unresolved = true) (hstaged : state ≠ .rollbackStaged)
    (h : record.afterHash = none ∨ Protected job log file record) :
    Sound job log index file { record with state } where
  used _ := h
  hashed hused := by
    rcases hused with hused | hused
    · exact absurd hused (by simp [ReceiptState.not_restorable hstate])
    · exact absurd hused hstaged
  committed h := absurd (ReceiptState.restorable_of_isCommitted h)
    (by simp [ReceiptState.not_restorable hstate])
  restored h := by
    have h : state = .rolledBack := h
    subst h
    cases hstate

/-- A record whose target may hold the output, with what is needed to restore it. -/
theorem Sound.restoring (hstate : state.isCommitted = false) (hrestored : state ≠ .rolledBack)
    (h : Protected job log file record) : Sound job log index file { record with state } where
  used _ := Or.inr h
  hashed _ := by
    obtain ⟨output, -, hhash, -⟩ := h
    exact fun hnone => nomatch hhash.symm.trans hnone
  committed h := absurd h (by simp [hstate])
  restored h := absurd h hrestored

section Injective

variable (hinjective : Function.Injective job.services.sha256)
include hinjective

/-- The bytes whose hash a protected record names are the output. -/
theorem Protected.output (h : Protected job log file record)
    (hhash : record.afterHash = some (job.services.sha256 content)) : file.output = .ok content := by
  obtain ⟨output, houtput, hsame, -⟩ := h
  have heq := Option.some.inj (hsame.symm.trans hhash)
  rw [houtput, hinjective heq]

/-- The bytes with the previewed hash are those of the preview. -/
theorem source_eq (h : file.fingerprint.sha256 = job.services.sha256 content) :
    content = file.source :=
  hinjective (h.symm.trans file.fingerprint_source)

/-- A record whose target was last seen with the output. -/
theorem Sound.commit (hstate : state.isCommitted = true) (h : Protected job log file record)
    (hhash : record.afterHash = some (job.services.sha256 content))
    (hseen : lastSeen file.path log = some content) :
    Sound job (.classified index state :: log) index file { record with state } where
  used _ := Or.inr (h.mono (List.suffix_cons ..))
  hashed _ := fun hnone => nomatch hhash.symm.trans hnone
  committed _ := ⟨content, h.output hinjective hhash, [], log, rfl, hseen⟩
  restored h := by
    have h : state = .rolledBack := h
    subst h
    cases hstate

end Injective

/-- A record whose target was last seen with the original. -/
theorem Sound.rolledBack (hseen : lastSeen file.path log = some file.source) :
    Sound job (.classified index .rolledBack :: log) index file { record with state := .rolledBack }
    where
  used h := h.elim (fun h => nomatch h) fun h => nomatch h
  hashed h := h.elim (fun h => nomatch h) fun h => nomatch h
  committed h := nomatch h
  restored _ := ⟨[], log, rfl, hseen⟩

end BareLine.Replace
