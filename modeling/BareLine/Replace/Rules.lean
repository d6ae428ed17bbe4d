import BareLine.Replace.Disk

/-!
# Rules for the procedures

What each operation does to the job's own data.  The files do not matter here: other programs
may change them before any operation, so an operation is judged by its answer and by what it
leaves behind.
-/

namespace BareLine.Replace

open Lib

/-! ## §1 Operations as the job sees them -/

section Trace

variable {Digest : Type} {sha256 : Bytes → Digest}

variable (sha256) in
/-- The machine with its files out of sight. -/
def trace : Machine (Op Digest) Op.Answer (Trail Digest) :=
  fun t op answer t' => ∃ files files', machine sha256 ⟨files, t⟩ op answer ⟨files', t'⟩

theorem trace_of_machine {w w' : World Digest} {op : Op Digest} {answer : op.Answer}
    (h : machine sha256 w op answer w') : trace sha256 w.trail op answer w'.trail :=
  ⟨w.files, w'.files, h⟩

/-- The operations that leave the job's data alone. -/
def Op.quiet : Op Digest → Bool
  | isCancelled | isOpen .. | approve .. | identity _ | isReadOnly _ | attempt | lockOpenFiles
  | newJobDirectory _ | syncAll _ => true
  | _ => false

variable {t t' : Trail Digest}

theorem respond_quiet {w w' : World Digest} {op : Op Digest} {answer : op.Answer}
    (hop : op.quiet = true) (h : respond sha256 w op answer w') : w' = w := by
  cases op <;> first | exact h | cases hop

theorem trace_quiet {op : Op Digest} {answer : op.Answer} (hop : op.quiet = true)
    (h : trace sha256 t op answer t') : t' = t := by
  obtain ⟨files, files', now, h⟩ := h
  exact congrArg World.trail (respond_quiet hop h)

/-- A file that was read has left what it held. -/
theorem trace_read {path : Path} {r : Except IoError Bytes}
    (h : trace sha256 t (.read path) r t') :
    match r with
    | .ok content => t' = t.note (.observed path content)
    | .error _ => t' = t := by
  obtain ⟨files, files', now, h⟩ := h
  cases r with
  | ok content => exact congrArg World.trail h.2
  | error e => exact congrArg World.trail h

theorem trace_copyNew {source target : Path} {r : Except IoError Bytes}
    (h : trace sha256 t (.copyNew source target) r t') :
    match r with
    | .ok content => t' = t.note (.copied source target content)
    | .error _ => t' = t := by
  obtain ⟨files, files', now, h⟩ := h
  cases r with
  | ok content =>
    obtain ⟨-, entry, identity, -, -, h⟩ := h
    exact congrArg World.trail h
  | error e => exact congrArg World.trail h

/-- A save overwrites what has the expected fingerprint, or nothing if it fails. -/
theorem trace_save {target : Path} {expected : Fingerprint Digest} {bytes : Bytes}
    {r : Except IoError Unit} (h : trace sha256 t (.save target expected bytes) r t') :
    (∃ before, sha256 before = expected.sha256 ∧
        t' = t.note (.overwritten t.procedure target before bytes)) ∨
      (∃ e, r = .error e) ∧ t' = t := by
  obtain ⟨files, files', now, h⟩ := h
  have hsaved {w' : World Digest} (h : Saved sha256 ⟨now, t⟩ target expected bytes w') :
      ∃ before, sha256 before = expected.sha256 ∧
        w'.trail = t.note (.overwritten t.procedure target before bytes) := by
    obtain ⟨entry, identity, -, rfl, rfl⟩ := h
    exact ⟨entry.content, rfl, rfl⟩
  cases r with
  | ok u => exact Or.inl (hsaved h)
  | error e =>
    rcases h with h | h
    · exact Or.inr ⟨⟨e, rfl⟩, congrArg World.trail h⟩
    · exact Or.inl (hsaved h)

theorem trace_readReceipt {r : Except IoError (ReplaceReceipt Digest)}
    (h : trace sha256 t .readReceipt r t') :
    t' = t ∧ ∀ receipt, r = .ok receipt → t.disk = some receipt := by
  obtain ⟨files, files', now, h⟩ := h
  cases r with
  | ok receipt =>
    refine ⟨congrArg World.trail h.2, fun receipt' heq => ?_⟩
    cases heq
    exact h.1
  | error e => exact ⟨congrArg World.trail h, fun _ heq => nomatch heq⟩

theorem trace_publishJson {r : Except IoError Unit} (h : trace sha256 t .publishJson r t') :
    t' = t.publish ∨ (∃ e, r = .error e) ∧ t' = t := by
  obtain ⟨files, files', now, h⟩ := h
  cases r with
  | ok u => exact Or.inl (congrArg World.trail h)
  | error e =>
    rcases h with h | h
    · exact Or.inr ⟨⟨e, rfl⟩, congrArg World.trail h⟩
    · exact Or.inl (congrArg World.trail h)

end Trace

/-! ## §2 One operation -/

section Rules

variable {Digest : Type} {sha256 : Bytes → Digest} {inv : Trail Digest → Prop}
variable {t : Trail Digest}

/-- An operation that leaves the job's data alone. -/
theorem meets_quiet {op : Op Digest} {post : op.Answer → Trail Digest → Prop}
    (hop : op.quiet = true) (hinv : inv t) (hpost : ∀ answer, post answer t) :
    Meets (trace sha256) inv (Program.ask op) post t := by
  refine .ask hinv fun answer t' hstep => ?_
  cases trace_quiet hop hstep
  exact ⟨hinv, hpost answer⟩

theorem meets_use_quiet {op : Op Digest} {post : Except IoError op.Answer → Trail Digest → Prop}
    (hop : op.quiet = true) (hinv : inv t) (hpost : ∀ answer, post (.ok answer) t) :
    Meets (trace sha256) inv (use op).run post t :=
  .lift (meets_quiet hop hinv hpost)

theorem meets_refuseIf {World : Type} {machine : Machine (Op Digest) Op.Answer World}
    {inv : World → Prop} {w : World} {c : Prop} [Decidable c] {text : String}
    {post : Except IoError Unit → World → Prop} (hinv : inv w)
    (hrefused : c → post (.error (.other text)) w) (hpost : ¬c → post (.ok ()) w) :
    Meets machine inv (refuseIf c text : Task Digest Unit).run post w := by
  rw [refuseIf]
  split
  · next h => exact .pure hinv (hrefused h)
  · next h => exact .pure hinv (hpost h)

theorem meets_resultOf {α : Type} {task : Task Digest α}
    {post : Except IoError (Except IoError α) → Trail Digest → Prop}
    (h : Meets (trace sha256) inv task.run (fun r t' => post (.ok r) t') t) :
    Meets (trace sha256) inv (resultOf task).run post t :=
  .lift h

theorem meets_liftExcept {α : Type} {r : Except IoError α}
    {post : Except IoError α → Trail Digest → Prop} (hinv : inv t) (hpost : post r t) :
    Meets (trace sha256) inv (liftExcept r : Task Digest α).run post t := by
  cases r with
  | ok a => exact .pure hinv hpost
  | error e => exact .pure hinv hpost

/-- A step that leaves the job's data alone, and what follows it. -/
theorem meets_then {α β : Type} {x : Task Digest α} {f : α → Task Digest β}
    {post : Except IoError β → Trail Digest → Prop}
    (hx : ∀ posts : Except IoError α → Trail Digest → Prop, (∀ r, posts r t) →
      Meets (trace sha256) inv x.run posts t)
    (herror : ∀ e, post (.error e) t) (hok : ∀ a, Meets (trace sha256) inv (f a).run post t) :
    Meets (trace sha256) inv (x >>= f).run post t := by
  refine .andThen (hx _ fun r => ?_)
  cases r with
  | ok a => exact hok a
  | error e => exact herror e

theorem meets_refused {β : Type} {c : Prop} [Decidable c] {text : String} {f : Unit → Task Digest β}
    {post : Except IoError β → Trail Digest → Prop} (hinv : inv t)
    (herror : ∀ e, post (.error e) t)
    (hok : ¬c → Meets (trace sha256) inv (f ()).run post t) :
    Meets (trace sha256) inv (refuseIf c text >>= f).run post t :=
  .andThen (meets_refuseIf hinv (fun _ => herror _) hok)

/-! ## §3 Reading files -/

/-- At most one file was read. -/
def Looked (path : Path) (t t' : Trail Digest) : Prop :=
  t' = t ∨ ∃ content, t' = t.note (.observed path content)

variable {Edit Encoding : Type} {services : Services Digest Edit Encoding}
variable {path : Path}

/-- A fingerprint is that of the bytes that were read. -/
theorem meets_currentFingerprint {cancellable : Bool}
    {post : Except IoError (Fingerprint Digest) → Trail Digest → Prop}
    (hinv : ∀ t', Looked path t t' → inv t')
    (hok : ∀ identity content, post (.ok ⟨identity, services.sha256 content⟩)
      (t.note (.observed path content)))
    (herror : ∀ e t', Looked path t t' → post (.error e) t') :
    Meets (trace services.sha256) inv (currentFingerprint services path cancellable).run post t := by
  have hhere := hinv t (Or.inl rfl)
  have hfails (e : IoError) := herror e t (Or.inl rfl)
  rw [currentFingerprint]
  refine meets_then (fun _ h => meets_quiet rfl hhere h) hfails fun _ => ?_
  refine meets_then (fun _ h => meets_quiet rfl hhere h) hfails fun identity => ?_
  refine meets_then (fun _ h => meets_use_quiet rfl hhere fun a => h (.ok a)) hfails fun _ => ?_
  refine meets_refused hhere hfails fun _ => ?_
  refine .andThen (.ask hhere fun r t' hstep => ?_)
  cases r with
  | error e =>
    cases trace_read hstep
    exact ⟨hhere, hfails e⟩
  | ok content =>
    cases trace_read hstep
    have hread : Looked path t (t.note (.observed path content)) := Or.inr ⟨content, rfl⟩
    have hfails (e : IoError) := herror e _ hread
    refine ⟨hinv _ hread, ?_⟩
    refine meets_then (fun _ h => meets_quiet rfl (hinv _ hread) h) hfails fun _ => ?_
    refine meets_refused (hinv _ hread) hfails fun _ => ?_
    refine meets_then (fun _ h => meets_quiet rfl (hinv _ hread) h) hfails fun _ => ?_
    refine meets_refused (hinv _ hread) hfails fun _ => ?_
    exact .pure (hinv _ hread) (hok identity content)

/-- What opening a file comes to. -/
structure Opens (inv : Trail Digest → Prop) (services : Services Digest Edit Encoding)
    (path : Path) (t : Trail Digest)
    (post : Except IoError (Opened Digest) → Trail Digest → Prop) : Prop where
  inv : ∀ t', Looked path t t' → inv t'
  ok : ∀ identity content, post (.ok ⟨⟨identity, services.sha256 content⟩, content⟩)
    (t.note (.observed path content))
  error : ∀ e t', Looked path t t' → post (.error e) t'

variable {post : Except IoError (Opened Digest) → Trail Digest → Prop}

theorem meets_openEncoded {paged : Bool} (h : Opens inv services path t post) :
    Meets (trace services.sha256) inv (openEncoded services path paged).run post t := by
  have hhere := h.inv t (Or.inl rfl)
  have hfails (e : IoError) := h.error e t (Or.inl rfl)
  rw [openEncoded]
  refine meets_then (fun _ h => meets_quiet rfl hhere h) hfails fun before => ?_
  refine meets_refused hhere hfails fun _ => ?_
  refine .andThen (.ask hhere fun r t' hstep => ?_)
  cases r with
  | error e =>
    cases trace_read hstep
    exact ⟨hhere, hfails e⟩
  | ok content =>
    cases trace_read hstep
    have hread : Looked path t (t.note (.observed path content)) := Or.inr ⟨content, rfl⟩
    have hfails (e : IoError) := h.error e _ hread
    refine ⟨h.inv _ hread, ?_⟩
    refine meets_refused (h.inv _ hread) hfails fun _ => ?_
    refine meets_then (fun _ h' => meets_quiet rfl (h.inv _ hread) h') hfails fun _ => ?_
    refine meets_refused (h.inv _ hread) hfails fun _ => ?_
    refine meets_then (fun _ h' => meets_quiet rfl (h.inv _ hread) h') hfails fun _ => ?_
    exact .pure (h.inv _ hread) (h.ok before content)

/-- A file is opened whose identity is the expected one before and after it. -/
theorem meets_unchanged (h : Opens inv services path t post) (paged : Bool) (expected : FileIdentity)
    (why : String) :
    Meets (trace services.sha256) inv (do
      let opened ← openEncoded services path paged
      refuseIf (opened.fingerprint.identity ≠ expected) why
      refuseIf ((← identityOf path) ≠ expected) why
      return opened : Task Digest (Opened Digest)).run post t := by
  refine .andThen (meets_openEncoded ⟨h.inv, fun identity content => ?_, h.error⟩)
  have hread : Looked path t (t.note (.observed path content)) := Or.inr ⟨content, rfl⟩
  have hfails (e : IoError) := h.error e _ hread
  refine meets_refused (h.inv _ hread) hfails fun _ => ?_
  refine meets_then (fun _ h' => meets_quiet rfl (h.inv _ hread) h') hfails fun _ => ?_
  refine meets_refused (h.inv _ hread) hfails fun _ => ?_
  exact .pure (h.inv _ hread) (h.ok identity content)

theorem meets_openTrusted (h : Opens inv services path t post) :
    Meets (trace services.sha256) inv (openTrusted services path).run post t := by
  have hhere := h.inv t (Or.inl rfl)
  rw [openTrusted]
  exact meets_then (fun _ h => meets_quiet rfl hhere h) (fun e => h.error e t (Or.inl rfl))
    fun expected => meets_unchanged h false expected _

theorem meets_openPaged (h : Opens inv services path t post) :
    Meets (trace services.sha256) inv (openPaged services path).run post t := by
  have hhere := h.inv t (Or.inl rfl)
  have hfails (e : IoError) := h.error e t (Or.inl rfl)
  rw [openPaged]
  refine meets_then (fun _ h => meets_quiet rfl hhere h) hfails fun _ => ?_
  exact meets_then (fun _ h => meets_quiet rfl hhere h) hfails fun expected =>
    meets_unchanged h true expected _

/-- A backup that was made holds bytes with the expected hash. -/
theorem meets_backup [DecidableEq Digest] {target : Path} {expected : Fingerprint Digest}
    {post : Except IoError Unit → Trail Digest → Prop}
    (hinv : ∀ t', (t' = t ∨ ∃ content, t' = t.note (.copied path target content)) → inv t')
    (hok : ∀ content, services.sha256 content = expected.sha256 →
      post (.ok ()) (t.note (.copied path target content)))
    (herror : ∀ e t', (t' = t ∨ ∃ content, t' = t.note (.copied path target content)) →
      post (.error e) t') :
    Meets (trace services.sha256) inv (backup services path target expected).run post t := by
  have hhere := hinv t (Or.inl rfl)
  have hfails (e : IoError) := herror e t (Or.inl rfl)
  rw [backup]
  refine meets_then (fun _ h => meets_quiet rfl hhere h) hfails fun _ => ?_
  refine meets_then (fun _ h => meets_quiet rfl hhere h) hfails fun _ => ?_
  refine meets_refused hhere hfails fun _ => ?_
  refine meets_then (fun _ h => meets_use_quiet rfl hhere fun a => h (.ok a)) hfails fun _ => ?_
  refine meets_refused hhere hfails fun _ => ?_
  refine .andThen (.ask hhere fun r t' hstep => ?_)
  cases r with
  | error e =>
    cases trace_copyNew hstep
    exact ⟨hhere, hfails e⟩
  | ok content =>
    cases trace_copyNew hstep
    have hcopied := hinv (t.note (.copied path target content)) (Or.inr ⟨content, rfl⟩)
    have hfails (e : IoError) := herror e _ (Or.inr ⟨content, rfl⟩)
    refine ⟨hcopied, ?_⟩
    refine meets_refused hcopied hfails fun _ => ?_
    refine meets_refused hcopied hfails fun hhash => ?_
    refine meets_then (fun _ h => meets_quiet rfl hcopied h) hfails fun _ => ?_
    refine meets_refused hcopied hfails fun _ => ?_
    refine meets_quiet rfl hcopied fun r => ?_
    cases r with
    | ok u => exact hok content (by simpa using hhash)
    | error e => exact hfails e

end Rules

end BareLine.Replace
