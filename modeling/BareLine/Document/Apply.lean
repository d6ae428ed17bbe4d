import BareLine.Document.Operations

/-!
# What applying a transaction does

`applyRelieved_cases` says once what `apply_relieved` can do: refuse, do nothing for a
transaction without edits, or commit an edit staged on the document that relief left.  The
text and the receipt of an accepted transaction follow from it, as does everything later
modules prove about applied edits.
-/

namespace BareLine

open Lib BareLine.Tree

/-- A relief that only drops history. -/
def OnlyEvicts (relieve : Relief) : Prop :=
  ∀ env d demand, Evicts d (relieve env d demand)

theorem ownRelief_onlyEvicts : OnlyEvicts Document.ownRelief := Document.relieveHistory_evicts

/-- Staging depends on the current snapshot only. -/
theorem Staged.of_evicts {env : Env} {d d' : Document} {tr : EditTransaction}
    {p : PreparedEdit} (h : Staged env d tr p) (he : Evicts d d') :
    Staged env d' tr p := by
  obtain ⟨hbase, hcheck, hord, hrev, hentry, hids, hwf, htext, hrew, hchange, hsingle⟩ := h
  have hc := he.current
  refine ⟨hc ▸ hbase, hc ▸ hcheck, hc ▸ hord, he.nextRevision ▸ hrev, ?_, hc ▸ hids, hwf, hc ▸ htext,
    hc ▸ hrew, hc ▸ hchange, hsingle⟩
  rw [hentry, Document.stagedEntry, Document.stagedEntry, hc]

/-! ## §1 Admission -/

/-- `p'` is `p` after admission: only its claims and their flag may have changed. -/
def Admitted (p p' : PreparedEdit) : Prop :=
  ∃ claims charge tracked, p' = { p with
    entry := { p.entry with undoReservation := claims, structureCharge := charge }
    tracked := tracked }

namespace Document

variable {env : Env} {d d' : Document} {p p' : PreparedEdit} {selections : Nat}

theorem charge_admitted (h : d.charge env p selections = some p') : Admitted p p' := by
  rw [charge] at h
  dsimp only at h
  split_ifs at h <;> exact ⟨_, _, _, (Option.some.inj h).symm⟩

/-- A successful attempt leaves room for the entry. -/
theorem tryAdmit_some (h : d.tryAdmit env p selections = (d', some p')) :
    Admitted p p' ∧ d'.undo.entries.length < d'.undo.capacity := by
  rw [tryAdmit] at h
  cases hres : d.undo.tryReserve env.layout.history (env.historyAvailable d) 1 with
  | error e => simp [hres] at h
  | ok undo =>
    simp only [hres] at h
    obtain ⟨rfl, hcharge⟩ := Prod.mk.inj h
    exact ⟨charge_admitted hcharge, (HistoryStack.tryReserve_ok hres).2⟩

/-- What admission leaves: a document that lost only history and, when the entry is
tracked, a slot for it. -/
structure AdmitSpec (d : Document) (p : PreparedEdit) (d' : Document) (p' : PreparedEdit) :
    Prop where
  evicts : Evicts d d'
  admitted : Admitted p p'
  slot : p'.tracked = true → d'.undo.entries.length < d'.undo.capacity

theorem AdmitSpec.of_evicts {d₀ : Document} (h₀ : Evicts d₀ d) (h : AdmitSpec d p d' p') :
    AdmitSpec d₀ p d' p' := ⟨h₀.trans h.evicts, h.admitted, h.slot⟩

theorem tryAdmit_evicts {q : Option PreparedEdit} (h : d.tryAdmit env p selections = (d', q)) :
    Evicts d d' := by
  have hev := tryAdmit_fst env d p selections
  rw [h] at hev
  exact hev

theorem admitEvicting_spec (env : Env) (d : Document) {p : PreparedEdit}
    (hp : p.tracked = false) (selections : Nat) :
    AdmitSpec d p (admitEvicting env d p selections).1 (admitEvicting env d p selections).2 := by
  fun_induction admitEvicting env d p selections with
  | case1 d d' charged hsome =>
    obtain ⟨hadm, hslot⟩ := tryAdmit_some hsome
    exact ⟨tryAdmit_evicts hsome, hadm, fun _ => hslot⟩
  | case2 d d' hnone hend =>
    exact ⟨tryAdmit_evicts hnone, ⟨_, _, _, rfl⟩, fun h => by rw [hp] at h; cases h⟩
  | case3 d d' hnone _ d'' hsome ih =>
    exact ih.of_evicts ((tryAdmit_evicts hnone).trans (evictOldestEntry_evicts hsome))

theorem admitPasses_spec {relieve : Relief} (hr : OnlyEvicts relieve) (worlds : Nat → Env)
    (demand : Demand) (selections more pass : Nat) (d : Document) {p : PreparedEdit}
    (hp : p.tracked = false) :
    AdmitSpec d p (admitPasses relieve worlds demand selections more pass d p).1
      (admitPasses relieve worlds demand selections more pass d p).2 := by
  induction more generalizing pass d with
  | zero => exact admitEvicting_spec _ _ hp _
  | succ more ih =>
    rw [admitPasses]
    rcases htry : d.tryAdmit (worlds pass) p selections with ⟨d', q⟩
    cases q with
    | some charged =>
      obtain ⟨hadm, hslot⟩ := tryAdmit_some htry
      exact ⟨tryAdmit_evicts htry, hadm, fun _ => hslot⟩
    | none => exact (ih (pass + 1) _).of_evicts ((tryAdmit_evicts htry).trans (hr _ _ _))

theorem admitEntry_spec {relieve : Relief} (hr : OnlyEvicts relieve) (worlds : Nat → Env)
    (d : Document) {p : PreparedEdit} (hp : p.tracked = false) (selections : Nat) :
    AdmitSpec d p (d.admitEntry relieve worlds p selections).1
      (d.admitEntry relieve worlds p selections).2 :=
  (admitPasses_spec hr worlds _ _ _ _ _ hp).of_evicts (hr _ _ _)

/-! ## §2 What `apply_relieved` can do -/

/-- The edit that is about to be committed to `d`. -/
structure Ready (env : Env) (d : Document) (tr : EditTransaction) (m : Option EditMetadata)
    (p : PreparedEdit) : Prop where
  nonempty : tr.edits ≠ []
  staged : ∃ p₀ p₁, Staged env d tr p₀ ∧ Admitted p₀ p₁ ∧ p.change = p₁.change ∧
    p.revision = p₁.revision ∧ p.tracked = p₁.tracked ∧
    p.entry = { p₁.entry with
      metadata := m.getD EditMetadata.default
      typingInsert := m.elim false (typingInsert tr) }
  slot : p.tracked = true → d.undo.entries.length < d.undo.capacity

theorem stage_nonempty {tr : EditTransaction} {heap : Heap}
    (h : d.stage env tr = .ok (p, heap)) : tr.edits ≠ [] := by
  simp only [stage, bind_ok] at h
  obtain ⟨sorted, hcheck, -⟩ := h
  exact (checkTransaction_ok hcheck).2.1

theorem relieveText_ok {relieve : Relief} (hr : OnlyEvicts relieve) {tr : EditTransaction}
    {m : Option EditMetadata} (h : d.relieveText relieve env tr m = .ok d') : Evicts d d' := by
  rw [relieveText] at h
  split_ifs at h
  · cases hc : d.reliefChecks tr m with
    | error e => simp [hc] at h
    | ok u =>
      simp only [hc] at h
      exact Except.ok.inj h ▸ hr _ _ _
  · exact Except.ok.inj h ▸ Evicts.refl d

/-- Once staged, an edit is always committed. -/
theorem finish_spec {relieve : Relief} (hr : OnlyEvicts relieve) (worlds : Nat → Env)
    {tr : EditTransaction} (next : Nat) (m : Option EditMetadata)
    (hne : tr.edits ≠ []) (hst : Staged (worlds 0) d tr p) :
    ∃ d₁ p₁, Evicts d d₁ ∧ Ready (worlds 0) d₁ tr m p₁ ∧
      d.finish relieve worlds next p (m.map fun m => (m, typingInsert tr m)) =
        (.ok p₁.revision, commitPreparedUnchecked (worlds 0) next d₁ p₁) := by
  obtain ⟨hdoc, hrev, htracked⟩ := hst.ids
  have hadm := admitEntry_spec hr worlds d htracked ((m.map fun m => (m, typingInsert tr m)).elim 0
    fun m => saturatingAdd m.1.before.length m.1.after.length)
  rw [finish]
  dsimp only
  generalize d.admitEntry relieve worlds p _ = r at hadm ⊢
  obtain ⟨d₁, p₁⟩ := r
  obtain ⟨hev, hadmitted, hslot⟩ := hadm
  dsimp only at hev hadmitted hslot ⊢
  have hc := hev.current
  have hvalid : ∀ q : PreparedEdit, q.documentId = p₁.documentId →
      q.baseRevision = p₁.baseRevision → d₁.validatePrepared q = .ok () := by
    intro q hq1 hq2
    obtain ⟨_, _, _, rfl⟩ := hadmitted
    rw [validatePrepared, hq1, hq2, if_neg (by simp [hc, hdoc]), if_neg (by simp [hc, hrev])]
  have hst₁ := hst.of_evicts hev
  cases m with
  | none =>
    refine ⟨d₁, p₁, hev, ⟨hne, ⟨p, p₁, hst₁, hadmitted, rfl, rfl, rfl, ?_⟩, hslot⟩, ?_⟩
    · obtain ⟨_, _, _, rfl⟩ := hadmitted
      have hmeta : p.entry.metadata = EditMetadata.default := by rw [hst.entry]; rfl
      have htyping : p.entry.typingInsert = false := by rw [hst.entry]; rfl
      simp only [Option.getD_none, Option.elim_none, ← hmeta, ← htyping]
    · simp only [Option.map_none, hvalid p₁ rfl rfl]
  | some m =>
    let q := { p₁ with
      entry := { p₁.entry with metadata := m, typingInsert := typingInsert tr m } }
    have hv := hvalid q rfl rfl
    refine ⟨d₁, q, hev, ⟨hne, ⟨p, p₁, hst₁, hadmitted, rfl, rfl, rfl, rfl⟩, hslot⟩, ?_⟩
    simp only [Option.map_some]
    rw [hv]

/-- Everything `apply_relieved` can do. -/
theorem applyRelieved_cases {relieve : Relief} (hr : OnlyEvicts relieve) (worlds : Nat → Env)
    (hroot : RootWf .resident d.current.root) (tr : EditTransaction) (m : Option EditMetadata) :
    (∃ e d', d.applyRelieved relieve worlds tr m = (.error e, d') ∧ Evicts d d') ∨
    (m = none ∧ tr.edits = [] ∧
      d.applyRelieved relieve worlds tr m = (.ok d.current.revision, d)) ∨
    (∃ d₁ p next, Evicts d d₁ ∧ Ready (worlds 0) d₁ tr m p ∧
      d.applyRelieved relieve worlds tr m =
        (.ok p.revision, commitPreparedUnchecked (worlds 0) next d₁ p)) := by
  have hstaged : (∃ e d', d.applyStaged relieve worlds tr m = (.error e, d') ∧ Evicts d d') ∨
      (∃ d₁ p next, Evicts d d₁ ∧ Ready (worlds 0) d₁ tr m p ∧
        d.applyStaged relieve worlds tr m =
          (.ok p.revision, commitPreparedUnchecked (worlds 0) next d₁ p)) := by
    rw [applyStaged]
    cases hrelief : d.relieveText relieve (worlds 0) tr m with
    | error e => exact Or.inl ⟨e, d, rfl, Evicts.refl d⟩
    | ok d₁ =>
      have hev := relieveText_ok hr hrelief
      dsimp only
      cases hstage : d₁.stage (worlds 0) tr with
      | error e => exact Or.inl ⟨e, d₁, rfl, hev⟩
      | ok r =>
        obtain ⟨p, heap⟩ := r
        have hst := stage_spec (hev.current ▸ hroot) hstage
        have hfin := fun m => finish_spec hr worlds heap.next m (stage_nonempty hstage) hst
        cases m with
        | none =>
          obtain ⟨d₂, p₂, hev₂, hready, heq⟩ := hfin none
          exact Or.inr ⟨d₂, p₂, heap.next, hev.trans hev₂, hready, heq⟩
        | some m =>
          dsimp only
          cases hchecks : d₁.metadataChecks p m with
          | error e => exact Or.inl ⟨e, d₁, rfl, hev⟩
          | ok u =>
            obtain ⟨d₂, p₂, hev₂, hready, heq⟩ := hfin (some m)
            exact Or.inr ⟨d₂, p₂, heap.next, hev.trans hev₂, hready, heq⟩
  cases m with
  | none =>
    rw [applyRelieved]
    split_ifs with hrev hempty
    · exact Or.inl ⟨_, d, rfl, Evicts.refl d⟩
    · exact Or.inr (Or.inl ⟨rfl, by simpa using hempty, rfl⟩)
    · exact hstaged.imp_right Or.inr
  | some m => exact hstaged.imp_right Or.inr

/-! ## §3 The committed snapshot -/

theorem trimHistory_current (d : Document) : d.trimHistory.current = d.current := rfl

/-- Whatever happens to the stacks, the new snapshot is the prepared one. -/
theorem commit_current (env : Env) (next : Nat) (d : Document) (p : PreparedEdit) :
    (commitPreparedUnchecked env next d p).current = d.published p := by
  rw [commitPreparedUnchecked]
  dsimp only
  split_ifs
  · rfl
  · split
    · split_ifs <;> rfl
    · rfl

namespace Ready

variable {tr : EditTransaction} {m : Option EditMetadata}

/-- The edit that is committed is the one that was staged. -/
theorem facts (h : Ready env d tr m p) :
    Ordered 0 ((sortEdits tr.edits).map Edit.toSplice) d.current.text.length ∧
      text p.entry.after = splice ((sortEdits tr.edits).map Edit.toSplice) d.current.text ∧
      Rewrites .resident p.entry.edits d.current.text (text p.entry.after) ∧
      p.change = ⟨d.current.documentId, d.current.revision, p.revision,
        d.current.contentState, env.contentState, .edit,
        p.entry.edits.map (OwnedEdit.compact .edit)⟩ := by
  obtain ⟨-, ⟨p₀, p₁, hst, ⟨_, _, _, rfl⟩, hchange, hrev, -, hentry⟩, -⟩ := h
  have hafter : p.entry.after = p₀.entry.after := by rw [hentry]
  have hedits : p.entry.edits = p₀.entry.edits := by rw [hentry]
  rw [hafter, hedits, hchange, hrev]
  exact ⟨hst.ordered, hst.after_text, hst.rewrites, hst.change⟩

theorem checked (h : Ready env d tr m p) :
    checkEdits d.current none (sortEdits tr.edits) = .ok () := by
  obtain ⟨-, ⟨_, _, hst, -⟩, -⟩ := h
  exact hst.checked

/-- The published receipt gives the published text. -/
theorem gives (h : Ready env d tr m p) : p.change.Gives d.current.text (text p.entry.after) := by
  obtain ⟨-, -, hrew, hchange⟩ := h.facts
  have hgives := hrew.gives .edit p.change (by rw [hchange])
  simpa using hgives

end Ready

end Document

end BareLine
