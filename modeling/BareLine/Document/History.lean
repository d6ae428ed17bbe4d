import BareLine.Lib.Chain
import BareLine.Document.Apply

/-!
# The undo and redo chains

`Document.Wf` is the invariant of a resident document: the undo entries lead to the current
text, metadata and content state, the redo entries lead on from it, and every entry's edits
rewrite the text before it into the text after it and back.  Every operation keeps it
(`Step.wf`), so every reachable document has it (`Reachable.wf`).
-/

namespace BareLine

open Lib BareLine.Tree

/-! ## §1 Versions and entries -/

/-- What undo and redo restore. -/
structure Version where
  text : Bytes
  metadata : DocumentMetadata
  state : Nat
  deriving DecidableEq, Repr

namespace History

/-- The version before the entry's edit. -/
def origin (e : History) : Version := ⟨text e.before, e.beforeMetadata, e.beforeState⟩

/-- The version after it. -/
def result (e : History) : Version := ⟨text e.after, e.afterMetadata, e.afterState⟩

/-- One insertion at a caret, with that caret before it and the caret behind the text
after it. -/
def TypingRun (e : History) : Prop :=
  ∃ o, e.edits = [o] ∧ o.beforeRange.stop = o.beforeRange.start ∧
    e.metadata.before = [⟨o.beforeRange.start, o.beforeRange.start⟩] ∧
    e.metadata.after = [⟨o.afterRange.stop, o.afterRange.stop⟩]

structure Wf (e : History) : Prop where
  before : RootWf .resident e.before
  after : RootWf .resident e.after
  rewrites : Rewrites .resident e.edits (text e.before) (text e.after)
  typing : e.typingInsert = true → e.TypingRun

theorem Wf.endTyping {e : History} (h : e.Wf) : ({ e with typingInsert := false } : History).Wf :=
  ⟨h.before, h.after, h.rewrites, fun ht => nomatch ht⟩

end History

namespace Document

def version (d : Document) : Version :=
  ⟨d.current.text, d.current.metadata, d.current.contentState⟩

/-- The undo entries end in the current version and the redo entries start from it. -/
def Chained (d : Document) : Prop :=
  Threaded History.origin History.result d.undo.entries d.redo.entries d.version

/-- The invariant of a resident document. -/
structure Wf (d : Document) : Prop where
  root : RootWf .resident d.current.root
  undo : ∀ e ∈ d.undo.entries, e.Wf
  redo : ∀ e ∈ d.redo.entries, e.Wf
  chained : d.Chained

end Document

/-- Dropping history keeps the invariant. -/
theorem Evicts.wf {d d' : Document} (he : Evicts d d') (h : d.Wf) : d'.Wf := by
  obtain ⟨⟨n, hn⟩, ⟨m, hm⟩, hrest⟩ := he
  have hc : d'.current = d.current := by rw [hrest]
  refine ⟨hc ▸ h.root, fun e hmem => h.undo e ?_, fun e hmem => h.redo e ?_, ?_⟩
  · exact List.mem_of_mem_drop (hn ▸ hmem)
  · exact List.mem_of_mem_drop (hm ▸ hmem)
  · unfold Document.Chained Document.version
    rw [hn, hm, hc]
    exact h.chained.drop n m

theorem Evicts.version {d d' : Document} (he : Evicts d d') : d'.version = d.version := by
  rw [Document.version, he.current, Document.version]

/-! ## §2 Typing merges -/

/-- A single edit starts at the same offset before and after. -/
theorem Rewrites.single_start {st : Storage} {o : OwnedEdit} {t u : Bytes}
    (h : Rewrites st [o] t u) : o.afterRange.start = o.beforeRange.start := by
  have hinv := h.inverse
  simp only [List.map_cons, List.map_nil, inverseFrom, Nat.zero_add, Nat.sub_zero,
    List.cons.injEq, and_true] at hinv
  exact congrArg Change.offset hinv

/-- A caret insertion removes nothing. -/
theorem OwnedEdit.Wf.removes_nil {st : Storage} {o : OwnedEdit} (h : o.Wf st)
    (hcaret : o.beforeRange.stop = o.beforeRange.start) : text o.inverse = [] := by
  have := h.beforeStop
  exact List.eq_nil_of_length_eq_zero (by omega)

namespace History

variable {last entry : History}

/-- The insertion that extends the run grows its text, and nothing else of it. -/
theorem mergeEdits_rewrites (heap : Heap) (hl : last.Wf) (he : entry.Wf) (hlt : last.TypingRun)
    (het : entry.TypingRun) (hfollow : last.metadata.after = entry.metadata.before)
    (hmeet : text last.after = text entry.before) :
    ∃ o n, last.edits = [o] ∧ entry.edits = [n] ∧
      ∃ merged : OwnedEdit, Document.mergeEdits heap last.edits entry.edits = [merged] ∧
        Rewrites .resident [merged] (text last.before) (text entry.after) ∧
        merged.beforeRange = o.beforeRange ∧ merged.afterRange.stop = n.afterRange.stop := by
  obtain ⟨o, ho, hocaret, -, hoafter⟩ := hlt
  obtain ⟨n, hn, hncaret, hnbefore, -⟩ := het
  have hlr : Rewrites .resident [o] (text last.before) (text last.after) := ho ▸ hl.rewrites
  have her : Rewrites .resident [n] (text entry.before) (text entry.after) := hn ▸ he.rewrites
  have howf := hlr.wf o List.mem_cons_self
  have hnwf := her.wf n List.mem_cons_self
  obtain ⟨hcwf, hctext⟩ := concatCoalesced_spec howf.inserted hnwf.inserted TYPED_LEAF_BYTES heap
  have ho1 := hlr.single_start
  have hn1 := her.single_start
  have hstart : n.beforeRange.start = o.beforeRange.start + (text o.inserted).length := by
    have hcarets : o.afterRange.stop = n.beforeRange.start := by
      have := hoafter.symm.trans (hfollow.trans hnbefore)
      simpa using this
    rw [← hcarets, howf.afterStop, ho1]
  have hforward : Patch 0 [⟨o.beforeRange.start, [], text o.inserted⟩] (text last.before)
      (text last.after) := by
    have := hlr.forward
    simpa [OwnedEdit.forward, howf.removes_nil hocaret] using this
  have hforward' : Patch 0 [⟨o.beforeRange.start + (text o.inserted).length, [],
      text n.inserted⟩] (text last.after) (text entry.after) := by
    have := her.forward
    rw [hmeet, ← hstart]
    simpa [OwnedEdit.forward, hnwf.removes_nil hncaret] using this
  refine ⟨o, n, ho, hn, { o with
    inserted := (concatCoalesced o.inserted n.inserted TYPED_LEAF_BYTES heap).1
    afterRange := ⟨o.afterRange.start, n.afterRange.stop⟩ }, ?_, ⟨?_, ?_, ?_⟩, rfl, rfl⟩
  · rw [ho, hn]
    rfl
  · intro e hmem
    obtain rfl := List.mem_singleton.mp hmem
    refine ⟨howf.inverse, hcwf, howf.beforeStop, ?_⟩
    simp only [hctext, List.length_append]
    rw [hnwf.afterStop, hn1, hstart, ho1]
    omega
  · simp only [List.map_cons, List.map_nil, OwnedEdit.forward, hctext,
      howf.removes_nil hocaret]
    exact hforward.extend_insertion hforward'
  · simp only [List.map_cons, List.map_nil, OwnedEdit.forward, OwnedEdit.backward, inverseFrom,
      ho1, Nat.zero_add, Nat.sub_zero]

/-- A merged entry starts where the run started and ends where the new edit ends. -/
theorem mergeEntry_spec (heap : Heap) (hl : last.Wf) (he : entry.Wf) (hlt : last.typingInsert = true)
    (het : entry.typingInsert = true) (hfollow : last.metadata.after = entry.metadata.before)
    (hmeet : text last.after = text entry.before) :
    (Document.mergeEntry heap last entry).Wf ∧
      (Document.mergeEntry heap last entry).origin = last.origin ∧
      (Document.mergeEntry heap last entry).result =
        ⟨text entry.after, last.afterMetadata, entry.afterState⟩ := by
  obtain ⟨o, n, ho, hn, merged, hmerged, hrew, hbefore, hafter⟩ :=
    mergeEdits_rewrites heap hl he (hl.typing hlt) (he.typing het) hfollow hmeet
  refine ⟨⟨hl.before, he.after, ?_, fun _ => ⟨merged, hmerged, ?_, ?_, ?_⟩⟩, rfl, rfl⟩
  · simp only [Document.mergeEntry, hmerged]
    exact hrew
  · obtain ⟨o', ho', hcaret, -⟩ := hl.typing hlt
    obtain rfl := List.singleton_inj.mp (ho.symm.trans ho')
    rw [hbefore, hcaret]
  · obtain ⟨o', ho', -, hb, -⟩ := hl.typing hlt
    obtain rfl := List.singleton_inj.mp (ho.symm.trans ho')
    simpa only [Document.mergeEntry, hbefore] using hb
  · obtain ⟨n', hn', -, -, ha⟩ := he.typing het
    obtain rfl := List.singleton_inj.mp (hn.symm.trans hn')
    simpa only [Document.mergeEntry, hafter] using ha

end History

/-! ## §3 Each operation keeps the invariant -/

namespace Document

variable {env : Env} {d d' : Document} {tr : EditTransaction} {m : Option EditMetadata}
  {p : PreparedEdit}

/-- The typing shape of the transaction is that of its entry. -/
theorem typingRun_of_typingInsert {p₀ : PreparedEdit} (hst : Staged env d tr p₀)
    {m : EditMetadata} (h : typingInsert tr m = true) {e : History}
    (hedits : e.edits = p₀.entry.edits) (hmeta : e.metadata = m) : e.TypingRun := by
  unfold typingInsert at h
  split at h
  · next edit b a hes hb ha =>
    simp only [Bool.and_eq_true, beq_iff_eq] at h
    obtain ⟨⟨⟨⟨⟨hempty, -⟩, hb1⟩, hb2⟩, ha1⟩, ha2⟩ := h
    rw [Range.isEmpty_iff] at hempty
    obtain ⟨o, ho, hor, hoa, hmax⟩ := hst.single edit hes
    have hord := hst.ordered
    rw [hes, sortEdits_single] at hord
    have hle : edit.range.start ≤ edit.range.stop := hord.2.1
    refine ⟨o, hedits.trans ho, ?_, ?_, ?_⟩
    · rw [hor]
      omega
    · obtain ⟨anchor, caret⟩ := b
      simp only at hb1 hb2
      rw [hmeta, hb, hor, hb1, hb2]
    · obtain ⟨anchor, caret⟩ := a
      rw [saturatingAdd, Nat.min_eq_left hmax] at ha2
      simp only at ha1 ha2
      rw [hmeta, ha, hoa, ha1, ha2]
  · cases h

/-- The entry about to be committed is well formed and starts from the current version. -/
theorem Ready.entry_wf (h : Ready env d tr m p) (hroot : RootWf .resident d.current.root) :
    p.entry.Wf ∧ p.entry.origin = d.version ∧
      p.entry.afterMetadata = d.current.metadata := by
  obtain ⟨-, ⟨p₀, p₁, hst, ⟨_, _, _, rfl⟩, -, -, -, hentry⟩, -⟩ := h
  have hbefore : p.entry.before = d.current.root := by rw [hentry, hst.entry]; rfl
  have hafter : p.entry.after = p₀.entry.after := by rw [hentry]
  have hedits : p.entry.edits = p₀.entry.edits := by rw [hentry]
  have hafterMeta : p.entry.afterMetadata = d.current.metadata := by rw [hentry, hst.entry]; rfl
  refine ⟨⟨hbefore ▸ hroot, hafter ▸ hst.after_wf, ?_, fun ht => ?_⟩, ?_, hafterMeta⟩
  · rw [hafter, hedits, hbefore]
    exact hst.rewrites
  · cases m with
    | none => rw [hentry] at ht; cases ht
    | some m =>
      refine typingRun_of_typingInsert hst (m := m) ?_ hedits (by rw [hentry]; rfl)
      rw [hentry] at ht
      exact ht
  · have hmeta : p.entry.beforeMetadata = d.current.metadata := by rw [hentry, hst.entry]; rfl
    have hstate : p.entry.beforeState = d.current.contentState := by
      rw [hentry, hst.entry]; rfl
    rw [History.origin, hbefore, hmeta, hstate]
    rfl

/-- An entry that leads on from the current version is pushed. -/
theorem pushed_wf (hd : d.Wf) (hentry : p.entry.Wf) (horigin : p.entry.origin = d.version)
    (hmeta : p.entry.afterMetadata = d.current.metadata)
    (hslot : d.undo.entries.length < d.undo.capacity) (untracked : Bool) :
    ({ d with
      current := d.published p, redo := d.redo.clear, lastUntracked := untracked
      undo := d.undo.push p.entry, lastMerged := false } : Document).Wf := by
  refine ⟨hentry.after, fun e he => ?_, fun _ he => (nomatch he), ?_⟩
  · rw [HistoryStack.push_entries hslot] at he
    rcases List.mem_append.mp he with he | he
    · exact hd.undo e he
    · exact List.mem_singleton.mp he ▸ hentry
  · have hversion : p.entry.result = ⟨text p.entry.after, d.current.metadata,
        p.entry.afterState⟩ := by rw [History.result, hmeta]
    have hchain := hd.chained.push horigin
    rw [hversion] at hchain
    unfold Chained
    rw [HistoryStack.push_entries hslot]
    exact hchain

/-- Committing a staged edit: pushed, merged into the typing run or untracked. -/
theorem commit_wf (hd : d.Wf) (h : Ready env d tr m p) (next : Nat) :
    (commitPreparedUnchecked env next d p).Wf := by
  obtain ⟨hentry, horigin, hmeta⟩ := h.entry_wf hd.root
  have hversion : ∀ d' : Document, d'.current = d.published p → d'.version = p.entry.result := by
    intro d' hc
    rw [version, hc, History.result, hmeta]
    rfl
  rw [commitPreparedUnchecked]
  dsimp only
  split_ifs with htracked
  · exact ⟨hentry.after, fun _ he => (by cases he), fun _ he => (by cases he), Threaded.empty _⟩
  · have hslot := h.slot (by simpa using htracked)
    have hpushed := pushed_wf hd hentry horigin hmeta hslot (!p.tracked)
    split
    · next last hlast =>
      obtain ⟨us, hus⟩ := List.getLast?_eq_some_iff.mp hlast
      split_ifs with hmerge
      · refine (trimHistory_evicts _).wf ?_
        simp only [merges, Bool.and_eq_true, EditMetadata.follows, beq_iff_eq] at hmerge
        obtain ⟨⟨⟨⟨⟨⟨-, -⟩, hlt⟩, het⟩, -⟩, -⟩, ⟨⟨⟨⟨-, -⟩, hfollow⟩, -⟩, -⟩⟩ := hmerge
        simp only [hus, List.dropLast_concat]
        have hchain := hd.chained
        rw [Chained, hus] at hchain
        have hlastwf := hd.undo last (by rw [hus]; simp)
        have hlastNow := hchain.after_last
        have hmeet : text last.after = text p.entry.before := by
          have h1 := congrArg Version.text hlastNow
          have h2 := congrArg Version.text horigin
          exact h1.trans h2.symm
        obtain ⟨hmwf, hmorigin, hmresult⟩ := History.mergeEntry_spec
          ({ env.heap { d with
            current := d.published p, redo := d.redo.clear, lastUntracked := !p.tracked
            undo := d.undo.push p.entry, lastMerged := false } with next := next })
          hlastwf hentry hlt het hfollow hmeet
        refine ⟨hentry.after, fun e he => ?_, fun _ he => (by cases he), ?_⟩
        · rcases List.mem_append.mp he with he | he
          · exact hd.undo e (by rw [hus]; exact List.mem_append_left _ he)
          · exact List.mem_singleton.mp he ▸ hmwf
        · have hres : (mergeEntry { env.heap { d with
              current := d.published p, redo := d.redo.clear, lastUntracked := !p.tracked
              undo := d.undo.push p.entry, lastMerged := false } with next := next }
              last p.entry).result = p.entry.result := by
            rw [hmresult, History.result, hmeta]
            exact congrArg (Version.mk _ · _) (congrArg Version.metadata hlastNow)
          unfold Chained
          rw [hversion _ rfl, ← hres]
          exact hchain.replace hmorigin
      · exact (trimHistory_evicts _).wf hpushed
    · exact (trimHistory_evicts _).wf hpushed

theorem applyRelieved_wf {relieve : Relief} (hr : OnlyEvicts relieve) (worlds : Nat → Env)
    (hd : d.Wf) (tr : EditTransaction) (m : Option EditMetadata) :
    (d.applyRelieved relieve worlds tr m).2.Wf := by
  rcases applyRelieved_cases hr worlds hd.root tr m with ⟨e, d', heq, hev⟩ | ⟨-, -, heq⟩ |
    ⟨d₁, p, next, hev, hready, heq⟩
  · rw [heq]; exact hev.wf hd
  · rw [heq]; exact hd
  · rw [heq]; exact commit_wf (hev.wf hd) hready next

/-- A slot reserved in either stack loses no entry. -/
theorem evicts_of_entries (d : Document) (undo redo : HistoryStack) (hu : undo.entries = d.undo.entries)
    (hre : redo.entries = d.redo.entries) : Evicts d { d with undo := undo, redo := redo } :=
  ⟨⟨0, hu⟩, ⟨0, hre⟩, rfl⟩

/-- Everything `undo_relieved` can do. -/
theorem undoRelieved_cases {relieve : Relief} (hr : OnlyEvicts relieve) (env : Env)
    (d : Document) :
    (∃ e d', d.undoRelieved relieve env = (.error e, d') ∧ Evicts d d') ∨
    (∃ d₁ us entry change revision, Evicts d d₁ ∧ d₁.undo.entries = us ++ [entry] ∧
      d₁.redo.entries.length < d₁.redo.capacity ∧ change.direction = .undo ∧
      change.edits = entry.edits.map (OwnedEdit.compact .undo) ∧
      d.undoRelieved relieve env = (.ok revision, d₁.undone entry change revision)) := by
  generalize hcall : d.undoRelieved relieve env = r
  rw [undoRelieved] at hcall
  split at hcall
  · exact Or.inl ⟨_, d, hcall.symm, Evicts.refl d⟩
  split at hcall
  · exact Or.inl ⟨_, d, hcall.symm, Evicts.refl d⟩
  next revision _ =>
  split at hcall
  · exact Or.inl ⟨_, d, hcall.symm, Evicts.refl d⟩
  have hev := hr env d .undo
  generalize relieve env d .undo = d₁ at hev hcall
  dsimp only at hcall
  split at hcall
  · exact Or.inl ⟨_, d₁, hcall.symm, hev⟩
  next redo hres =>
  obtain ⟨hentries, hslot⟩ := HistoryStack.tryReserve_ok hres
  have hev₁ := hev.trans (evicts_of_entries d₁ d₁.undo redo rfl hentries)
  split at hcall
  · exact Or.inl ⟨_, _, hcall.symm, hev₁⟩
  next entry hlast =>
  obtain ⟨us, hus⟩ := List.getLast?_eq_some_iff.mp hlast
  split at hcall
  · exact Or.inl ⟨_, _, hcall.symm, hev₁⟩
  next change heap hchange =>
  have hc := AppliedChange.owned_ok hchange
  exact Or.inr ⟨_, us, entry, change, revision, hev₁, hus, hslot, by rw [hc], by rw [hc],
    hcall.symm⟩

/-- Everything `redo_relieved` can do. -/
theorem redoRelieved_cases {relieve : Relief} (hr : OnlyEvicts relieve) (env : Env)
    (d : Document) :
    (∃ e d', d.redoRelieved relieve env = (.error e, d') ∧ Evicts d d') ∨
    (∃ d₁ rs entry change revision, Evicts d d₁ ∧ d₁.redo.entries = rs ++ [entry] ∧
      d₁.undo.entries.length < d₁.undo.capacity ∧ change.direction = .redo ∧
      change.edits = entry.edits.map (OwnedEdit.compact .redo) ∧
      d.redoRelieved relieve env = (.ok revision, d₁.redone entry change revision)) := by
  generalize hcall : d.redoRelieved relieve env = r
  rw [redoRelieved] at hcall
  split at hcall
  · exact Or.inl ⟨_, d, hcall.symm, Evicts.refl d⟩
  split at hcall
  · exact Or.inl ⟨_, d, hcall.symm, Evicts.refl d⟩
  next revision _ =>
  split at hcall
  · exact Or.inl ⟨_, d, hcall.symm, Evicts.refl d⟩
  have hev := hr env d .redo
  generalize relieve env d .redo = d₁ at hev hcall
  dsimp only at hcall
  split at hcall
  · exact Or.inl ⟨_, d₁, hcall.symm, hev⟩
  next undo hres =>
  obtain ⟨hentries, hslot⟩ := HistoryStack.tryReserve_ok hres
  have hev₁ := hev.trans (evicts_of_entries d₁ undo d₁.redo hentries rfl)
  split at hcall
  · exact Or.inl ⟨_, _, hcall.symm, hev₁⟩
  next entry hlast =>
  obtain ⟨rs, hrs⟩ := List.getLast?_eq_some_iff.mp hlast
  split at hcall
  · exact Or.inl ⟨_, _, hcall.symm, hev₁⟩
  next change heap hchange =>
  have hc := AppliedChange.owned_ok hchange
  exact Or.inr ⟨_, rs, entry, change, revision, hev₁, hrs, hslot, by rw [hc], by rw [hc],
    hcall.symm⟩

/-- Ending a typing run touches no version. -/
theorem endTyping_spec {us rs : List History} {now : Version}
    (h : Threaded History.origin History.result us rs now) (hwf : ∀ e ∈ us, e.Wf) :
    Threaded History.origin History.result (endTyping us) rs now ∧ ∀ e ∈ endTyping us, e.Wf := by
  rw [endTyping]
  split
  · next last hlast =>
    obtain ⟨ws, rfl⟩ := List.getLast?_eq_some_iff.mp hlast
    rw [List.dropLast_concat]
    refine ⟨h.relabel rfl rfl, fun e he => ?_⟩
    rcases List.mem_append.mp he with he | he
    · exact hwf e (List.mem_append_left _ he)
    · exact List.mem_singleton.mp he ▸ (hwf last (by simp)).endTyping
  · exact ⟨h, hwf⟩

variable {entry : History} {change : AppliedChange} {revision : Nat} {us rs : List History}

theorem undone_wf (hd : d.Wf) (hus : d.undo.entries = us ++ [entry])
    (hslot : d.redo.entries.length < d.redo.capacity) :
    (d.undone entry change revision).Wf := by
  have hewf := hd.undo entry (by rw [hus]; simp)
  have hchain := hd.chained
  rw [Chained, hus] at hchain
  have hthread := hchain.undo { entry with typingInsert := false } rfl rfl
  obtain ⟨hthread', hwf'⟩ := endTyping_spec hthread
    fun e he => hd.undo e (by rw [hus]; exact List.mem_append_left _ he)
  refine ⟨hewf.before, ?_, fun e he => ?_, ?_⟩
  · simp only [undone, hus, List.dropLast_concat]
    exact hwf'
  · simp only [undone, HistoryStack.push_entries hslot] at he
    rcases List.mem_append.mp he with he | he
    · exact hd.redo e he
    · exact List.mem_singleton.mp he ▸ hewf.endTyping
  · simp only [Chained, undone, HistoryStack.push_entries hslot, hus, List.dropLast_concat]
    exact hthread'

theorem redone_wf (hd : d.Wf) (hrs : d.redo.entries = rs ++ [entry])
    (hslot : d.undo.entries.length < d.undo.capacity) :
    (d.redone entry change revision).Wf := by
  have hewf := hd.redo entry (by rw [hrs]; simp)
  have hchain := hd.chained
  rw [Chained, hrs] at hchain
  have hthread := hchain.redo { entry with typingInsert := false } rfl rfl
  refine ⟨hewf.after, fun e he => ?_, fun e he => ?_, ?_⟩
  · simp only [redone, HistoryStack.push_entries hslot] at he
    rcases List.mem_append.mp he with he | he
    · exact hd.undo e he
    · exact List.mem_singleton.mp he ▸ hewf.endTyping
  · simp only [redone, hrs, List.dropLast_concat] at he
    exact hd.redo e (by rw [hrs]; exact List.mem_append_left _ he)
  · simp only [Chained, redone, HistoryStack.push_entries hslot, hrs, List.dropLast_concat]
    exact hthread

theorem undoRelieved_wf {relieve : Relief} (hr : OnlyEvicts relieve) (env : Env) (hd : d.Wf) :
    (d.undoRelieved relieve env).2.Wf := by
  rcases undoRelieved_cases hr env d with ⟨e, d', heq, hev⟩ |
    ⟨d₁, us, entry, change, revision, hev, hus, hslot, -, -, heq⟩
  · rw [heq]; exact hev.wf hd
  · rw [heq]; exact undone_wf (hev.wf hd) hus hslot

theorem redoRelieved_wf {relieve : Relief} (hr : OnlyEvicts relieve) (env : Env) (hd : d.Wf) :
    (d.redoRelieved relieve env).2.Wf := by
  rcases redoRelieved_cases hr env d with ⟨e, d', heq, hev⟩ |
    ⟨d₁, rs, entry, change, revision, hev, hrs, hslot, -, -, heq⟩
  · rw [heq]; exact hev.wf hd
  · rw [heq]; exact redone_wf (hev.wf hd) hrs hslot

/-- A metadata change is an entry without edits. -/
theorem applyMetadataRelieved_wf {relieve : Relief} (hr : OnlyEvicts relieve) (env : Env)
    (hd : d.Wf) (baseRevision : Nat) (metadata : DocumentMetadata) :
    (d.applyMetadataRelieved relieve env baseRevision metadata).2.Wf := by
  rw [applyMetadataRelieved]
  split
  · exact hd
  split
  · exact hd
  split
  · exact hd
  split
  · exact hd
  next change heap hchange =>
  have hd₁ := (hr env d (.edit (saturatingAdd metadata.charge 128))).wf hd
  dsimp only
  generalize relieve env d (.edit (saturatingAdd metadata.charge 128)) = d₁ at hd₁ ⊢
  split
  · split
    · exact hd₁
    next undo hres =>
    obtain ⟨hentries, hslot⟩ := HistoryStack.tryReserve_ok hres
    refine (trimHistory_evicts _).wf ⟨hd₁.root, fun e he => ?_, fun _ he => (nomatch he), ?_⟩
    · simp only [HistoryStack.push_entries hslot, hentries] at he
      rcases List.mem_append.mp he with he | he
      · exact hd₁.undo e he
      · rw [List.mem_singleton.mp he]
        exact ⟨hd₁.root, hd₁.root, ⟨fun _ he => (nomatch he), rfl, rfl⟩, fun ht => (nomatch ht)⟩
    · simp only [Chained, HistoryStack.push_entries hslot, hentries]
      exact hd₁.chained.push rfl
  · exact hd₁

theorem opened_wf {root : Root} (h : RootWf .resident root) (metadata : DocumentMetadata)
    (documentId state : Nat) : (opened root metadata documentId state).Wf :=
  ⟨h, fun _ he => (nomatch he), fun _ he => (nomatch he), Threaded.empty _⟩

theorem clearHistory_wf (hd : d.Wf) : d.clearHistory.Wf :=
  ⟨hd.root, fun _ he => (nomatch he), fun _ he => (nomatch he), Threaded.empty _⟩

end Document

/-! ## §4 Whole runs -/

/-- One call on a document, whatever it answers. -/
inductive Step (d : Document) : Document → Prop where
  | apply {relieve : Relief} (hr : OnlyEvicts relieve) (worlds : Nat → Env)
      (tr : EditTransaction) (m : Option EditMetadata) :
      Step d (d.applyRelieved relieve worlds tr m).2
  | applyMetadata {relieve : Relief} (hr : OnlyEvicts relieve) (env : Env) (baseRevision : Nat)
      (metadata : DocumentMetadata) :
      Step d (d.applyMetadataRelieved relieve env baseRevision metadata).2
  | undo {relieve : Relief} (hr : OnlyEvicts relieve) (env : Env) :
      Step d (d.undoRelieved relieve env).2
  | redo {relieve : Relief} (hr : OnlyEvicts relieve) (env : Env) :
      Step d (d.redoRelieved relieve env).2
  | setHistoryPolicy (policy : HistoryPolicy) : Step d (d.setHistoryPolicy policy)
  | clearHistory : Step d d.clearHistory
  | markSaved (captured : DocumentSnapshot) : Step d (d.markSaved captured).2
  | markSavedState (state : Nat) : Step d (d.markSavedState state)
  | relieveHistory (env : Env) (demand : Demand) : Step d (d.relieveHistory env demand)
  | evictOldestEntry {env : Env} {keep : Nat × Nat} {text : Bool} {released : Nat}
      {d' : Document} (h : d.evictOldestEntry env keep text = some (released, d')) : Step d d'

/-- Documents a `DocumentBuilder` holds. -/
inductive Built : Document → Prop where
  | new {heap : Heap} {documentId state : Nat} {d : Document}
      (h : Document.fromUtf8 heap documentId state [] = .ok d) : Built d
  | append {d d' : Document} (hd : Built d) {heap : Heap} {state : Nat} {text : Bytes}
      (h : d.append heap state text = .ok d') : Built d'

/-- Resident documents, from opening through any calls. -/
inductive Reachable : Document → Prop where
  | fromUtf8 {heap : Heap} {documentId state : Nat} {text : Bytes} {d : Document}
      (h : Document.fromUtf8 heap documentId state text = .ok d) : Reachable d
  | built {d : Document} (h : Built d) : Reachable d.finishBuilder
  | forkFromSnapshot {d d' : Document} (hd : Reachable d) {documentId state : Nat}
      (h : Document.forkFromSnapshot d.current documentId state = .ok d') : Reachable d'
  | initializeMetadata {d : Document} (hd : Reachable d) (metadata : DocumentMetadata) :
      Reachable (d.initializeMetadata metadata).2
  | step {d d' : Document} (hd : Reachable d) (h : Step d d') : Reachable d'

/-- Every call keeps the invariant. -/
theorem Step.wf {d d' : Document} (h : Step d d') (hd : d.Wf) : d'.Wf := by
  cases h with
  | apply hr worlds tr m => exact Document.applyRelieved_wf hr worlds hd tr m
  | applyMetadata hr env base metadata =>
    exact Document.applyMetadataRelieved_wf hr env hd base metadata
  | undo hr env => exact Document.undoRelieved_wf hr env hd
  | redo hr env => exact Document.redoRelieved_wf hr env hd
  | setHistoryPolicy policy =>
    exact (Document.trimHistory_evicts _).wf ⟨hd.root, hd.undo, hd.redo, hd.chained⟩
  | clearHistory => exact Document.clearHistory_wf hd
  | markSaved captured =>
    rw [Document.markSaved]
    split_ifs <;> exact ⟨hd.root, hd.undo, hd.redo, hd.chained⟩
  | markSavedState state => exact ⟨hd.root, hd.undo, hd.redo, hd.chained⟩
  | relieveHistory env demand => exact (Document.relieveHistory_evicts env d demand).wf hd
  | evictOldestEntry h => exact (Document.evictOldestEntry_evicts h).wf hd

theorem Document.fromUtf8_wf {heap : Heap} {documentId state : Nat} {text : Bytes}
    {d : Document} (h : Document.fromUtf8 heap documentId state text = .ok d) :
    ∃ root, RootWf .resident root ∧
      d = opened root DocumentMetadata.default documentId state := by
  rw [fromUtf8] at h
  cases hfrom : fromText text heap with
  | error e => simp [hfrom, Except.map] at h
  | ok r =>
    obtain ⟨hw, -⟩ := textSegments_spec (rootWf_none .resident) hfrom
    rw [hfrom] at h
    exact ⟨r.1, hw, (Except.ok.inj h).symm⟩

/-- A builder only grows the text; it never has history. -/
theorem Built.wf {d : Document} (h : Built d) :
    RootWf .resident d.current.root ∧ d.undo.entries = [] ∧ d.redo.entries = [] := by
  induction h with
  | new h =>
    obtain ⟨root, hw, rfl⟩ := Document.fromUtf8_wf h
    exact ⟨hw, rfl, rfl⟩
  | append _ h ih =>
    simp only [Document.append, bind_ok] at h
    obtain ⟨⟨suffix, heap'⟩, hfrom, revision, -, h⟩ := h
    obtain ⟨hw, -⟩ := textSegments_spec (rootWf_none .resident) hfrom
    obtain rfl := Except.ok.inj h
    exact ⟨concat_wf ih.1 hw, ih.2⟩

/-- The invariant holds of every reachable document. -/
theorem Reachable.wf {d : Document} (h : Reachable d) : d.Wf := by
  induction h with
  | fromUtf8 h =>
    obtain ⟨root, hw, rfl⟩ := Document.fromUtf8_wf h
    exact Document.opened_wf hw _ _ _
  | built h =>
    obtain ⟨hw, hu, hr⟩ := h.wf
    refine ⟨hw, fun e he => ?_, fun e he => ?_, ?_⟩
    · rw [Document.finishBuilder, hu] at he; cases he
    · rw [Document.finishBuilder, hr] at he; cases he
    · simp only [Document.Chained, Document.finishBuilder, hu, hr]
      exact Threaded.empty _
  | forkFromSnapshot _ h ih =>
    rw [Document.forkFromSnapshot] at h
    split_ifs at h
    exact Except.ok.inj h ▸ Document.opened_wf ih.root _ _ _
  | initializeMetadata _ metadata ih =>
    rw [Document.initializeMetadata]
    split_ifs with h
    · exact ih
    · simp only [Bool.or_eq_true, Bool.not_eq_true', not_or, Bool.not_eq_false,
        List.isEmpty_iff] at h
      obtain ⟨⟨-, hu⟩, hr⟩ := h
      refine ⟨ih.root, ih.undo, ih.redo, ?_⟩
      simp only [Document.Chained, hu, hr]
      exact Threaded.empty _
  | step _ h ih => exact h.wf ih

/-! ## §5 Undoing and redoing -/

/-- `d'` is `d` after `k` undo calls that all succeeded. -/
inductive Undoes (d : Document) : Nat → Document → Prop where
  | zero : Undoes d 0 d
  | step {k : Nat} {d₁ d₂ : Document} {relieve : Relief} {env : Env} {revision : Nat}
      (h : Undoes d k d₁) (hr : OnlyEvicts relieve)
      (hu : d₁.undoRelieved relieve env = (.ok revision, d₂)) : Undoes d (k + 1) d₂

theorem Undoes.single {d : Document} {relieve : Relief} {env : Env} (hr : OnlyEvicts relieve)
    (revision : Nat) (h : (d.undoRelieved relieve env).1 = .ok revision) :
    Undoes d 1 (d.undoRelieved relieve env).2 :=
  Undoes.zero.step hr (pair_of_fst h)

/-- `d'` is `d` after `k` redo calls that all succeeded. -/
inductive Redoes (d : Document) : Nat → Document → Prop where
  | zero : Redoes d 0 d
  | step {k : Nat} {d₁ d₂ : Document} {relieve : Relief} {env : Env} {revision : Nat}
      (h : Redoes d k d₁) (hr : OnlyEvicts relieve)
      (hu : d₁.redoRelieved relieve env = (.ok revision, d₂)) : Redoes d (k + 1) d₂

theorem Redoes.single {d : Document} {relieve : Relief} {env : Env} (hr : OnlyEvicts relieve)
    (revision : Nat) (h : (d.redoRelieved relieve env).1 = .ok revision) :
    Redoes d 1 (d.redoRelieved relieve env).2 :=
  Redoes.zero.step hr (pair_of_fst h)

namespace Document

/-- `k` redo steps lead back to `origin`. -/
def ReturnsTo (d : Document) (k : Nat) (origin : Version) : Prop :=
  Returns History.origin History.result d.redo.entries d.version k origin

theorem Evicts.returnsTo {d d' : Document} {k : Nat} {origin : Version} (he : Evicts d d')
    (h : d.ReturnsTo k origin) : d'.ReturnsTo k origin := by
  obtain ⟨n, hn⟩ := he.redo
  unfold ReturnsTo at h ⊢
  rw [he.version, hn]
  exact h.drop n

variable {d d' : Document} {relieve : Relief} {env : Env} {revision k : Nat} {origin : Version}

/-- An undo that succeeds publishes the receipt of the way back. -/
theorem undo_gives (hd : d.Wf) (hr : OnlyEvicts relieve)
    (h : d.undoRelieved relieve env = (.ok revision, d')) :
    ∃ change, d'.current.appliedChange = some change ∧ change.direction = .undo ∧
      change.Gives d.current.text d'.current.text := by
  rcases undoRelieved_cases hr env d with ⟨e, _, heq, -⟩ |
    ⟨d₁, us, entry, change, revision', hev, hus, hslot, hdir, hlines, heq⟩
  · cases (Prod.mk.inj (heq.symm.trans h)).1
  · obtain ⟨-, rfl⟩ := Prod.mk.inj (heq.symm.trans h)
    have hd₁ := hev.wf hd
    have hnow : text entry.after = d.current.text := by
      have hchain := hd₁.chained
      rw [Chained, hus, hev.version] at hchain
      exact congrArg Version.text hchain.after_last
    have hgives := (hd₁.undo entry (by rw [hus]; simp)).rewrites.gives _ _ hlines
    rw [if_pos rfl, hnow] at hgives
    exact ⟨change, rfl, hdir, hgives⟩

/-- A redo that succeeds publishes the receipt of the edit it makes again. -/
theorem redo_gives (hd : d.Wf) (hr : OnlyEvicts relieve)
    (h : d.redoRelieved relieve env = (.ok revision, d')) :
    ∃ change, d'.current.appliedChange = some change ∧ change.direction = .redo ∧
      change.Gives d.current.text d'.current.text := by
  rcases redoRelieved_cases hr env d with ⟨e, _, heq, -⟩ |
    ⟨d₁, rs, entry, change, revision', hev, hrs, hslot, hdir, hlines, heq⟩
  · cases (Prod.mk.inj (heq.symm.trans h)).1
  · obtain ⟨-, rfl⟩ := Prod.mk.inj (heq.symm.trans h)
    have hd₁ := hev.wf hd
    have hnow : text entry.before = d.current.text := by
      have hchain := hd₁.chained
      rw [Chained, hrs, hev.version] at hchain
      exact congrArg Version.text hchain.before_last
    have hgives := (hd₁.redo entry (by rw [hrs]; simp)).rewrites.gives _ _ hlines
    rw [if_neg (by decide), hnow] at hgives
    exact ⟨change, rfl, hdir, hgives⟩

/-- One undo adds a step to the way back. -/
theorem undo_returnsTo (hd : d.Wf) (hr : OnlyEvicts relieve)
    (h : d.undoRelieved relieve env = (.ok revision, d')) (hret : d.ReturnsTo k origin) :
    d'.ReturnsTo (k + 1) origin := by
  rcases undoRelieved_cases hr env d with ⟨e, _, heq, -⟩ |
    ⟨d₁, us, entry, change, revision', hev, hus, hslot, -, -, heq⟩
  · cases (Prod.mk.inj (heq.symm.trans h)).1
  · obtain ⟨-, rfl⟩ := Prod.mk.inj (heq.symm.trans h)
    have hchain := (hev.wf hd).chained
    rw [Chained, hus] at hchain
    have hret₁ := Evicts.returnsTo hev hret
    unfold ReturnsTo at hret₁ ⊢
    simp only [undone, HistoryStack.push_entries hslot]
    exact hret₁.undo (e := { entry with typingInsert := false }) hchain.after_last

/-- One redo takes a step of it. -/
theorem redo_returnsTo (hr : OnlyEvicts relieve)
    (h : d.redoRelieved relieve env = (.ok revision, d')) (hret : d.ReturnsTo (k + 1) origin) :
    d'.ReturnsTo k origin := by
  rcases redoRelieved_cases hr env d with ⟨e, _, heq, -⟩ |
    ⟨d₁, rs, entry, change, revision', hev, hrs, hslot, -, -, heq⟩
  · cases (Prod.mk.inj (heq.symm.trans h)).1
  · obtain ⟨-, rfl⟩ := Prod.mk.inj (heq.symm.trans h)
    have hret₁ := Evicts.returnsTo hev hret
    unfold ReturnsTo at hret₁ ⊢
    rw [hrs] at hret₁
    simp only [redone, hrs, List.dropLast_concat]
    exact hret₁.redo

end Document

theorem Undoes.spec {d d' : Document} {k : Nat} (h : Undoes d k d') (hd : d.Wf) :
    d'.Wf ∧ d'.ReturnsTo k d.version := by
  induction h with
  | zero => exact ⟨hd, Returns.zero _ _⟩
  | @step k d₁ d₂ relieve env revision _ hr hu ih =>
    have hwf := Document.undoRelieved_wf hr env ih.1
    rw [hu] at hwf
    exact ⟨hwf, Document.undo_returnsTo ih.1 hr hu ih.2⟩

theorem Redoes.spec {d d' : Document} {k j : Nat} {origin : Version} (h : Redoes d k d')
    (hret : d.ReturnsTo (k + j) origin) : d'.ReturnsTo j origin := by
  induction h generalizing j with
  | zero => simpa using hret
  | @step k d₁ d₂ relieve env revision _ hr hu ih =>
    exact Document.redo_returnsTo hr hu (ih (by rwa [Nat.add_right_comm] at hret))

/-- As many redo steps as undo steps restore the version. -/
theorem Redoes.restores {d d₁ d₂ : Document} {k : Nat} (hd : d.Wf) (hu : Undoes d k d₁)
    (hr : Redoes d₁ k d₂) : d₂.version = d.version :=
  (hr.spec (j := 0) (hu.spec hd).2).eq_of_zero

/-! ## §6 What a resident document promises -/

/-- Accepted edits start at distinct offsets, in order. -/
theorem checkEdits_starts {s : DocumentSnapshot} {previous : Option Range} {es : List Edit}
    (h : checkEdits s previous es = .ok ()) :
    (∀ p ∈ previous, p.start ≤ p.stop → ∀ e ∈ es, p.start < e.range.start) ∧
      es.Pairwise fun a b => a.range.start < b.range.start := by
  induction es generalizing previous with
  | nil => exact ⟨fun _ _ _ _ he => (nomatch he), List.Pairwise.nil⟩
  | cons edit rest ih =>
    rw [checkEdits] at h
    split at h
    · cases h
    next hvalid =>
    obtain ⟨hle, -⟩ := DocumentSnapshot.validateRange_ok hvalid
    split_ifs at h with hover
    obtain ⟨hfirst, hrest⟩ := ih h
    have hedit := hfirst edit.range rfl hle
    refine ⟨fun p hp hple => ?_, List.Pairwise.cons hedit hrest⟩
    obtain rfl := Option.mem_def.mp hp
    simp only [Option.any_some, Bool.or_eq_true, decide_eq_true_eq, beq_iff_eq, not_or] at hover
    have hlt : p.start < edit.range.start := by omega
    exact List.forall_mem_cons.mpr ⟨hlt, fun e he => Nat.lt_trans hlt (hedit e he)⟩

/-- Every order by start is the accepted one. -/
theorem sorted_unique {s : DocumentSnapshot} {edits es : List Edit}
    (h : checkEdits s none (sortEdits edits) = .ok ()) (hperm : es.Perm edits)
    (hsorted : es.Pairwise fun a b => a.range.start ≤ b.range.start) : es = sortEdits edits := by
  have hstrict := (checkEdits_starts h).2
  have hperm' : es.Perm (sortEdits edits) := hperm.trans (List.perm_insertionSort _ edits).symm
  refine hperm'.eq_of_pairwise ?_ hsorted (hstrict.imp Nat.le_of_lt)
  intro a b ha hb hab hba
  have heq : a.range.start = b.range.start := Nat.le_antisymm hab hba
  have hnodup : ((sortEdits edits).map fun e => e.range.start).Nodup :=
    List.pairwise_map.mpr (hstrict.imp Nat.ne_of_lt)
  exact List.inj_on_of_nodup_map hnodup (hperm'.mem_iff.mp ha) hb heq

end BareLine
