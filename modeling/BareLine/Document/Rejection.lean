import BareLine.Document.Guarantees
import BareLine.Document.StagingRoom

/-!
# Rejected edits and the history relief gave up

Relief for a transaction's text runs before the transaction is staged, on the estimate
`text_need`.  Staging also charges the leaf a typed insertion is joined into and the gaps
coalescing copies, and it refuses receipts over `MAX_RECEIPT_BYTES`, so it can still fail
after history was evicted for it.  `rejection_keeps_document_iff` says exactly when a
rejected edit leaves the document as it was.
-/

namespace BareLine

open Lib BareLine.Tree

namespace Document

/-! ## §1 What relief for text gives up -/

/-- The document without the first `n` entries relief gives up: redo from its far end, then
undo from its start. -/
def without (d : Document) (n : Nat) : Document :=
  { d with undo := d.undo.drain (n - d.redo.entries.length), redo := d.redo.drain n }

/-- Text only the next entry relief gives up keeps alive. -/
def releasedText (env : Env) (d : Document) : Nat :=
  match d.redo.entries with
  | e :: _ => e.retainedText (env.strongCount d) true usizeMax
  | [] => d.undo.entries.head?.elim 0 fun e =>
      e.retainedText (env.strongCount d) false usizeMax

/-- Text the first `n` entries account for, each counted when it is given up. -/
def credited (env : Env) (d : Document) : Nat → Nat
  | 0 => 0
  | n + 1 => d.credited env n + (d.without n).releasedText env

/-- Relief for `need` bytes of text stops after `n` entries: there is room, or every redo
entry is gone and the entries given up account for the shortfall or none is left. -/
def ReliefStops (env : Env) (d : Document) (need n : Nat) : Prop :=
  need ≤ (d.without n).bytesAvailable env ∨
    (d.redo.entries.length ≤ n ∧
      (d.shortfall env (.text need) ≤ d.credited env n ∨ d.historyLength ≤ n))

instance (env : Env) (d : Document) (need n : Nat) : Decidable (d.ReliefStops env need n) :=
  inferInstanceAs (Decidable (_ ∨ (_ ∧ (_ ∨ _))))

/-- Relief for `need` bytes of text gives up exactly `n` entries. -/
def ReliefTakes (env : Env) (d : Document) (need n : Nat) : Prop :=
  d.ReliefStops env need n ∧ ∀ i < n, ¬d.ReliefStops env need i

instance (env : Env) (d : Document) (need n : Nat) : Decidable (d.ReliefTakes env need n) :=
  inferInstanceAs (Decidable (_ ∧ ∀ i < n, ¬_))

variable {env : Env} {d : Document} {need n k : Nat}

@[simp] theorem without_zero (d : Document) : d.without 0 = d := by
  simp [without, HistoryStack.drain]

theorem without_historyLength (d : Document) (n : Nat) :
    (d.without n).historyLength = d.historyLength - n := by
  simp only [without, historyLength, HistoryStack.drain_entries, List.length_drop]
  omega

theorem without_evicts (d : Document) (n : Nat) : Evicts d (d.without n) :=
  ⟨⟨_, rfl⟩, ⟨_, rfl⟩, rfl⟩

theorem without_succ_redo (h : k < d.redo.entries.length) :
    (d.without k).dropOldest true = d.without (k + 1) := by
  have h1 : k - d.redo.entries.length = 0 := by omega
  have h2 : k + 1 - d.redo.entries.length = 0 := by omega
  simp only [without, dropOldest, if_true, HistoryStack.drain, h1, h2, List.drop_drop]

theorem without_succ_undo (h : d.redo.entries.length ≤ k) :
    (d.without k).dropOldest false = d.without (k + 1) := by
  have h1 : k + 1 - d.redo.entries.length = k - d.redo.entries.length + 1 := by omega
  have h2 : d.redo.entries.drop k = [] := List.drop_eq_nil_of_le h
  have h3 : d.redo.entries.drop (k + 1) = [] := List.drop_eq_nil_of_le (by omega)
  simp only [without, dropOldest, Bool.false_eq_true, if_false, HistoryStack.drain, h1, h2, h3,
    List.drop_drop]

theorem lacksRoom_text : d.lacksRoom env (.text need) = true ↔ d.bytesAvailable env < need := by
  rw [lacksRoom, decide_eq_true_eq]
  exact Nat.sub_pos_iff_lt

theorem has_room_text (h : need ≤ d.bytesAvailable env) :
    d.lacksRoom env (.text need) = false := by
  rw [← Bool.not_eq_true, lacksRoom_text]
  omega

/-- The redo phase: it stops with room or with no redo entry left. -/
theorem relieveRedoFrom_text {bound : Nat} (hbound : bound ≤ usizeMax)
    (hk : k ≤ d.redo.entries.length) (hnot : ∀ i < k, ¬d.ReliefStops env need i)
    (released : Nat) (hrel : bound - released = bound - d.credited env k) :
    ∃ n, n ≤ d.redo.entries.length ∧
      (relieveRedoFrom env (.text need) (d.without k) released).2 = d.without n ∧
      (∀ i < n, ¬d.ReliefStops env need i) ∧
      bound - (relieveRedoFrom env (.text need) (d.without k) released).1 =
        bound - d.credited env n ∧
      (need ≤ (d.without n).bytesAvailable env ∨ n = d.redo.entries.length) := by
  obtain ⟨more, hmore⟩ : ∃ more, d.redo.entries.length - k = more := ⟨_, rfl⟩
  induction more generalizing k released with
  | zero =>
    have hnil : (d.without k).redo.entries = [] := List.drop_eq_nil_of_le (by omega)
    rw [relieveRedoFrom_stop released (Or.inr hnil)]
    exact ⟨k, hk, rfl, hnot, hrel, Or.inr (by omega)⟩
  | succ more ih =>
    by_cases hroom : need ≤ (d.without k).bytesAvailable env
    · rw [relieveRedoFrom_stop released (Or.inl (has_room_text hroom))]
      exact ⟨k, hk, rfl, hnot, hrel, Or.inl hroom⟩
    · obtain ⟨furthest, rest, hcons⟩ : ∃ furthest rest,
          (d.without k).redo.entries = furthest :: rest := by
        cases hent : (d.without k).redo.entries with
        | nil =>
          simp only [without, HistoryStack.drain_entries, List.drop_eq_nil_iff] at hent
          omega
        | cons furthest rest => exact ⟨_, _, rfl⟩
      have hstep : ¬d.ReliefStops env need k := by
        rintro (h | ⟨h, -⟩) <;> omega
      have hreleased : (d.without k).releasedText env =
          furthest.retainedText (env.strongCount (d.without k)) true usizeMax := by
        rw [releasedText, hcons]
      rw [relieveRedoFrom_step released (lacksRoom_text.mpr (by omega)) hcons,
        without_succ_redo (by omega)]
      refine ih (by omega) (fun i hi => ?_) _ ?_ (by omega)
      · rcases Nat.lt_succ_iff_lt_or_eq.mp hi with h | rfl
        · exact hnot i h
        · exact hstep
      · simp only [Demand.isText, if_true]
        rw [credited, hreleased, saturatingAdd]
        omega

/-- With no redo entry left, eviction for text takes the oldest undo entry. -/
theorem evictOldestEntry_text (env : Env) (need : Nat) (hk : d.redo.entries.length ≤ k) :
    (d.without k).evictOldestEntry env (Demand.text need).keep (Demand.text need).isText =
      if k < d.historyLength then
        some ((d.without k).releasedText env, d.without (k + 1)) else none := by
  have hnil : (d.without k).redo.entries = [] := List.drop_eq_nil_of_le hk
  have hlen : (d.without k).undo.entries.length = d.historyLength - k := by
    simp only [without, HistoryStack.drain_entries, List.length_drop, historyLength]
    omega
  rw [← without_succ_undo hk, releasedText, hnil]
  cases hent : (d.without k).undo.entries with
  | nil =>
    rw [hent, List.length_nil] at hlen
    rw [if_neg (by omega)]
    simp [evictOldestEntry, evictable, Demand.keep, hnil, hent]
  | cons e es =>
    rw [hent, List.length_cons] at hlen
    rw [if_pos (by omega)]
    have hfirst : (d.without k).evictable (0, 0) = (some e.sequence, none) := by
      simp [evictable, hnil, hent, Option.filter]
    simp [evictOldestEntry, Demand.keep, Demand.isText, hfirst, hent]

/-- The undo phase: it stops where relief stops. -/
theorem relieveFrom_text (hnot : ∀ i < k, ¬d.ReliefStops env need i)
    (hk : need ≤ (d.without k).bytesAvailable env ∨ d.redo.entries.length ≤ k) :
    ∃ n, d.ReliefTakes env need n ∧
      relieveFrom env (.text need) (d.without k)
        (d.shortfall env (.text need) - d.credited env k) = d.without n := by
  obtain ⟨more, hmore⟩ : ∃ more, d.historyLength - k = more := ⟨_, rfl⟩
  induction more generalizing k with
  | zero =>
    rcases hk with hk | hk
    · exact ⟨k, ⟨Or.inl hk, hnot⟩, relieveFrom_stop (Or.inl (has_room_text hk))⟩
    · refine ⟨k, ⟨Or.inr ⟨hk, Or.inr (by omega)⟩, hnot⟩, relieveFrom_stop (Or.inr (Or.inr ?_))⟩
      rw [evictOldestEntry_text env need hk, if_neg (by omega)]
  | succ more ih =>
    by_cases hstop : d.ReliefStops env need k
    · refine ⟨k, ⟨hstop, hnot⟩, relieveFrom_stop ?_⟩
      rcases hstop with h | ⟨-, h | h⟩
      · exact Or.inl (has_room_text h)
      · exact Or.inr (Or.inl (by omega))
      · omega
    · have hredo : d.redo.entries.length ≤ k := hk.resolve_left fun h => hstop (Or.inl h)
      have hroom : ¬need ≤ (d.without k).bytesAvailable env := fun h => hstop (Or.inl h)
      have hcovered : ¬d.shortfall env (.text need) ≤ d.credited env k := fun h =>
        hstop (Or.inr ⟨hredo, Or.inl h⟩)
      have hevict := evictOldestEntry_text env need hredo
      rw [if_pos (by omega)] at hevict
      rw [relieveFrom_step (lacksRoom_text.mpr (by omega)) (by omega) hevict, Nat.sub_sub]
      refine ih (fun i hi => ?_) (Or.inr (by omega)) (by omega)
      rcases Nat.lt_succ_iff_lt_or_eq.mp hi with h | rfl
      · exact hnot i h
      · exact hstop

/-- Relief that runs takes at least one entry, and only what it has to. -/
theorem relieveHistory_text (hroom : d.lacksRoom env (.text need) = true)
    (hneed : need ≤ usizeMax) (hmissing : d.reliefMissing env (.text need) = 0) :
    ∃ n, d.ReliefTakes env need n ∧ d.relieveHistory env (.text need) = d.without n := by
  have hbound : d.shortfall env (.text need) ≤ usizeMax :=
    Nat.le_trans (Nat.sub_le _ _) hneed
  obtain ⟨n, hle, hdoc, hnot, hcredit, hend⟩ := relieveRedoFrom_text (d := d) (k := 0)
    hbound (Nat.zero_le _) (fun i hi => by omega) 0 rfl
  rw [without_zero] at hdoc hcredit
  obtain ⟨m, htakes, hundo⟩ := relieveFrom_text hnot
    (hend.imp_right fun h => Nat.le_of_eq h.symm)
  refine ⟨m, htakes, ?_⟩
  rw [relieveHistory]
  simp only [hroom, hmissing, Bool.not_true, Nat.lt_irrefl, decide_false, Bool.or_self,
    Bool.false_eq_true, if_false, gt_iff_lt, relieveRedo, reliefBound, Demand.isText, if_true]
  rw [hdoc, hcredit, hundo]

theorem freeableFrom_nil (frees : History → Nat → Nat) (enough found : Nat) :
    freeableFrom frees enough found [] = found := rfl

/-- Relief that runs gives up something. -/
theorem ReliefTakes.pos (htakes : d.ReliefTakes env need n)
    (hroom : d.lacksRoom env (.text need) = true)
    (hmissing : d.reliefMissing env (.text need) = 0) : 0 < n ∧ n ≤ d.historyLength := by
  rw [lacksRoom_text] at hroom
  have hhistory : 0 < d.historyLength := by
    by_contra hnone
    have hu : d.undo.entries = [] := List.eq_nil_of_length_eq_zero (by
      unfold historyLength at hnone; omega)
    have hr : d.redo.entries = [] := List.eq_nil_of_length_eq_zero (by
      unfold historyLength at hnone; omega)
    simp only [reliefMissing, freeable, Demand.isText, if_true, freeableText, evictableEntries,
      hu, hr, List.take_nil, freeableFrom_nil] at hmissing
    omega
  refine ⟨Nat.pos_of_ne_zero ?_, ?_⟩
  · rintro rfl
    rcases htakes.1 with h | ⟨-, h | h⟩
    · rw [without_zero] at h
      omega
    · simp only [shortfall, credited] at h
      omega
    · omega
  · by_contra hlt
    refine htakes.2 d.historyLength (by omega) (Or.inr ⟨?_, Or.inr (Nat.le_refl _)⟩)
    unfold historyLength
    omega

/-! ## §2 The errors of a staged edit -/

/-- The after-selections do not sit on boundaries of the text the transaction makes. -/
def MalformedAfter (d : Document) (tr : EditTransaction) (m : Option EditMetadata) : Prop :=
  ∃ md ∈ m, ∃ s ∈ md.after,
    ¬(atBoundary (splice ((sortEdits tr.edits).map Edit.toSplice) d.current.text) s.anchor ∧
      atBoundary (splice ((sortEdits tr.edits).map Edit.toSplice) d.current.text) s.caret)

/-- The error is the one a malformed after-selection causes. -/
def CausedByAfter (d : Document) (tr : EditTransaction) (m : Option EditMetadata) (e : Error) :
    Prop :=
  (e = .outOfBounds ∨ e = .invalidBoundary) ∧ d.MalformedAfter tr m

theorem textSegments_error {inserted : Bool} {t : Bytes} {root : Root} {heap : Heap}
    {e : Error} (h : textSegments inserted t root heap = .error e) : e = .budgetExceeded := by
  fun_induction textSegments inserted t root heap with
  | case1 => cases h
  | case2 t root heap hne n e' hres =>
    rw [Heap.reserve] at hres
    split_ifs at hres
    cases hres
    cases h
    rfl
  | case3 t root heap hne n heap₁ hres segment ih => exact ih h

theorem stageInserts_error {es : List Edit} {heap : Heap} {e : Error}
    (h : stageInserts es heap = .error e) : e = .budgetExceeded := by
  induction es generalizing heap with
  | nil => cases h
  | cons edit rest ih =>
    rw [stageInserts] at h
    split at h
    · next hfrom =>
      cases h
      exact textSegments_error hfrom
    · split at h
      · next hrest =>
        cases h
        exact ih hrest
      · cases h

theorem ownEdits_error {root : Root} {c c' : Nat} {staged : List (Edit × Root)} {e : Error}
    (h : ownEdits root c c' staged = .error e) : e = .budgetExceeded := by
  induction staged generalizing c c' with
  | nil => cases h
  | cons s rest ih =>
    rw [ownEdits] at h
    split at h
    · cases h
      rfl
    split at h
    · cases h
      rfl
    split at h
    · next hrest =>
      cases h
      exact ih hrest
    · cases h

theorem owned_error {sizes : Layout} {documentId beforeRevision afterRevision beforeState
    afterState : Nat} {direction : ChangeDirection} {edits : List OwnedEdit} {heap : Heap}
    {e : Error} (h : AppliedChange.owned sizes documentId beforeRevision afterRevision beforeState
      afterState direction edits heap = .error e) : e = .budgetExceeded := by
  rw [AppliedChange.owned] at h
  split at h
  · cases h
    rfl
  · rw [Heap.reserve] at h
    split_ifs at h
    · cases h
    · cases h
      rfl

/-- Once a transaction passed its checks, staging only fails for want of room. -/
theorem stage_error {tr : EditTransaction} {edits : List Edit} {e : Error}
    (hcheck : d.checkTransaction tr = .ok edits) (h : d.stage env tr = .error e) :
    e = .budgetExceeded := by
  obtain ⟨-, -, -, -, revision, hrev⟩ := checkTransaction_ok hcheck
  simp only [stage, hcheck, hrev, bind, Except.bind] at h
  split at h
  · next hins =>
    cases h
    exact stageInserts_error hins
  split at h
  · next hown =>
    cases h
    exact ownEdits_error hown
  split at h
  · next hchange =>
    cases h
    exact owned_error hchange
  · cases h

/-- After the checks that precede relief, only an after-selection can be refused. -/
theorem metadataChecks_error {tr : EditTransaction} {p : PreparedEdit} {m : EditMetadata}
    {e : Error} (hst : Staged env d tr p) (hchecks : d.reliefChecks tr (some m) = .ok ())
    (h : d.metadataChecks p m = .error e) : d.CausedByAfter tr (some m) e := by
  rw [reliefChecks] at hchecks
  split at hchecks
  · cases hchecks
  next edits hedits =>
  dsimp only at hchecks
  split at hchecks
  · cases hchecks
  next hvalid =>
  split_ifs at hchecks with hbefore
  rw [EditMetadata.validate] at hvalid
  split_ifs at hvalid with hcount hrange
  simp only [Bool.or_eq_true, not_or] at hrange
  have hmalformed : ∀ s ∈ m.after, ¬(boundary p.entry.after s.anchor ∧
      boundary p.entry.after s.caret) → d.MalformedAfter tr (some m) := by
    intro s hs hbad
    refine ⟨m, rfl, s, hs, ?_⟩
    rw [boundary_eq hst.after_wf, boundary_eq hst.after_wf, hst.after_text] at hbad
    exact hbad
  rw [metadataChecks, EditMetadata.validate, if_neg hcount] at h
  split at h
  · next herr =>
    cases h
    split_ifs at herr with hout
    cases herr
    refine ⟨Or.inl rfl, ?_⟩
    rw [Bool.or_eq_true] at hout
    obtain ⟨s, hs, hbad⟩ := List.any_eq_true.mp (hout.resolve_left hrange.1)
    refine hmalformed s hs fun hin => ?_
    rw [boundary_eq hst.after_wf, boundary_eq hst.after_wf] at hin
    have h1 := atBoundary_le hin.1
    have h2 := atBoundary_le hin.2
    rw [decide_eq_true_eq, hst.after_wf.bytes] at hbad
    omega
  · simp only [hbefore, Bool.not_true, Bool.false_eq_true, if_false] at h
    split_ifs at h with hafter
    cases h
    refine ⟨Or.inr rfl, ?_⟩
    simp only [afterBoundaries, Bool.not_eq_true', List.all_eq_false, Bool.and_eq_true] at hafter
    obtain ⟨s, hs, hbad⟩ := hafter
    exact hmalformed s hs hbad

/-! ## §3 When a rejection costs nothing -/

/-- Relief runs for the transaction: the estimate lacks room, the checks pass and evicting
history could close the gap. -/
def ReliefRuns (env : Env) (d : Document) (tr : EditTransaction) (m : Option EditMetadata) :
    Prop :=
  let need := textNeed env.layout tr.edits
  d.lacksRoom env (.text need) = true ∧ d.reliefChecks tr m = .ok () ∧
    d.reliefMissing env (.text need) = 0

/-- What staging charges fits the byte budget once the entries relief takes are gone. -/
def StagingCovered (env : Env) (d : Document) (tr : EditTransaction) : Prop :=
  ∃ n, d.ReliefTakes env (textNeed env.layout tr.edits) n ∧
    StagingFits env.layout (env.heap (d.without n)) d.current.root (sortEdits tr.edits)

theorem textNeed_le (sizes : Layout) (edits : List Edit) : textNeed sizes edits ≤ usizeMax :=
  Nat.min_le_right _ _

theorem checkTransaction_current {d' : Document} (h : d'.current = d.current)
    (tr : EditTransaction) : d'.checkTransaction tr = d.checkTransaction tr := by
  simp only [checkTransaction, nextRevision, h]

theorem reliefChecks_current {d' : Document} (h : d'.current = d.current) (tr : EditTransaction)
    (m : Option EditMetadata) : d'.reliefChecks tr m = d.reliefChecks tr m := by
  simp only [reliefChecks, checkTransaction_current h, lengthAfter, beforeBoundaries, h]
  rfl

/-- Without relief the document goes on to staging as it was. -/
theorem relieveText_quiet {tr : EditTransaction} {m : Option EditMetadata} {d' : Document}
    (hquiet : ¬d.ReliefRuns env tr m) (h : d.relieveText ownRelief env tr m = .ok d') :
    d' = d := by
  rw [relieveText] at h
  split_ifs at h with hroom
  · split at h
    · cases h
    next hchecks =>
    have hmissing : d.reliefMissing env (.text (textNeed env.layout tr.edits)) ≠ 0 := fun h0 =>
      hquiet ⟨hroom, hchecks, h0⟩
    obtain rfl := Except.ok.inj h
    rw [ownRelief, relieveHistory]
    simp [Nat.pos_of_ne_zero hmissing]
  · exact (Except.ok.inj h).symm

/-- Staged edits are committed, or refused for an after-selection. -/
theorem applyStaged_error {worlds : Nat → Env} {tr : EditTransaction}
    {m : Option EditMetadata} {d₁ d' : Document} {e : Error}
    (hroot : RootWf .resident d.current.root) (hev : Evicts d d₁)
    (hrelief : d.relieveText ownRelief (worlds 0) tr m = .ok d₁)
    (h : d.applyStaged ownRelief worlds tr m = (.error e, d')) :
    d' = d₁ ∧ (d₁.stage (worlds 0) tr = .error e ∨
      ∃ p heap md, m = some md ∧ d₁.stage (worlds 0) tr = .ok (p, heap) ∧
        d₁.metadataChecks p md = .error e) := by
  rw [applyStaged, hrelief] at h
  dsimp only at h
  split at h
  · next hstage =>
    obtain ⟨he, rfl⟩ := Prod.mk.inj h
    cases he
    exact ⟨rfl, Or.inl hstage⟩
  next p heap hstage =>
  have hst := stage_spec (hev.current ▸ hroot) hstage
  have hne := stage_nonempty hstage
  cases m with
  | none =>
    obtain ⟨_, _, -, -, hfin⟩ := finish_spec ownRelief_onlyEvicts worlds heap.next none hne hst
    cases (Prod.mk.inj (hfin.symm.trans h)).1
  | some m =>
    dsimp only at h
    split at h
    · next hchecks =>
      obtain ⟨he, rfl⟩ := Prod.mk.inj h
      cases he
      exact ⟨rfl, Or.inr ⟨p, heap, m, rfl, hstage, hchecks⟩⟩
    · obtain ⟨_, _, -, -, hfin⟩ :=
        finish_spec ownRelief_onlyEvicts worlds heap.next (some m) hne hst
      cases (Prod.mk.inj (hfin.symm.trans h)).1

/-- Relief that runs leaves the document without the entries it takes. -/
theorem relieveText_runs {tr : EditTransaction} {m : Option EditMetadata}
    (hruns : d.ReliefRuns env tr m) :
    ∃ n, d.ReliefTakes env (textNeed env.layout tr.edits) n ∧ 0 < n ∧ n ≤ d.historyLength ∧
      d.relieveText ownRelief env tr m = .ok (d.without n) := by
  obtain ⟨hroom, hchecks, hmissing⟩ := hruns
  obtain ⟨n, htakes, hdoc⟩ := relieveHistory_text hroom (textNeed_le _ _) hmissing
  obtain ⟨hpos, hle⟩ := htakes.pos hroom hmissing
  refine ⟨n, htakes, hpos, hle, ?_⟩
  rw [relieveText, if_pos hroom, hchecks]
  exact congrArg Except.ok hdoc

theorem ReliefTakes.unique {i j : Nat} (hi : d.ReliefTakes env need i)
    (hj : d.ReliefTakes env need j) : i = j := by
  rcases Nat.lt_trichotomy i j with h | h | h
  · exact absurd hi.1 (hj.2 i h)
  · exact h
  · exact absurd hj.1 (hi.2 j h)

/-- Checked transactions go straight to the staged part. -/
theorem applyRelieved_checked {worlds : Nat → Env} {tr : EditTransaction}
    {m : Option EditMetadata} (h : d.reliefChecks tr m = .ok ()) :
    d.applyRelieved ownRelief worlds tr m = d.applyStaged ownRelief worlds tr m := by
  cases m with
  | some m => rfl
  | none =>
    rw [reliefChecks] at h
    split at h
    · cases h
    next edits hcheck =>
    obtain ⟨hbase, hne, -⟩ := checkTransaction_ok hcheck
    rw [applyRelieved, if_neg (by simp [hbase]), if_neg (by simpa using hne)]

end Document

/-- A rejected edit leaves the document as it was, a malformed after-selection apart,
exactly when no relief ran for it or staging is covered by what relief left. -/
theorem rejection_keeps_document_iff {d : Document} (hd : Reachable d) (worlds : Nat → Env)
    (tr : EditTransaction) (m : Option EditMetadata) :
    (∀ e d', d.applyRelieved Document.ownRelief worlds tr m = (.error e, d') →
      ¬d.CausedByAfter tr m e → d' = d) ↔
    (¬d.ReliefRuns (worlds 0) tr m ∨ d.StagingCovered (worlds 0) tr) := by
  have hroot := hd.wf.root
  by_cases hruns : d.ReliefRuns (worlds 0) tr m
  · obtain ⟨n, htakes, hpos, hle, hrelief⟩ := Document.relieveText_runs hruns
    have hev := Document.without_evicts d n
    have hcheck : ∃ edits, d.checkTransaction tr = .ok edits ∧ edits = sortEdits tr.edits := by
      have hchecks := hruns.2.1
      rw [Document.reliefChecks] at hchecks
      split at hchecks
      · cases hchecks
      next edits hcheck => exact ⟨edits, hcheck, (Document.checkTransaction_ok hcheck).2.2.1⟩
    obtain ⟨edits, hcheck, rfl⟩ := hcheck
    rw [← Document.checkTransaction_current hev.current] at hcheck
    have hstage := Document.stage_ok_iff (worlds 0) (hev.current ▸ hroot) hcheck
    rw [hev.current] at hstage
    constructor
    · intro hkeeps
      refine Or.inr ⟨n, htakes, hstage.mp ?_⟩
      cases hst : (d.without n).stage (worlds 0) tr with
      | ok r => exact ⟨r, rfl⟩
      | error e =>
        -- a failure here would leave the document without the entries relief took
        have hcall : d.applyRelieved Document.ownRelief worlds tr m = (.error e, d.without n) := by
          rw [Document.applyRelieved_checked hruns.2.1, Document.applyStaged, hrelief]
          simp only [hst]
        have hsame := hkeeps e _ hcall fun hcaused => by
          have he := Document.stage_error hcheck hst
          rcases hcaused.1 with h | h <;> rw [h] at he <;> cases he
        have hlen := congrArg Document.historyLength hsame
        rw [Document.without_historyLength] at hlen
        omega
    · rintro (hno | ⟨n', htakes', hfits⟩) e d' hcall hnot
      · exact absurd hruns hno
      · rw [Document.applyRelieved_checked hruns.2.1] at hcall
        obtain ⟨-, herr | ⟨p, heap, md, rfl, hst, hchecks⟩⟩ :=
          Document.applyStaged_error hroot hev hrelief hcall
        · rw [htakes'.unique htakes] at hfits
          obtain ⟨r, hr⟩ := hstage.mpr hfits
          rw [hr] at herr
          cases herr
        · refine absurd ?_ hnot
          have hst' := Document.stage_spec (hev.current ▸ hroot) hst
          have hcaused := Document.metadataChecks_error hst'
            (by rw [Document.reliefChecks_current hev.current]; exact hruns.2.1) hchecks
          simpa only [Document.CausedByAfter, Document.MalformedAfter, hev.current] using hcaused
  · refine ⟨fun _ => Or.inl hruns, fun _ e d' hcall _ => ?_⟩
    have hstaged : ∀ {d'}, d.applyStaged Document.ownRelief worlds tr m = (.error e, d') →
        d' = d := by
      intro d' hcall
      cases hrelief : d.relieveText Document.ownRelief (worlds 0) tr m with
      | error e' =>
        rw [Document.applyStaged, hrelief] at hcall
        exact (Prod.mk.inj hcall).2.symm
      | ok d₁ =>
        obtain rfl := Document.relieveText_quiet hruns hrelief
        exact (Document.applyStaged_error hroot (Evicts.refl _) hrelief hcall).1
    cases m with
    | some m => exact hstaged hcall
    | none =>
      rw [Document.applyRelieved] at hcall
      split_ifs at hcall
      · exact (Prod.mk.inj hcall).2.symm
      · cases (Prod.mk.inj hcall).1
      · exact hstaged hcall

/-! ## §4 A rejected keystroke that costs the history -/

/-- A byte budget of 242 bytes; `unique` and `next` are the next fresh numbers. -/
def Env.tight (unique next : Nat) : Env :=
  { Env.roomy with
    bytesLimit := 242, contentState := unique, sequence := unique + 1, nextSegment := next }

/-- An empty document in which "Z" was typed and then replaced by "a". -/
def replacedDocument : Document :=
  let d := Document.opened none DocumentMetadata.default 1 2
  let d := (d.apply (fun _ => Env.tight 3 1) ⟨0, [⟨⟨0, 0⟩, [90]⟩]⟩).2
  (d.apply (fun _ => Env.tight 5 2) ⟨1, [⟨⟨0, 1⟩, [97]⟩]⟩).2

theorem replacedDocument_reachable : Reachable replacedDocument :=
  have h : Document.fromUtf8 ⟨242, 0, 1⟩ 1 2 [] =
      .ok (Document.opened none DocumentMetadata.default 1 2) := by decide +kernel
  ((Reachable.fromUtf8 h).step (Step.apply ownRelief_onlyEvicts _ _ none)).step
    (Step.apply ownRelief_onlyEvicts _ _ none)

/-- An insertion in front of the leaf joins nothing, so relief covers it: the edit is not
refused, and nothing is lost to a refusal. -/
theorem rejection_keeps_document_front :
    let tr : EditTransaction := ⟨2, [⟨⟨0, 0⟩, [98]⟩]⟩
    ∀ e d', replacedDocument.applyRelieved Document.ownRelief (fun _ => Env.tight 7 3) tr none =
      (.error e, d') → ¬replacedDocument.CausedByAfter tr none e → d' = replacedDocument :=
  (rejection_keeps_document_iff replacedDocument_reachable (fun _ => Env.tight 7 3) _ none).mpr
    (Or.inr ⟨2, by decide +kernel, by decide +kernel⟩)

/-- Typing "b" behind the "a": `text_need` is 121 bytes with 120 available, so both undo
entries are evicted for the one byte of "Z", and then the joined leaf "ab" leaves no room
for the receipt. -/
theorem rejected_keystroke_costs_history :
    let tr : EditTransaction := ⟨2, [⟨⟨1, 1⟩, [98]⟩]⟩
    let d' := (replacedDocument.apply (fun _ => Env.tight 7 3) tr).2
    (replacedDocument.apply (fun _ => Env.tight 7 3) tr).1 = .error .budgetExceeded ∧
      replacedDocument.undo.entries.length = 2 ∧ d'.undo.entries.length = 0 ∧
      ¬∀ (d : Document), Reachable d → ∀ (worlds : Nat → Env) (tr : EditTransaction)
        (m : Option EditMetadata) (e : Error) (d' : Document),
        d.applyRelieved Document.ownRelief worlds tr m = (.error e, d') →
        ¬d.CausedByAfter tr m e → d' = d := by
  intro tr d'
  have hresult : (replacedDocument.apply (fun _ => Env.tight 7 3) tr).1 =
      .error .budgetExceeded := by decide +kernel
  have hbefore : replacedDocument.undo.entries.length = 2 := by decide +kernel
  have hafter : d'.undo.entries.length = 0 := by decide +kernel
  refine ⟨hresult, hbefore, hafter, fun hkeeps => ?_⟩
  have hsame : d' = replacedDocument :=
    hkeeps replacedDocument replacedDocument_reachable (fun _ => Env.tight 7 3) tr none
      .budgetExceeded d' (pair_of_fst hresult) fun hcaused => by
        rcases hcaused.1 with h | h <;> cases h
  rw [hsame, hbefore] at hafter
  cases hafter

end BareLine
