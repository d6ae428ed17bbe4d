import BareLine.Document.Apply

/-!
# The room staging takes

`stage_ok_iff`: a valid transaction is staged exactly when the byte budget has room for the
text it inserts, for the leaf a typed insertion is joined into and for the receipt.  Relief
only asks for the inserted text and the receipt (`text_need`), so the two amounts differ.
-/

namespace BareLine

open Lib BareLine.Tree

/-! ## §1 Reserving text -/

/-- The budget with `bytes` more in use. -/
def Heap.charged (heap : Heap) (bytes : Nat) : Heap := { heap with used := heap.used + bytes }

theorem Heap.reserve_eq {heap : Heap} {bytes : Nat} (h : heap.used + bytes ≤ heap.limit) :
    heap.reserve bytes = .ok { heap with used := heap.used + bytes } := if_pos h

theorem Heap.reserve_error {heap : Heap} {bytes : Nat} (h : ¬heap.used + bytes ≤ heap.limit) :
    heap.reserve bytes = .error .budgetExceeded := if_neg h

/-- Text fits exactly when its bytes do; text of no bytes reserves nothing. -/
theorem textSegments_ok_iff (inserted : Bool) (t : Bytes) (root : Root) (heap : Heap) :
    (∃ r, textSegments inserted t root heap = .ok r) ↔
      t = [] ∨ heap.used + t.length ≤ heap.limit := by
  fun_induction textSegments inserted t root heap with
  | case1 root heap => simp
  | case2 t root heap hne n e hres =>
    have hn : n ≤ t.length := chunkLen_le t
    have hover : ¬heap.used + n ≤ heap.limit := by
      intro hle
      rw [Heap.reserve_eq hle] at hres
      cases hres
    simp only [reduceCtorEq, exists_false, hne, false_or, false_iff]
    omega
  | case3 t root heap hne n heap₁ hres segment ih =>
    have hn : n ≤ t.length := chunkLen_le t
    obtain ⟨hle, rfl⟩ := Heap.reserve_ok hres
    rw [ih]
    simp only [hne, false_or, List.length_drop, List.drop_eq_nil_iff]
    omega

/-- Bytes all edits insert. -/
def insertedBytes (es : List Edit) : Nat := (es.map fun e => e.insert.length).sum

theorem stageInserts_ok_iff (es : List Edit) (heap : Heap) :
    (∃ r, stageInserts es heap = .ok r) ↔
      insertedBytes es = 0 ∨ heap.used + insertedBytes es ≤ heap.limit := by
  induction es generalizing heap with
  | nil => exact ⟨fun _ => Or.inl rfl, fun _ => ⟨_, rfl⟩⟩
  | cons e es ih =>
    have hsum : insertedBytes (e :: es) = e.insert.length + insertedBytes es := by
      simp [insertedBytes]
    have hfirst := textSegments_ok_iff true e.insert none heap
    rw [stageInserts, hsum]
    cases hfrom : fromInsertedText e.insert heap with
    | error err =>
      rw [fromInsertedText] at hfrom
      simp only [hfrom, reduceCtorEq, exists_false, false_iff, not_or] at hfirst ⊢
      have := List.length_pos_iff.mpr hfirst.1
      omega
    | ok r =>
      obtain ⟨root, heap₁⟩ := r
      obtain ⟨-, -, hused, hlimit⟩ := textSegments_spec (rootWf_none .resident) hfrom
      have hrest := ih heap₁
      have hthis : e.insert = [] ∨ heap.used + e.insert.length ≤ heap.limit :=
        hfirst.mp ⟨_, hfrom⟩
      have hfit : e.insert.length = 0 ∨ heap.used + e.insert.length ≤ heap.limit :=
        hthis.imp_left fun h => by rw [h]; rfl
      rw [hused, hlimit] at hrest
      dsimp only
      cases hrest' : stageInserts es heap₁ with
      | error err =>
        simp only [hrest', reduceCtorEq, exists_false, false_iff, not_or] at hrest ⊢
        omega
      | ok r =>
        have hright := hrest.mp ⟨r, hrest'⟩
        refine ⟨fun _ => ?_, fun _ => ⟨_, rfl⟩⟩
        omega

/-- What the inserts charge. -/
theorem stageInserts_used {es : List Edit} {heap heap' : Heap} {roots : List Root}
    (h : stageInserts es heap = .ok (roots, heap')) :
    heap'.used = heap.used + insertedBytes es ∧ heap'.limit = heap.limit := by
  induction es generalizing heap heap' roots with
  | nil =>
    obtain ⟨-, rfl⟩ := Prod.mk.inj (Except.ok.inj h)
    simp [insertedBytes]
  | cons e es ih =>
    rw [stageInserts] at h
    split at h
    · cases h
    next root heap₁ hfrom =>
    split at h
    · cases h
    next roots' heap₂ hrest =>
    obtain ⟨-, rfl⟩ := Prod.mk.inj (Except.ok.inj h)
    obtain ⟨-, -, hused, hlimit⟩ := textSegments_spec (rootWf_none .resident) hfrom
    obtain ⟨hu, hl⟩ := ih hrest
    have hsum : insertedBytes (e :: es) = e.insert.length + insertedBytes es := by
      simp [insertedBytes]
    exact ⟨by rw [hu, hused, hsum]; omega, hl.trans hlimit⟩

/-! ## §2 Offsets after the edits -/

/-- End of the last edit in the text after the transaction. -/
def afterEnd : Nat → Nat → List Edit → Nat
  | _, c', [] => c'
  | c, c', e :: es => afterEnd e.range.stop (c' + (e.range.start - c) + e.insert.length) es

theorem le_afterEnd (c c' : Nat) (es : List Edit) : c' ≤ afterEnd c c' es := by
  induction es generalizing c c' with
  | nil => exact Nat.le_refl _
  | cons e es ih =>
    have := ih e.range.stop (c' + (e.range.start - c) + e.insert.length)
    rw [afterEnd]
    omega

/-- The recorded offsets fit `usize` exactly when the last one does. -/
theorem ownEdits_ok_iff (root : Root) (c c' : Nat) (hc : c' ≤ usizeMax)
    (staged : List (Edit × Root)) :
    (∃ owned, ownEdits root c c' staged = .ok owned) ↔
      afterEnd c c' (staged.map Prod.fst) ≤ usizeMax := by
  induction staged generalizing c c' with
  | nil => exact ⟨fun _ => hc, fun _ => ⟨_, rfl⟩⟩
  | cons s rest ih =>
    obtain ⟨e, inserted⟩ := s
    have hle := le_afterEnd e.range.stop (c' + (e.range.start - c) + e.insert.length)
      (rest.map Prod.fst)
    rw [ownEdits, List.map_cons, afterEnd]
    by_cases h1 : c' + (e.range.start - c) ≤ usizeMax
    · rw [checkedAdd, if_pos h1]
      by_cases h2 : c' + (e.range.start - c) + e.insert.length ≤ usizeMax
      · simp only [checkedAdd, if_pos h2]
        rw [← ih e.range.stop _ h2]
        cases ownEdits root e.range.stop (c' + (e.range.start - c) + e.insert.length) rest with
        | error err => simp
        | ok owned => exact ⟨fun _ => ⟨_, rfl⟩, fun _ => ⟨_, rfl⟩⟩
      · simp only [checkedAdd, if_neg h2, reduceCtorEq, exists_false, false_iff]
        omega
    · simp only [checkedAdd, if_neg h1, reduceCtorEq, exists_false, false_iff]
      omega

theorem ownEdits_length {root : Root} {c c' : Nat} {staged : List (Edit × Root)}
    {owned : List OwnedEdit} (h : ownEdits root c c' staged = .ok owned) :
    owned.length = staged.length := by
  induction staged generalizing c c' owned with
  | nil =>
    obtain rfl := Except.ok.inj h
    rfl
  | cons s rest ih =>
    rw [ownEdits] at h
    split at h
    · cases h
    split at h
    · cases h
    split at h
    · cases h
    next hrest =>
    obtain rfl := Except.ok.inj h
    simp [ih hrest]

/-! ## §3 The leaf a typed insertion joins -/

/-- Length of the leaf that a single insertion at a caret is joined into: the small
inserted leaf that ends at the caret, with the new text. -/
def joinedLength (root : Root) : List Edit → Option Nat
  | [e] =>
    if e.range.isEmpty then
      (lastLeaf (split (split root e.range.stop).1 e.range.start).1).bind fun piece =>
        let length := piece.range.stop - piece.range.start
        if e.insert.length = 0 ∨ piece.segment.inserted = false ∨ piece.segment.origin.isSome ∨
            saturatingAdd length e.insert.length > TYPED_LEAF_BYTES then none
        else some (length + e.insert.length)
    else none
  | _ => none

/-- Bytes the joined leaf charges; it is given up when they do not fit. -/
def joinBytes (heap : Heap) (length : Option Nat) : Nat :=
  length.elim 0 fun n => if heap.used + n ≤ heap.limit then n else 0

/-- The text of a joined leaf has the length its lengths promise. -/
theorem coalescedText_length {left right : Root} (hl : RootWf .resident left)
    (hr : RootWf .resident right) (limit : Nat) :
    (coalescedText left right limit).map (fun r => r.2.length) =
      (lastLeaf left).bind fun piece =>
        let length := piece.range.stop - piece.range.start
        if (text right).length = 0 ∨ piece.segment.inserted = false ∨
            piece.segment.origin.isSome ∨ saturatingAdd length (text right).length > limit then none
        else some (length + (text right).length) := by
  rw [coalescedText, hr.bytes]
  cases hlast : lastLeaf left with
  | none => rfl
  | some piece =>
    simp only [Option.bind_some]
    obtain ⟨node, hnode, hleaf⟩ := Option.bind_eq_some_iff.mp hlast
    obtain ⟨hpiece, -⟩ := lastLeafNode_suffix (hl node hnode) hleaf
    split_ifs with hno hlen
    · rfl
    · exact congrArg some hlen
    · refine absurd ?_ hlen
      rw [List.length_append, hpiece.length, chunks_eq hr (Nat.le_refl _),
        Range.of_all (Nat.le_refl _)]

/-- A joined leaf is charged when it fits; otherwise the pieces stay apart at no charge. -/
theorem concatCoalesced_used (left right : Root) (limit : Nat) (heap : Heap) :
    (concatCoalesced left right limit heap).2.used =
        heap.used + joinBytes heap ((coalescedText left right limit).map fun r => r.2.length) ∧
      (concatCoalesced left right limit heap).2.limit = heap.limit := by
  rw [concatCoalesced]
  split
  next length joined hjoin =>
    rw [hjoin]
    have hfit := textSegments_ok_iff true joined none heap
    split
    next leaf heap' hleaf =>
      obtain ⟨-, -, hused, hlimit⟩ := textSegments_spec (rootWf_none .resident) hleaf
      refine ⟨?_, hlimit⟩
      simp only [hused, joinBytes, Option.map_some, Option.elim_some]
      rcases hfit.mp ⟨_, hleaf⟩ with hnil | hle
      · simp [hnil]
      · rw [if_pos hle]
    next e hleaf =>
      rw [fromInsertedText] at hleaf
      simp only [hleaf, reduceCtorEq, exists_false, false_iff, not_or] at hfit
      simp only [joinBytes, Option.map_some, Option.elim_some, if_neg hfit.2, Nat.add_zero,
        and_self]
  next hnone =>
    rw [hnone]
    exact ⟨rfl, rfl⟩

/-- What building the new root charges on top of the inserted text. -/
theorem foldr_spliceRoot_used {root : Root} (hroot : RootWf .resident root)
    {staged : List (Edit × Root)} (heap : Heap)
    (hstaged : ∀ s ∈ staged, RootWf .resident s.2 ∧ text s.2 = s.1.insert)
    (hord : Ordered 0 (staged.map fun s => s.1.toSplice) (text root).length) :
    (staged.foldr (spliceRoot (staged.length == 1)) (root, heap)).2.used =
        heap.used + joinBytes heap (joinedLength root (staged.map Prod.fst)) ∧
      (staged.foldr (spliceRoot (staged.length == 1)) (root, heap)).2.limit = heap.limit := by
  match staged with
  | [] => exact ⟨rfl, rfl⟩
  | [s] =>
    obtain ⟨e, inserted⟩ := s
    obtain ⟨hins, htext⟩ := hstaged _ List.mem_cons_self
    simp only at hins htext
    simp only [List.length_singleton, BEq.rfl, List.foldr_cons, List.foldr_nil, List.map_cons,
      List.map_nil, joinedLength, spliceRoot, Bool.true_and]
    split_ifs with hempty
    · have hstop : e.range.stop ≤ (text root).length := hord.2.2
      have hstart : e.range.start ≤ e.range.stop := hord.2.1
      obtain ⟨⟨hlw, hlt⟩, -⟩ := split_spec hroot e.range.stop hstop
      obtain ⟨⟨hsw, -⟩, -⟩ := split_spec hlw e.range.start
        (by rw [hlt, List.length_take]; omega)
      rw [← htext, ← coalescedText_length hsw hins TYPED_LEAF_BYTES]
      exact concatCoalesced_used _ _ _ _
    · exact ⟨rfl, rfl⟩
  | s :: s' :: rest =>
    have hkeep : ∀ staged : List (Edit × Root),
        (staged.foldr (spliceRoot false) (root, heap)).2 = heap := by
      intro staged
      induction staged with
      | nil => rfl
      | cons s rest ih => simpa [spliceRoot] using ih
    have hsingle : ((s :: s' :: rest).length == 1) = false := by simp
    rw [hsingle, hkeep]
    exact ⟨rfl, rfl⟩

/-! ## §4 Staging as a whole -/

/-- The byte budget holds everything staging the sorted `edits` charges: the inserted
text, the joined leaf and the receipt; and the offsets after the edits fit `usize`. -/
def StagingFits (sizes : Layout) (heap : Heap) (root : Root) (edits : List Edit) : Prop :=
  let es := stagedEdits root edits
  let filled := heap.charged (insertedBytes es)
  afterEnd 0 0 es ≤ usizeMax ∧ ∃ receipt, receiptBytes sizes es.length = some receipt ∧
    filled.used + joinBytes filled (joinedLength root es) + receipt ≤ heap.limit

instance (sizes : Layout) (heap : Heap) (root : Root) (edits : List Edit) :
    Decidable (StagingFits sizes heap root edits) :=
  let es := stagedEdits root edits
  let filled := heap.charged (insertedBytes es)
  decidable_of_iff (afterEnd 0 0 es ≤ usizeMax ∧
      (receiptBytes sizes es.length).any fun receipt =>
        decide (filled.used + joinBytes filled (joinedLength root es) + receipt ≤ heap.limit))
    (by simp only [StagingFits, Option.any_eq_true, decide_eq_true_eq, es, filled])

theorem AppliedChange.owned_ok_iff (sizes : Layout) (documentId beforeRevision afterRevision
    beforeState afterState : Nat) (direction : ChangeDirection) (edits : List OwnedEdit)
    (heap : Heap) :
    (∃ r, AppliedChange.owned sizes documentId beforeRevision afterRevision beforeState afterState
      direction edits heap = .ok r) ↔
      ∃ receipt, receiptBytes sizes edits.length = some receipt ∧
        heap.used + receipt ≤ heap.limit := by
  rw [AppliedChange.owned]
  cases receiptBytes sizes edits.length with
  | none => simp
  | some receipt =>
    by_cases h : heap.used + receipt ≤ heap.limit
    · simp [Heap.reserve_eq h, Except.map, h]
    · simp [Heap.reserve_error h, Except.map, h]

/-- A transaction that passes its checks is staged exactly when it fits. -/
theorem Document.stage_ok_iff (env : Env) {d : Document} {tr : EditTransaction}
    {edits : List Edit} (hroot : RootWf .resident d.current.root)
    (hcheck : d.checkTransaction tr = .ok edits) :
    (∃ r, d.stage env tr = .ok r) ↔
      StagingFits env.layout (env.heap d) d.current.root edits := by
  obtain ⟨-, -, rfl, hedits, revision, hrev⟩ := checkTransaction_ok hcheck
  have hord : Ordered 0 ((sortEdits tr.edits).map Edit.toSplice) (text d.current.root).length := by
    rw [← hroot.bytes]
    exact checkEdits_ordered none (fun _ hp => nomatch hp) hedits
  obtain ⟨hsord, -⟩ := stagedEdits_spec hroot hord
  generalize hes : stagedEdits d.current.root (sortEdits tr.edits) = es at *
  simp only [stage, bind_ok, hcheck, hrev, Except.ok.injEq, exists_eq_left', hes, StagingFits]
  have hinserts := stageInserts_ok_iff es (env.heap d)
  have hkey : ∀ {inserts : List Root} {heap₁ : Heap},
      stageInserts es (env.heap d) = .ok (inserts, heap₁) →
      ((∃ owned, ownEdits d.current.root 0 0 (es.zip inserts) = .ok owned) ↔
        afterEnd 0 0 es ≤ usizeMax) ∧
      (es.zip inserts).length = es.length ∧
      let filled := (env.heap d).charged (insertedBytes es)
      let heap₂ := ((es.zip inserts).foldr (spliceRoot (es.length == 1))
        (d.current.root, heap₁)).2
      heap₂.used = filled.used + joinBytes filled (joinedLength d.current.root es) ∧
        heap₂.limit = (env.heap d).limit := by
    intro inserts heap₁ hins
    obtain ⟨hlen, hfst, hstaged⟩ := stageInserts_zip hins
    obtain ⟨hused, hlimit⟩ := stageInserts_used hins
    have hmap : (es.zip inserts).map (fun s => s.1.toSplice) = es.map Edit.toSplice :=
      (List.map_map (f := Prod.fst) (g := Edit.toSplice)).symm.trans (by rw [hfst])
    have hzlen : (es.zip inserts).length = es.length := by simp [hlen]
    have hown := ownEdits_ok_iff d.current.root 0 0 (Nat.zero_le _) (es.zip inserts)
    obtain ⟨hu, hl⟩ := foldr_spliceRoot_used hroot heap₁ hstaged (by rwa [hmap])
    rw [hfst] at hown hu
    rw [hzlen] at hu hl
    have hjoin : joinBytes heap₁ = joinBytes ((env.heap d).charged (insertedBytes es)) := by
      funext length
      simp only [joinBytes, hused, hlimit]
      rfl
    exact ⟨hown, hzlen, by rw [hu, hused, hjoin]; rfl, hl.trans hlimit⟩
  constructor
  · rintro ⟨r, ⟨inserts, heap₁⟩, hins, owned, hown, ⟨change, heap₂⟩, hchange, -⟩
    obtain ⟨hend, hlen, hu, hl⟩ := hkey hins
    obtain ⟨receipt, hreceipt, hfit⟩ := (AppliedChange.owned_ok_iff _ _ _ _ _ _ _ _ _).mp ⟨_, hchange⟩
    rw [ownEdits_length hown, hlen] at hreceipt
    dsimp only at hfit
    rw [hu, hl] at hfit
    exact ⟨hend.mp ⟨owned, hown⟩, receipt, hreceipt, hfit⟩
  · rintro ⟨hend, receipt, hreceipt, hfit⟩
    obtain ⟨⟨inserts, heap₁⟩, hins⟩ := hinserts.mpr (Or.inr (by
      simp only [Heap.charged] at hfit; omega))
    obtain ⟨hown, hlen, hu, hl⟩ := hkey hins
    obtain ⟨owned, hown⟩ := hown.mpr hend
    obtain ⟨⟨change, heap₂⟩, hchange⟩ := (AppliedChange.owned_ok_iff env.layout
      d.current.documentId d.current.revision revision d.current.contentState env.contentState
      .edit owned _).mpr
      ⟨receipt, by rw [ownEdits_length hown, hlen]; exact hreceipt, by rw [hu, hl]; exact hfit⟩
    exact ⟨_, ⟨inserts, heap₁⟩, hins, owned, hown, ⟨change, heap₂⟩, hchange, rfl⟩

end BareLine
