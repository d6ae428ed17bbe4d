import BareLine.Codec.Provenance

/-!
# Exact reads of the original bytes

Reading walks the layout: valid text from the document, units from the opaque bytes, each
clipped to the range.  The parts of a concatenation are the parts of its pieces, so what is
visited is the range of the raw bytes.
-/

namespace BareLine.Codec

open Lib

/-! ## §1 Parts -/

/-- The bytes of a segment that lie in the range. -/
def inside (range : Range) (position : Nat) (bytes : Bytes) : Bytes :=
  (⟨range.start - position, range.stop - position⟩ : Range).of bytes

theorem clip_eq (range : Range) (position length : Nat) :
    clip range position length =
      ⟨min (range.start - position) length, min (range.stop - position) length⟩ := by
  simp only [clip, clamp, Range.mk.injEq]
  omega

theorem part_flatten (range : Range) (position : Nat) (bytes : Bytes) :
    (part range position bytes).flatten = inside range position bytes := by
  have hof : (clip range position bytes.length).of bytes = inside range position bytes := by
    rw [clip_eq, Range.of_clamp]
    rfl
  unfold part
  split_ifs with hempty
  · rw [← hof, Range.of_eq_nil, List.flatten_nil]
    exact Nat.le_trans (Nat.min_le_left _ _) (Range.isEmpty_iff.mp hempty)
  · rw [List.flatten_cons, List.flatten_nil, List.append_nil, hof]

theorem inside_append (range : Range) (position : Nat) (s t : Bytes) :
    inside range position (s ++ t) =
      inside range position s ++ inside range (position + s.length) t := by
  simp only [inside, Range.of_append, Nat.sub_sub]

theorem inside_past {range : Range} {position : Nat} {bytes : Bytes}
    (h : range.stop ≤ position) : inside range position bytes = [] := by
  refine Range.of_eq_nil ?_
  show min (range.stop - position) bytes.length ≤ range.start - position
  omega

theorem inside_before {range : Range} {position : Nat} {bytes : Bytes}
    (h : position + bytes.length ≤ range.start) : inside range position bytes = [] := by
  refine Range.of_eq_nil ?_
  show min (range.stop - position) bytes.length ≤ range.start - position
  omega

theorem inside_zero (range : Range) (bytes : Bytes) : inside range 0 bytes = range.of bytes := rfl

/-- The loop over chunks visits the range of what they make up. -/
theorem slices_flatten (range : Range) (position : Nat) (chunks : List Bytes) :
    (slices range position chunks).flatten = inside range position chunks.flatten := by
  induction chunks generalizing position with
  | nil =>
    rw [slices, List.flatten_nil, inside, Range.of]
    simp
  | cons chunk rest ih =>
    rw [slices, List.flatten_append, part_flatten, ih, List.flatten_cons, inside_append]

/-! ## §2 Valid text -/

variable {root : Tree.Root}

theorem isBoundary_iff (h : Tree.RootWf .resident root) {o : Nat} :
    isBoundary root o = true ↔
      o ≤ (Tree.text root).length ∧ atBoundary (Tree.text root) o = true := by
  rw [isBoundary, h.bytes, Tree.boundary_eq h, Bool.and_eq_true, decide_eq_true_eq]

/-- A clean text starts at a boundary. -/
theorem isBoundary_zero (h : Tree.RootWf .resident root) (hclean : Clean (Tree.text root)) :
    isBoundary root 0 = true := by
  rw [isBoundary_iff h]
  refine ⟨Nat.zero_le _, ?_⟩
  unfold atBoundary
  cases htext : Tree.text root with
  | nil => rfl
  | cons b t =>
    rw [htext] at hclean
    have hb := hclean b rfl
    simp [hb]

theorem boundaryDown_spec (hzero : isBoundary root 0 = true) (a : Nat) :
    ∃ start, boundaryDown root a = some start ∧ start ≤ a ∧ isBoundary root start = true := by
  induction a with
  | zero => exact ⟨0, if_pos hzero, Nat.le_refl _, hzero⟩
  | succ a ih =>
    rw [boundaryDown]
    by_cases hb : isBoundary root (a + 1) = true
    · exact ⟨a + 1, if_pos hb, Nat.le_refl _, hb⟩
    · obtain ⟨start, hstart, hle, hboundary⟩ := ih
      exact ⟨start, by rw [if_neg hb, hstart], Nat.le_succ_of_le hle, hboundary⟩

theorem boundaryUp_spec (h : Tree.RootWf .resident root) {fuel b : Nat}
    (hfuel : b + fuel = (Tree.text root).length + 1) (hle : b ≤ (Tree.text root).length) :
    ∃ stop, boundaryUp root fuel b = some stop ∧ b ≤ stop ∧ stop ≤ (Tree.text root).length ∧
      isBoundary root stop = true := by
  induction fuel generalizing b with
  | zero => omega
  | succ fuel ih =>
    rw [boundaryUp]
    by_cases hb : isBoundary root b = true
    · exact ⟨b, if_pos hb, Nat.le_refl _, hle, hb⟩
    · have hne : b ≠ (Tree.text root).length := by
        rintro rfl
        refine hb ((isBoundary_iff h).mpr ⟨hle, ?_⟩)
        simp [atBoundary]
      obtain ⟨stop, hstop, hbs, hsl, hboundary⟩ := ih (b := b + 1) (by omega) (by omega)
      exact ⟨stop, by rw [if_neg hb, hstop], by omega, hsl, hboundary⟩

theorem baselineChunks_spec (h : Tree.RootWf .resident root) {range : Range}
    (horder : range.start ≤ range.stop) (hstart : isBoundary root range.start = true)
    (hstop : isBoundary root range.stop = true) :
    ∃ chunks, baselineChunks root range = .ok chunks ∧
      chunks.flatten = range.of (Tree.text root) := by
  have hle := ((isBoundary_iff h).mp hstop).1
  unfold baselineChunks
  rw [h.bytes, if_neg (by omega), if_neg (by simp [hstart, hstop])]
  by_cases hempty : range.isEmpty = true
  · have hnil := Range.isEmpty_iff.mp hempty
    refine ⟨[], if_pos hempty, ?_⟩
    rw [Range.of_eq_nil (Nat.le_trans (Nat.min_le_left _ _) hnil)]
    rfl
  · rw [if_neg hempty]
    have hlt : range.start < range.stop := by
      by_contra hnot
      exact hempty (Range.isEmpty_iff.mpr (Nat.le_of_not_lt hnot))
    cases root with
    | none =>
      have hlength : (Tree.text none).length = 0 := rfl
      omega
    | some node =>
      exact ⟨_, rfl, (Tree.chunksNode_spec (Tree.rootWf_some.mp h) hle hlt).2⟩

namespace ResidentEncoding

/-- Valid text is read from the document as it is, wherever the range cuts a character. -/
theorem visitValid_spec {e : ResidentEncoding} (h : Tree.RootWf .resident e.baseline)
    (hclean : Clean (Tree.text e.baseline)) {a b : Nat} (hab : a ≤ b)
    (hb : b ≤ (Tree.text e.baseline).length) :
    ∃ parts, e.visitValid a b = some (.ok parts) ∧
      parts.flatten = (⟨a, b⟩ : Range).of (Tree.text e.baseline) := by
  obtain ⟨start, hstart, hsa, hstartb⟩ := boundaryDown_spec (isBoundary_zero h hclean) a
  have hfuel : b + ((Tree.summary e.baseline).bytes + 1 - b) =
      (Tree.text e.baseline).length + 1 := by
    rw [h.bytes]
    omega
  obtain ⟨stop, hstop, hbs, hsl, hstopb⟩ := boundaryUp_spec h hfuel hb
  have horder : start ≤ stop := Nat.le_trans hsa (Nat.le_trans hab hbs)
  obtain ⟨chunks, hchunks, hflat⟩ :=
    @baselineChunks_spec _ h ⟨start, stop⟩ horder hstartb hstopb
  refine ⟨slices ⟨a, b⟩ start chunks, ?_, ?_⟩
  · rw [visitValid, hstart, Option.bind_eq_bind, Option.bind_some, hstop, Option.bind_some]
    simp only [hchunks]
  · have hcut : start + (b - start) ≤ stop := by omega
    rw [slices_flatten, hflat, inside, Range.of_of hcut, Nat.add_sub_cancel' hsa,
      Nat.add_sub_cancel' (Nat.le_trans hsa hab)]

end ResidentEncoding

/-! ## §3 Units -/

theorem mapsFrom_append (t q : Nat) (front back : List Segment) :
    mapsFrom t q (front ++ back) = mapsFrom t q front ++
      mapsFrom (t + (textOf front []).length) (q + (opaqueOf front).length) back := by
  induction front generalizing t q with
  | nil => rfl
  | cons s front ih =>
    obtain ⟨v, o⟩ := s
    have ht : t + v.length + REPLACEMENT_LEN + (textOf front []).length =
        t + (textOf ((v, o) :: front) []).length := by
      simp only [textOf_cons, List.length_append, replacement_length]
      omega
    have hq : q + o.length + (opaqueOf front).length =
        q + (opaqueOf ((v, o) :: front)).length := by
      simp only [opaqueOf_cons, List.length_append]
      omega
    rw [List.cons_append, mapsFrom, mapsFrom, ih, ht, hq, List.cons_append]

theorem textOf_append (front back : List Segment) (tail : Bytes) :
    textOf (front ++ back) tail = textOf front [] ++ textOf back tail := by
  simp [textOf]

theorem rawOf_append (front back : List Segment) (tail : Bytes) :
    rawOf (front ++ back) tail = rawOf front [] ++ rawOf back tail := by
  simp [rawOf]

theorem opaqueOf_append (front back : List Segment) :
    opaqueOf (front ++ back) = opaqueOf front ++ opaqueOf back := by
  simp [opaqueOf]

/-- The encoding describes a file laid out so. -/
structure Layout (e : ResidentEncoding) (segs : List Segment) (tail : Bytes) : Prop where
  wf : Tree.RootWf .resident e.baseline
  clean : Clean (Tree.text e.baseline)
  text : Tree.text e.baseline = textOf segs tail
  mapping : e.mapping.map (fun m => (m.text, m.raw)) = mapsFrom 0 0 segs
  raw : e.raw = opaqueOf segs
  originalLen : e.originalLen = (e.bomBytes ++ rawOf segs tail).length

variable {e : ResidentEncoding} {segs : List Segment} {tail : Bytes}

/-- Where the raw bytes of the first `k` units and the text before them end. -/
def endOf (e : ResidentEncoding) (segs : List Segment) (k : Nat) : Nat :=
  e.bomBytes.length + (rawOf (segs.take k) []).length

/-- The mapping and the start of one unit. -/
theorem Layout.unit (h : Layout e segs tail) {k : Nat} (hk : k < segs.length) :
    ∃ m, e.mapping[k]? = some m ∧ m.text.stop = (textOf (segs.take (k + 1)) []).length ∧
      ∃ start, e.unitStart k = some start ∧ start + m.raw.len = endOf e segs (k + 1) := by
  have hsplit : segs = segs.take k ++ segs[k] :: segs.drop (k + 1) := by
    rw [List.getElem_cons_drop hk, List.take_append_drop]
  have hnext : segs.take (k + 1) = segs.take k ++ [segs[k]] := by
    rw [List.take_add_one, List.getElem?_eq_getElem hk, Option.toList_some]
  obtain ⟨⟨v, o⟩, hseg⟩ : ∃ s, s = segs[k] := ⟨_, rfl⟩
  rw [← hseg] at hsplit hnext
  have htake : (segs.take k).length = k := List.length_take_of_le (Nat.le_of_lt hk)
  have hmaps := h.mapping
  rw [hsplit, mapsFrom_append, Nat.zero_add, Nat.zero_add, mapsFrom] at hmaps
  have hat := congrArg (fun l => l[k]?) hmaps
  have hfront : (mapsFrom 0 0 (segs.take k)).length = k := by rw [mapsFrom_length, htake]
  simp only [List.getElem?_map] at hat
  rw [List.getElem?_append_right (Nat.le_of_eq hfront), hfront, Nat.sub_self,
    List.getElem?_cons_zero, Option.map_eq_some_iff] at hat
  obtain ⟨m, hm, heq⟩ := hat
  obtain ⟨htext, hraw⟩ := Prod.mk.inj heq
  have hbalance := length_balance (segs.take k) []
  rw [htake] at hbalance
  refine ⟨m, hm, ?_, endOf e segs k + v.length, ?_, ?_⟩
  · rw [htext, hnext, textOf_snoc, List.length_append, List.length_append, replacement_length]
    have htail : (textOf (segs.take k) v).length = (textOf (segs.take k) []).length + v.length := by
      simp [textOf]
    rw [htail]
    rfl
  · rw [ResidentEncoding.unitStart, hm, Option.bind_eq_bind, Option.bind_some, htext, hraw,
      checkedSub_eq (by simp only; omega)]
    simp only [endOf, Option.some.injEq]
    omega
  · rw [hraw, endOf, endOf, hnext, rawOf_snoc]
    have htail : (rawOf (segs.take k) v).length = (rawOf (segs.take k) []).length + v.length := by
      simp [rawOf]
    simp only [Range.len, List.length_append, htail, List.length_nil]
    omega

/-- The search finds a unit before which everything ends at or before the start. -/
theorem Layout.firstUnit (h : Layout e segs tail) {start low high : Nat} (hlow : low ≤ high)
    (hhigh : high ≤ segs.length) (hbefore : low = 0 ∨ endOf e segs low ≤ start) :
    ∃ k, e.firstUnit start low high = some k ∧ k ≤ segs.length ∧
      (k = 0 ∨ endOf e segs k ≤ start) := by
  generalize hn : high - low = n
  induction n using Nat.strongRecOn generalizing low high with
  | ind n ih =>
    rw [ResidentEncoding.firstUnit]
    by_cases hlt : low < high
    · rw [dif_pos hlt]
      have hmid : low + (high - low) / 2 < high := by omega
      obtain ⟨m, hm, -, s, hs, hend⟩ := h.unit (Nat.lt_of_lt_of_le hmid hhigh)
      simp only [hs, hm, Option.bind_eq_bind, Option.bind_some]
      by_cases hle : s + m.raw.len ≤ start
      · rw [if_pos hle]
        exact ih (high - (low + (high - low) / 2 + 1)) (by omega) (by omega) hhigh
          (Or.inr (hend ▸ hle)) rfl
      · rw [if_neg hle]
        exact ih (low + (high - low) / 2 - low) (by omega) (by omega) (by omega) hbefore rfl
    · rw [dif_neg hlt]
      exact ⟨low, rfl, by omega, hbefore⟩

/-! ## §4 Walking -/

/-- Valid text that stands at the cursor. -/
theorem Layout.visitGap (h : Layout e segs tail) {front valid back : Bytes}
    (htext : Tree.text e.baseline = front ++ valid ++ back) (range : Range) (position : Nat) :
    ∃ parts, e.visitGap front.length (clip range position valid.length) = some (.ok parts) ∧
      parts.flatten = inside range position valid := by
  have hof : (clip range position valid.length).of valid = inside range position valid := by
    rw [clip_eq, Range.of_clamp]
    rfl
  have hstop : (clip range position valid.length).stop ≤ valid.length := by
    rw [clip_eq]
    exact Nat.min_le_right _ _
  generalize clip range position valid.length = r at hof hstop ⊢
  unfold ResidentEncoding.visitGap
  by_cases hempty : r.isEmpty = true
  · have hnil := Range.isEmpty_iff.mp hempty
    refine ⟨[], if_pos hempty, ?_⟩
    rw [← hof, Range.of_eq_nil (Nat.le_trans (Nat.min_le_left _ _) hnil)]
    rfl
  · have hlt : r.start ≤ r.stop := by
      by_contra hnot
      exact hempty (Range.isEmpty_iff.mpr (Nat.le_of_not_le hnot))
    have hlength : front.length + r.stop ≤ (Tree.text e.baseline).length := by
      rw [htext, List.length_append, List.length_append]
      omega
    obtain ⟨parts, hparts, hflat⟩ := ResidentEncoding.visitValid_spec h.wf h.clean
      (Nat.add_le_add_left hlt front.length) hlength
    refine ⟨parts, by rw [if_neg hempty, hparts], ?_⟩
    obtain ⟨a, b⟩ := r
    rw [hflat, ← hof, htext, List.append_assoc, Range.of_append_right, Range.of_append]
    have hnil : (⟨a - valid.length, b - valid.length⟩ : Range).of back = [] := by
      refine Range.of_eq_nil ?_
      show min (b - valid.length) back.length ≤ a - valid.length
      have hstop : b ≤ valid.length := hstop
      omega
    rw [hnil, List.append_nil]

/-- The bytes of a unit. -/
theorem opaqueBytes_spec {front bytes back : Bytes} (h : e.raw = front ++ bytes ++ back) :
    e.opaqueBytes ⟨front.length, front.length + bytes.length⟩ = some bytes := by
  have hle : front.length + bytes.length ≤ e.raw.length := by
    rw [h, List.length_append, List.length_append]
    omega
  have hof : (⟨front.length, front.length + bytes.length⟩ : Range).of e.raw = bytes := by
    have hat := @Range.of_append_right front (bytes ++ back) 0 bytes.length
    rw [Nat.add_zero, ← List.append_assoc, ← h] at hat
    rw [hat, Range.of_append, Range.of_all (Nat.le_refl _), Range.of_eq_nil, List.append_nil]
    simp
  rw [ResidentEncoding.opaqueBytes, if_pos ⟨Nat.le_add_right _ _, hle⟩, hof]

/-- From any unit on, the walk visits what the range has of the rest. -/
theorem Layout.walk (h : Layout e segs tail) (range : Range) {front back : List Segment}
    (hsegs : segs = front ++ back) (position : Nat) :
    ∃ parts, e.walk range position (textOf front []).length
      ((mapsFrom (textOf front []).length (opaqueOf front).length back).map
          (fun r => (r.1, some r.2)) ++
        [(⟨(Tree.summary e.baseline).bytes, (Tree.summary e.baseline).bytes⟩, none)]) =
        some (.ok parts) ∧ parts.flatten = inside range position (rawOf back tail) := by
  induction back generalizing front position with
  | nil =>
    have htext : Tree.text e.baseline = textOf front [] ++ tail ++ [] := by
      rw [h.text, hsegs, textOf_append]
      simp [textOf]
    rw [mapsFrom, List.map_nil, List.nil_append, ResidentEncoding.walk]
    by_cases hpast : position ≥ range.stop
    · exact ⟨[], if_pos hpast, (inside_past hpast).symm⟩
    rw [if_neg hpast]
    have hgap : checkedSub (Tree.summary e.baseline).bytes (textOf front []).length =
        some tail.length := by
      rw [h.wf.bytes, htext, List.append_nil, List.length_append,
        checkedSub_eq (Nat.le_add_right _ _), Nat.add_sub_cancel_left]
    obtain ⟨parts, hparts, hflat⟩ := h.visitGap htext range position
    simp only [hgap, hparts, Option.bind_eq_bind, Option.bind_some, Option.elim_none,
      ResidentEncoding.walk]
    refine ⟨_, rfl, ?_⟩
    dsimp only
    rw [List.append_nil, List.flatten_append, part_flatten, hflat]
    simp [rawOf, inside, Range.of]
  | cons s back ih =>
    obtain ⟨v, o⟩ := s
    have htext : Tree.text e.baseline = textOf front [] ++ v ++
        (REPLACEMENT ++ textOf back tail) := by
      rw [h.text, hsegs, textOf_append, textOf_cons]
      simp
    have hraw : e.raw = opaqueOf front ++ o ++ opaqueOf back := by
      rw [h.raw, hsegs, opaqueOf_append, opaqueOf_cons, List.append_assoc]
    have hsegs' : segs = (front ++ [(v, o)]) ++ back := by
      rw [hsegs, List.append_assoc]
      rfl
    have hcursor : (textOf (front ++ [(v, o)]) []).length =
        (textOf front []).length + v.length + REPLACEMENT_LEN := by
      rw [textOf_append, List.length_append, textOf_cons]
      simp [textOf, replacement_length, Nat.add_assoc]
    have hopaque : (opaqueOf (front ++ [(v, o)])).length =
        (opaqueOf front).length + o.length := by
      rw [opaqueOf_snoc, List.length_append]
    rw [mapsFrom, List.map_cons, List.cons_append, ResidentEncoding.walk]
    by_cases hpast : position ≥ range.stop
    · exact ⟨[], if_pos hpast, (inside_past hpast).symm⟩
    rw [if_neg hpast]
    have hgap : checkedSub ((textOf front []).length + v.length) (textOf front []).length =
        some v.length := by
      rw [checkedSub_eq (Nat.le_add_right _ _), Nat.add_sub_cancel_left]
    obtain ⟨parts, hparts, hflat⟩ := h.visitGap htext range position
    obtain ⟨more, hmore, hflatMore⟩ := ih hsegs' (position + v.length + o.length)
    rw [hcursor, hopaque] at hmore
    simp only [hgap, hparts, opaqueBytes_spec hraw, hmore, Option.bind_eq_bind, Option.bind_some,
      Option.elim_some]
    refine ⟨_, rfl, ?_⟩
    dsimp only
    rw [List.flatten_append, List.flatten_append, part_flatten, hflat, hflatMore, rawOf_cons,
      inside_append, inside_append, List.length_append, Nat.add_assoc]

/-- Any range of the original is read exactly. -/
theorem Layout.readOriginal (h : Layout e segs tail) {a b : Nat} (hab : a ≤ b)
    (hb : b ≤ e.originalLen) :
    e.readOriginal ⟨a, b⟩ =
      some (.ok ((⟨a, b⟩ : Range).of (e.bomBytes ++ rawOf segs tail))) := by
  obtain ⟨k, hfirst, hk, hbefore⟩ := @Layout.firstUnit _ _ _ h a 0 segs.length (Nat.zero_le _)
    (Nat.le_refl _) (Or.inl rfl)
  have hlength : e.mapping.length = segs.length := by
    rw [← List.length_map, h.mapping, mapsFrom_length]
  -- The walk starts behind the units that end at or before the range.
  obtain ⟨position, hposition⟩ : ∃ position, position = endOf e segs k := ⟨_, rfl⟩
  have hresume : e.resume k = some (position, (textOf (segs.take k) []).length) := by
    cases k with
    | zero =>
      rw [hposition]
      rfl
    | succ k =>
      obtain ⟨m, hm, htext, start, hs, hend⟩ := h.unit hk
      rw [ResidentEncoding.resume]
      simp only [hs, hm, Option.bind_eq_bind, Option.bind_some, hend, htext, hposition]
  have hdrop : (e.mapping.drop k).map (fun m => (m.text, some m.raw)) =
      (mapsFrom (textOf (segs.take k) []).length (opaqueOf (segs.take k)).length
        (segs.drop k)).map (fun r => (r.1, some r.2)) := by
    have hmaps := h.mapping
    rw [← List.take_append_drop k segs, mapsFrom_append, Nat.zero_add, Nat.zero_add] at hmaps
    have hback := congrArg (List.drop k) hmaps
    have hfront : (mapsFrom 0 0 (segs.take k)).length = k := by
      rw [mapsFrom_length, List.length_take_of_le hk]
    rw [← List.map_drop, List.drop_left' hfront] at hback
    rw [← hback, List.map_map]
    rfl
  obtain ⟨parts, hwalk, hflat⟩ := h.walk ⟨a, b⟩ (List.take_append_drop k segs).symm position
  have hskipped : inside ⟨a, b⟩ 0 (e.bomBytes ++ rawOf (segs.take k) []) ++ parts.flatten =
      (⟨a, b⟩ : Range).of (e.bomBytes ++ rawOf segs tail) := by
    have hsplit : rawOf segs tail = rawOf (segs.take k) [] ++ rawOf (segs.drop k) tail := by
      rw [← rawOf_append, List.take_append_drop]
    have hparts := inside_append ⟨a, b⟩ 0 (e.bomBytes ++ rawOf (segs.take k) [])
      (rawOf (segs.drop k) tail)
    rw [← inside_zero, hsplit, ← List.append_assoc, hparts, hflat, Nat.zero_add, hposition,
      List.length_append]
    rfl
  -- Of what lies before the walk only the mark can be in the range.
  have hbom : inside ⟨a, b⟩ 0 (e.bomBytes ++ rawOf (segs.take k) []) =
      inside ⟨a, b⟩ 0 e.bomBytes := by
    rw [inside_append, Nat.zero_add]
    rcases hbefore with rfl | hend
    · simp [rawOf, inside, Range.of]
    · have hnil : inside ⟨a, b⟩ e.bomBytes.length (rawOf (segs.take k) []) = [] :=
        inside_before hend
      rw [hnil, List.append_nil]
  have hguard : ¬(a > b ∨ b > e.originalLen) := by omega
  rw [ResidentEncoding.readOriginal, if_neg hguard, ResidentEncoding.visitOriginal, if_neg hguard]
  rw [hlength, hfirst]
  simp only [Option.bind_eq_bind, Option.bind_some, hresume, checkedSub_eq hk, hdrop, hwalk,
    Option.map_some]
  show some (Except.ok (part ⟨a, b⟩ 0 e.bomBytes ++ parts).flatten) = _
  rw [List.flatten_append, part_flatten, ← hbom, hskipped]

/-- A finished file is laid out as its units say, with its mark. -/
theorem finish_layout {total : Bytes} {b : ResidentBuilder} {e : ResidentEncoding}
    (h : Fed total total b) (hf : b.finish = .ok e) :
    ∃ segs tail, Layout e segs tail ∧ total = e.bomBytes ++ rawOf segs tail := by
  unfold ResidentBuilder.finish at hf
  split at hf
  · cases hf
  · rename_i c hdrain
    obtain ⟨bom, segs, tail, hc, htotal, hmark, hempty, -⟩ := h.drain hdrain
    by_cases hrebuilds : ResidentBuilder.rebuilds c b.received = true
    · rw [if_pos hrebuilds] at hf
      cases hf
      rw [h.received, rebuilds_iff hc hempty htotal] at hrebuilds
      have htext : Tree.text c.root = textOf segs tail := by
        rw [← hc.text, hempty, List.append_nil]
      have hbom : bom = (if c.bom then BOM else []) := by
        rcases hmark with rfl | ⟨rfl, -⟩
        · cases hb : c.bom with
          | true => rfl
          | false =>
            rw [hb] at hrebuilds
            cases hrebuilds
        · cases hb : c.bom with
          | true =>
            rw [hb] at hrebuilds
            cases hrebuilds
          | false => rfl
      rw [hbom] at htotal
      refine ⟨segs, tail, ⟨hc.wf, ?_, htext, hc.mapping, hc.opaqueRaw, ?_⟩, htotal⟩
      · show Clean (Tree.text c.root)
        rw [htext]
        exact hc.clean
      · show b.received = _
        rw [h.received, htotal]
        rfl
    · rw [if_neg hrebuilds] at hf
      cases hf

/-- A sample that tells the mark of the file: its front, of three bytes or all of it. -/
theorem bom_sample {sample total : Bytes} (hsample : sample <+: total)
    (hlong : BOM.length ≤ sample.length ∨ sample = total) :
    BOM.isPrefixOf sample = true ↔ BOM <+: total := by
  rw [List.isPrefixOf_iff_prefix]
  constructor
  · exact fun h => h.trans hsample
  · intro h
    rcases hlong with hlong | rfl
    · exact List.prefix_of_prefix_length_le h hsample hlong
    · exact h

/-- A file opened as UTF-8, in any pushes: every range of it reads back exactly, `finish`
refuses only where a quota or a budget did, and no index or subtraction is out of range. -/
theorem original_reads_exact {sample : Bytes} {heap : Heap} {rawLimit maxMappingBytes : Nat}
    {b b' : ResidentBuilder} {feeds : List ResidentBuilder.Feed}
    (hnew : ResidentBuilder.new sample heap rawLimit maxMappingBytes = .ok b)
    (hfeed : b.feed feeds = .ok b') :
    let raw := feeds.flatMap ResidentBuilder.Feed.bytes
    (∀ e, b'.finish = .ok e → e.originalLen = raw.length ∧ ∀ i j, i ≤ j → j ≤ raw.length →
      e.readOriginal ⟨i, j⟩ = some (.ok ((⟨i, j⟩ : Range).of raw))) ∧
    (sample <+: raw → BOM.length ≤ sample.length ∨ sample = raw →
      b'.finish = .error .limit → b'.drain = .error .exhausted) := by
  intro raw
  obtain ⟨hfed, hbom⟩ := @new_fed _ raw _ _ _ _ hnew
  have htotal : raw = [] ++ raw ++ [] := by rw [List.nil_append, List.append_nil]
  obtain ⟨hfed', hbom'⟩ := hfed.feed htotal hfeed
  rw [List.nil_append] at hfed'
  refine ⟨fun e hfinish => ?_, fun hsample hlong hlimit => ?_⟩
  · obtain ⟨segs, tail, hlayout, htotal⟩ := finish_layout hfed' hfinish
    have hlength : e.originalLen = raw.length := by
      rw [hlayout.originalLen, ← htotal]
    refine ⟨hlength, fun i j hij hj => ?_⟩
    rw [hlayout.readOriginal hij (hlength ▸ hj), ← htotal]
  · unfold ResidentBuilder.finish at hlimit
    split at hlimit
    · rename_i error hdrain
      cases error with
      | exhausted => exact hdrain
      | document error => cases hlimit
    · rename_i c hdrain
      obtain ⟨bom, segs, tail, hc, htotal, hmark, hempty, hcbom⟩ := hfed'.drain hdrain
      have hrebuilds : ResidentBuilder.rebuilds c b'.received = true := by
        rw [hfed'.received, rebuilds_iff hc hempty htotal, hcbom, hbom', hbom]
        rcases hmark with rfl | ⟨rfl, hnone⟩
        · have hprefix : BOM <+: raw := by
            rw [htotal]
            exact List.prefix_append _ _
          rw [if_pos ((bom_sample hsample hlong).mpr hprefix)]
        · rw [if_neg fun hprefix => hnone ((bom_sample hsample hlong).mp hprefix)]
          rfl
      rw [if_pos hrebuilds] at hlimit
      cases hlimit

/-- A mark, a letter, a byte that is no text and a letter, pushed in two parts with a look at
the text between them; the range cuts the mark. -/
theorem original_reads_exact_marked :
    ∃ b b' e, ResidentBuilder.new [0xEF, 0xBB, 0xBF, 97, 255, 98] ⟨200000, 0, 0⟩ 6 1000 = .ok b ∧
      b.feed [.push [0xEF, 0xBB, 0xBF, 97], .peek, .push [255, 98]] = .ok b' ∧
      b'.finish = .ok e ∧ e.readOriginal ⟨1, 6⟩ = some (.ok [0xBB, 0xBF, 97, 255, 98]) := by
  have hruns : (do
      let b ← ResidentBuilder.new [0xEF, 0xBB, 0xBF, 97, 255, 98] ⟨200000, 0, 0⟩ 6 1000
      let b' ← b.feed [.push [0xEF, 0xBB, 0xBF, 97], .peek, .push [255, 98]]
      b'.finish).isOk = true := by
    decide +kernel
  cases hrun : (do
      let b ← ResidentBuilder.new [0xEF, 0xBB, 0xBF, 97, 255, 98] ⟨200000, 0, 0⟩ 6 1000
      let b' ← b.feed [.push [0xEF, 0xBB, 0xBF, 97], .peek, .push [255, 98]]
      b'.finish) with
  | error error =>
    rw [hrun] at hruns
    cases hruns
  | ok e =>
    obtain ⟨b, hnew, hrun⟩ := bind_ok.mp hrun
    obtain ⟨b', hfeed, hfinish⟩ := bind_ok.mp hrun
    exact ⟨b, b', e, hnew, hfeed, hfinish,
      ((original_reads_exact hnew hfeed).1 e hfinish).2 1 6 (by decide) (by decide)⟩

end BareLine.Codec
