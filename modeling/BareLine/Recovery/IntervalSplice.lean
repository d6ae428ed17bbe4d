import BareLine.Recovery.IntervalMap

/-!
# Splitting and splicing the interval map

`split` cuts the text at an offset without changing it; `splice` is two splits, a drain
between the two positions and at most one insertion.  Both succeed on every range of the
document unless the map runs out of spans, and a splice is then the reference splice of the
text the map spells.
-/

namespace BareLine

open Lib

variable {source : Origin → Bytes}

/-! ## §1 Splitting -/

/-- Cutting a span keeps its bytes. -/
theorem Span.cut_bytes {s : Span} {head : Nat} (h : head ≤ s.len) :
    Span.bytes source { s with len := head } ++
      Span.bytes source { s with offset := s.offset + head, len := s.len - head } =
      s.bytes source := by
  simp only [Span.bytes, Range.of]
  have hend : s.offset + head + (s.len - head) = s.offset + s.len := by omega
  rw [hend, ← List.take_append_drop head (((source s.origin).take (s.offset + s.len)).drop
    s.offset), List.drop_drop, List.take_drop, List.take_take, Nat.min_eq_left (by omega)]

/-- Inside a block: the split finds or makes a span that starts at `offset`. -/
theorem splitSpans_spec {offset start : Nat} {spans : List Span} (h : ∀ s ∈ spans, s.Wf source)
    (hle : start ≤ offset) (hlt : offset < start + spanLen spans) :
    ∃ spans' position inside, splitSpans offset start spans = some (spans', position, inside) ∧
      position < spans'.length ∧ spanLen (spans'.take position) = offset - start ∧
      (∀ s ∈ spans', s.Wf source) ∧ spanText source spans' = spanText source spans ∧
      spans'.length = spans.length + if inside then 1 else 0 := by
  induction spans generalizing start with
  | nil => simp at hlt; omega
  | cons s ss ih =>
    have hs := h s List.mem_cons_self
    have hss := fun s' hs' => h s' (List.mem_cons_of_mem s hs')
    rw [splitSpans]
    split
    · next heq =>
      exact ⟨s :: ss, 0, false, rfl, by simp, by simp [heq], h, rfl, rfl⟩
    · next hne =>
      split
      · next hin =>
        have hin' := hs.inside
        refine ⟨_, 1, true, rfl, by simp, by simp, ?_, ?_, by simp⟩
        · intro s' hs'
          simp only [List.mem_cons] at hs'
          rcases hs' with rfl | rfl | hs'
          · exact ⟨by simp only; omega, by simp only; omega⟩
          · exact ⟨by simp only; omega, by simp only; omega⟩
          · exact hss s' hs'
        · simp only [spanText_cons]
          rw [← List.append_assoc, Span.cut_bytes (by omega)]
      · next hout =>
        simp only [spanLen_cons] at hlt
        obtain ⟨spans', position, inside, hsplit, hpos, hlen, hwf, htext, hcount⟩ :=
          ih hss (show start + s.len ≤ offset by omega) (by omega)
        refine ⟨s :: spans', position + 1, inside, by rw [hsplit]; rfl, by simpa using hpos, ?_,
          ?_, by simp [htext], by simp [hcount]; omega⟩
        · rw [List.take_succ_cons, spanLen_cons, hlen]
          omega
        · intro s' hs'
          rcases List.mem_cons.mp hs' with rfl | hs'
          · exact hs
          · exact hwf s' hs'

/-- Spans that end at or before `offset` stay where they are. -/
theorem splitSpans_take {offset start : Nat} {spans spans' : List Span} {j position : Nat}
    {inside : Bool} (h : ∀ s ∈ spans, s.Wf source)
    (hj : start + spanLen (spans.take j) ≤ offset)
    (hsplit : splitSpans offset start spans = some (spans', position, inside)) :
    spans'.take j = spans.take j ∧ (j < spans.length → j ≤ position) := by
  induction spans generalizing start spans' j position with
  | nil => cases hsplit
  | cons s ss ih =>
    cases j with
    | zero => exact ⟨rfl, fun _ => Nat.zero_le _⟩
    | succ j =>
      have hs := (h s List.mem_cons_self).pos
      simp only [List.take_succ_cons, spanLen_cons] at hj
      rw [splitSpans, if_neg (by omega), if_neg (by omega)] at hsplit
      obtain ⟨⟨rest, p, inside'⟩, hrest, heq⟩ := Option.map_eq_some_iff.mp hsplit
      cases heq
      obtain ⟨htake, hle⟩ := ih (fun s' hs' => h s' (List.mem_cons_of_mem s hs')) (j := j)
        (by omega) hrest
      refine ⟨by rw [List.take_succ_cons, htake, List.take_succ_cons], fun hlt => ?_⟩
      exact Nat.succ_le_succ (hle (Nat.lt_of_succ_lt_succ hlt))

/-- The split of the whole map. -/
theorem splitBlocks_spec {offset start : Nat} {blocks : List Block}
    (h : ∀ b ∈ blocks, b.Wf source) (hle : start ≤ offset)
    (hend : offset ≤ start + spanLen (flat blocks)) :
    ∃ blocks' p inside, splitBlocks offset start blocks = .ok (blocks', p, inside) ∧
      Points blocks' p ∧ spanLen (front blocks' p) = offset - start ∧
      (∀ b ∈ blocks', b.Wf source) ∧
      spanText source (flat blocks') = spanText source (flat blocks) ∧
      (flat blocks').length = (flat blocks).length + if inside then 1 else 0 := by
  induction blocks generalizing start with
  | nil =>
    have heq : offset = start := Nat.le_antisymm (by simpa using hend) hle
    exact ⟨[], (0, 0), false, if_pos heq, rfl, by simp [front, heq], by simp, rfl, rfl⟩
  | cons b bs ih =>
    have hb := h b List.mem_cons_self
    have hbs := fun b' hb' => h b' (List.mem_cons_of_mem b hb')
    rw [splitBlocks]
    simp only [flat_cons, spanLen_append] at hend
    have hlen := hb.len_eq
    split
    · next hin =>
      obtain ⟨spans', position, inside, hsplit, hpos, hfront, hwf, htext, hcount⟩ :=
        splitSpans_spec hb.spans hle (by omega)
      rw [hsplit]
      refine ⟨⟨b.len, spans'⟩ :: bs, (0, position), inside, rfl, hpos, hfront, ?_, ?_, ?_⟩
      · intro b' hb'
        rcases List.mem_cons.mp hb' with rfl | hb'
        · refine ⟨?_, ?_, hwf⟩
          · show b.len = spanLen spans'
            rw [hlen, ← spanText_length hwf, ← spanText_length hb.spans, htext]
          · intro hnil
            rw [show spans' = [] from hnil] at hpos
            exact Nat.not_lt_zero _ hpos
        · exact hbs b' hb'
      · show spanText source (spans' ++ flat bs) = spanText source (b.spans ++ flat bs)
        rw [spanText_append, spanText_append, htext]
      · simp only [flat_cons, List.length_append, hcount]
        omega
    · next hout =>
      obtain ⟨blocks', ⟨i, j⟩, inside, hsplit, hpoints, hfront, hwf, htext, hcount⟩ :=
        ih hbs (show start + b.len ≤ offset by omega) (by omega)
      rw [hsplit]
      refine ⟨b :: blocks', (i + 1, j), inside, rfl, hpoints, ?_, ?_, ?_, ?_⟩
      · show spanLen (b.spans ++ front blocks' (i, j)) = offset - start
        rw [spanLen_append, hfront]
        omega
      · intro b' hb'
        rcases List.mem_cons.mp hb' with rfl | hb'
        · exact hb
        · exact hwf b' hb'
      · simp only [flat_cons, spanText_append, htext]
      · simp only [flat_cons, List.length_append, hcount]
        omega

/-- A split at or behind a position keeps the spans in front of it and finds no earlier
one. -/
theorem splitBlocks_front {offset start : Nat} {blocks blocks' : List Block} {p q : Nat × Nat}
    {inside : Bool} (h : ∀ b ∈ blocks, b.Wf source) (hp : Points blocks p)
    (hle : start + spanLen (front blocks p) ≤ offset)
    (hsplit : splitBlocks offset start blocks = .ok (blocks', q, inside)) :
    front blocks' p = front blocks p ∧ Points blocks' p ∧ Before p q := by
  obtain ⟨i, j⟩ := p
  induction blocks generalizing start blocks' q i with
  | nil =>
    cases hp
    rw [splitBlocks] at hsplit
    split at hsplit
    · cases hsplit
      exact ⟨rfl, rfl, Or.inr ⟨rfl, Nat.le_refl _⟩⟩
    · cases hsplit
  | cons b bs ih =>
    have hb := h b List.mem_cons_self
    have hbs := fun b' hb' => h b' (List.mem_cons_of_mem b hb')
    have hlen := hb.len_eq
    rw [splitBlocks] at hsplit
    cases i with
    | zero =>
      split at hsplit
      · next hin =>
        split at hsplit
        · cases hsplit
        · next spans' position inside' hspans =>
          cases hsplit
          obtain ⟨htake, hle'⟩ := splitSpans_take hb.spans hle hspans
          have hposition : j ≤ position := hle' hp
          refine ⟨htake, ?_, Or.inr ⟨rfl, hposition⟩⟩
          obtain ⟨spans'', position', inside'', hsplit', hpos', -⟩ :=
            splitSpans_spec hb.spans (show start ≤ offset by omega) (by omega)
          rw [hspans] at hsplit'
          cases hsplit'
          exact Nat.lt_of_le_of_lt hposition hpos'
      · next hout =>
        split at hsplit
        · cases hsplit
        · next blocks'' index position inside' hrest =>
          cases hsplit
          exact ⟨rfl, hp, Or.inl (Nat.succ_pos _)⟩
    | succ i =>
      simp only [front, spanLen_append] at hle
      rw [if_neg (by omega)] at hsplit
      split at hsplit
      · cases hsplit
      · next blocks'' index position inside' hrest =>
        cases hsplit
        obtain ⟨hfront, hpoints, hbefore⟩ := ih hbs hrest i hp (by omega)
        refine ⟨by simp only [front, hfront], hpoints, ?_⟩
        rcases hbefore with hlt | ⟨heq, hj⟩
        · exact Or.inl (Nat.succ_lt_succ hlt)
        · exact Or.inr ⟨congrArg Nat.succ heq, hj⟩

/-- What a successful split leaves: the same text, a position that cuts it at `offset`, and
at most one span more. -/
structure SplitAt (source : Origin → Bytes) (r : Replay) (offset : Nat) (p : Nat × Nat)
    (r' : Replay) : Prop where
  wf : r'.Wf source
  text_eq : r'.text source = r.text source
  points : Points r'.blocks p
  front_len : spanLen (front r'.blocks p) = offset
  spans_le : r'.spans ≤ r.spans + 1
  len_eq : r'.len = r.len

/-- `split` succeeds on every offset of the document unless the spans run out. -/
theorem Replay.split_spec {r : Replay} (h : r.Wf source) {offset : Nat} (hle : offset ≤ r.len) :
    (∃ p r', r.split offset = (.ok p, r') ∧ SplitAt source r offset p r') ∨
      r.split offset = (.error outOfMemory, r) ∧ MAX_SPANS ≤ r.spans := by
  obtain ⟨blocks', p, inside, hsplit, hpoints, hfront, hwf, htext, hcount⟩ :=
    splitBlocks_spec h.blocks (Nat.zero_le offset) (by rw [h.spanLen_eq]; omega)
  rw [Nat.sub_zero] at hfront
  have hlen : r.len = (blocks'.map Block.len).sum := by
    rw [sum_len_eq fun b hb => (hwf b hb).len_eq, ← spanText_length (flat_spans_wf hwf), htext,
      ← h.text_length]
    rfl
  have hspans := h.count
  rw [spanCount_eq] at hspans
  rw [Replay.split, hsplit]
  cases inside with
  | false =>
    refine Or.inl ⟨p, _, rfl, ⟨hwf, hlen, ?_⟩, htext, hpoints, hfront, Nat.le_succ _, rfl⟩
    rw [spanCount_eq, hcount]
    exact hspans
  | true =>
    simp only [if_true]
    split
    · next hfull => exact Or.inr ⟨rfl, hfull⟩
    · refine Or.inl ⟨p, _, rfl, ⟨hwf, hlen, ?_⟩, htext, hpoints, hfront, Nat.le_refl _, rfl⟩
      rw [spanCount_eq, hcount, hspans]
      rfl

/-- A second split lands at or after the first and never shifts it. -/
theorem Replay.split_front {r r' : Replay} (h : r.Wf source) {offset : Nat} {p q : Nat × Nat}
    (hp : Points r.blocks p) (hle : spanLen (front r.blocks p) ≤ offset)
    (hsplit : r.split offset = (.ok q, r')) :
    front r'.blocks p = front r.blocks p ∧ Points r'.blocks p ∧ Before p q := by
  rw [Replay.split] at hsplit
  split at hsplit
  · cases hsplit
  · next blocks' q' inside hblocks =>
    have hfront := splitBlocks_front h.blocks hp (by rwa [Nat.zero_add]) hblocks
    split at hsplit
    · split at hsplit
      · cases hsplit
      · cases hsplit
        exact hfront
    · cases hsplit
      exact hfront

/-! ## §2 Where a span goes -/

/-- The position lies in a block, possibly at its end. -/
def InBlock : List Block → Nat × Nat → Prop
  | [], _ => False
  | b :: _, (0, j) => j ≤ b.spans.length
  | _ :: bs, (i + 1, j) => InBlock bs (i, j)

/-- A position is inside a block or the end of the document. -/
theorem Points.inBlock_or {blocks : List Block} {p : Nat × Nat} (h : Points blocks p) :
    (InBlock blocks p ∧ p.1 < blocks.length) ∨ p = (blocks.length, 0) := by
  obtain ⟨i, j⟩ := p
  induction blocks generalizing i with
  | nil => exact Or.inr h
  | cons b bs ih =>
    cases i with
    | zero => exact Or.inl ⟨Nat.le_of_lt h, Nat.succ_pos _⟩
    | succ i =>
      rcases ih i h with ⟨hin, hlt⟩ | heq
      · exact Or.inl ⟨hin, Nat.succ_lt_succ hlt⟩
      · cases heq
        exact Or.inr rfl

theorem front_end (blocks : List Block) : front blocks (blocks.length, 0) = flat blocks := by
  induction blocks with
  | nil => rfl
  | cons b bs ih => exact congrArg (b.spans ++ ·) ih

theorem insertIdx_eq (span : Span) {spans : List Span} {j : Nat} (h : j ≤ spans.length) :
    spans.insertIdx j span = spans.take j ++ span :: spans.drop j := by
  induction spans generalizing j with
  | nil =>
    obtain rfl : j = 0 := Nat.le_zero.mp h
    rfl
  | cons s ss ih =>
    cases j with
    | zero => rfl
    | succ j =>
      rw [List.insertIdx_succ_cons, ih (Nat.le_of_succ_le_succ h)]
      rfl

/-- Inserting a span puts it between what is in front of the position and behind it. -/
theorem flat_insertSpan {blocks : List Block} {i j : Nat} (h : InBlock blocks (i, j))
    (span : Span) :
    flat (insertSpan blocks i j span) = front blocks (i, j) ++ span :: back blocks (i, j) := by
  induction blocks generalizing i with
  | nil => cases h
  | cons b bs ih =>
    cases i with
    | zero =>
      have hj : j ≤ b.spans.length := h
      show b.spans.insertIdx j span ++ flat bs = _
      rw [insertIdx_eq span hj]
      simp [front, back]
    | succ i =>
      show b.spans ++ flat (insertSpan bs i j span) = _
      rw [ih h]
      simp [front, back]

/-- The drains leave the spans in front of the first position where they are. -/
theorem front_drained {blocks : List Block} {p q : Nat × Nat} (hp : InBlock blocks p)
    (hbefore : Before p q) :
    front (blocks.mapIdx (drained p q)) p = front blocks p ∧
      InBlock (blocks.mapIdx (drained p q)) p := by
  obtain ⟨i, j⟩ := p
  obtain ⟨i', j'⟩ := q
  induction blocks generalizing i i' with
  | nil => cases hp
  | cons b bs ih =>
    rw [List.mapIdx_cons]
    cases i with
    | zero =>
      have hj : j ≤ b.spans.length := hp
      have htake : (b.spans.take j).length = j := by
        rw [List.length_take, Nat.min_eq_left hj]
      cases i' with
      | zero =>
        show (b.spans.take j ++ b.spans.drop j').take j = b.spans.take j ∧
          j ≤ (b.spans.take j ++ b.spans.drop j').length
        rw [List.length_append, htake]
        refine ⟨?_, Nat.le_add_right _ _⟩
        rw [List.take_append_of_le_length (Nat.le_of_eq htake.symm), List.take_take, Nat.min_self]
      | succ i' =>
        show (b.spans.take j).take j = b.spans.take j ∧ j ≤ (b.spans.take j).length
        exact ⟨by rw [List.take_take, Nat.min_self], Nat.le_of_eq htake.symm⟩
    | succ i =>
      cases i' with
      | zero =>
        rcases hbefore with h | ⟨h, -⟩
        · exact absurd h (Nat.not_lt_zero _)
        · cases h
      | succ i' =>
        have hbefore' : Before (i, j) (i', j') := by
          rcases hbefore with h | ⟨h, hj⟩
          · exact Or.inl (Nat.lt_of_succ_lt_succ h)
          · exact Or.inr ⟨Nat.succ.inj h, hj⟩
        obtain ⟨hfront, hin⟩ := ih i hp i' hbefore'
        simp only [drained_succ]
        refine ⟨?_, hin⟩
        simp only [front, hfront]
        simp [drained]

/-- What the drains leave behind the first position starts at the last one. -/
theorem back_drained {blocks : List Block} {p q : Nat × Nat} (hp : InBlock blocks p)
    (hbefore : Before p q) : back (blocks.mapIdx (drained p q)) p = back blocks q := by
  have hflat := flat_drained blocks hbefore
  rw [← front_append_back _ p, (front_drained hp hbefore).1] at hflat
  exact List.append_cancel_left hflat

theorem drained_outside {p q : Nat × Nat} {n : Nat} (h : n < p.1 ∨ q.1 < n) (hbefore : Before p q)
    (b : Block) : drained p q n b = b := by
  have hle : p.1 ≤ q.1 := by
    rcases hbefore with hlt | ⟨heq, -⟩ <;> omega
  rw [drained, if_neg (by omega), if_neg (by omega), if_neg (by omega), if_neg (by omega)]

/-- Every block outside `target..=last` knows its length. -/
def KnownOutside (target last : Nat) (blocks : List Block) : Prop :=
  ∀ n b, blocks[n]? = some b → n < target ∨ last < n → b.len = spanLen b.spans

theorem flat_mapIdx {f : Nat → Block → Block} (h : ∀ n b, (f n b).spans = b.spans)
    (blocks : List Block) : flat (blocks.mapIdx f) = flat blocks := by
  induction blocks generalizing f with
  | nil => rfl
  | cons b bs ih =>
    rw [List.mapIdx_cons, flat_cons, h, ih fun n => h (n + 1), flat_cons]

theorem flat_recount (target last : Nat) (blocks : List Block) :
    flat (recount target last blocks) = flat blocks := by
  apply flat_mapIdx
  intro n b
  split <;> rfl

/-- After the recount every block knows its length. -/
theorem recount_len_eq {target last : Nat} {blocks : List Block}
    (h : KnownOutside target last blocks) :
    ∀ b ∈ recount target last blocks, b.len = spanLen b.spans := by
  intro b hb
  obtain ⟨n, hn⟩ := List.mem_iff_getElem?.mp hb
  rw [recount, List.getElem?_mapIdx] at hn
  obtain ⟨b', hb', rfl⟩ := Option.map_eq_some_iff.mp hn
  split
  · rfl
  · next hout => exact h n b' hb' (by omega)

/-- Splitting an overfull block moves no span. -/
theorem splitOverfull_spec (target : Nat) {blocks : List Block}
    (h : ∀ b ∈ blocks, b.len = spanLen b.spans) :
    flat (splitOverfull target blocks) = flat blocks ∧
      ∀ b ∈ splitOverfull target blocks, b.len = spanLen b.spans := by
  rw [splitOverfull]
  split
  · exact ⟨rfl, h⟩
  · next block hblock =>
    split
    · next hover =>
      obtain ⟨hlt, rfl⟩ := List.getElem?_eq_some_iff.mp hblock
      have hcut : blocks[target].spans.take BLOCK ++ blocks[target].spans.drop BLOCK =
        blocks[target].spans := List.take_append_drop _ _
      constructor
      · have hblocks : blocks = blocks.take target ++ blocks[target] ::
            blocks.drop (target + 1) := by
          rw [List.getElem_cons_drop, List.take_append_drop]
        conv_rhs => rw [hblocks]
        simp only [flat_append, flat_cons]
        rw [← List.append_assoc (List.take BLOCK _), hcut]
      · intro b hb
        rcases List.mem_append.mp hb with hb | hb
        · exact h b (List.mem_of_mem_take hb)
        · simp only [List.mem_cons] at hb
          rcases hb with rfl | rfl | hb
          · have hlen := h _ (List.getElem_mem hlt)
            rw [← hcut, spanLen_append] at hlen
            show blocks[target].len - spanLen (blocks[target].spans.drop BLOCK) =
              spanLen (blocks[target].spans.take BLOCK)
            omega
          · rfl
          · exact h b (List.mem_of_mem_drop hb)
    · exact ⟨rfl, h⟩

theorem flat_filter (blocks : List Block) :
    flat (blocks.filter fun block => !block.spans.isEmpty) = flat blocks := by
  induction blocks with
  | nil => rfl
  | cons b bs ih =>
    rw [List.filter_cons]
    split
    · rw [flat_cons, ih, flat_cons]
    · next hempty =>
      have hnil : b.spans = [] := by simpa using hempty
      rw [ih, flat_cons, hnil, List.nil_append]

/-- The end of a splice keeps the spans and leaves well-formed blocks. -/
theorem settle_spec {target last : Nat} {blocks : List Block}
    (hlen : KnownOutside target last blocks) (hwf : ∀ s ∈ flat blocks, s.Wf source) :
    flat (settle target last blocks) = flat blocks ∧
      ∀ b ∈ settle target last blocks, b.Wf source := by
  obtain ⟨hflat, hknown⟩ := splitOverfull_spec target (recount_len_eq hlen)
  have hall : flat (settle target last blocks) = flat blocks := by
    rw [settle, flat_filter, hflat, flat_recount]
  refine ⟨hall, fun b hb => ?_⟩
  have hmem := List.mem_filter.mp hb
  refine ⟨hknown b hmem.1, by simpa using hmem.2, fun s hs => hwf s ?_⟩
  rw [← hall]
  exact List.mem_flatMap.mpr ⟨b, hb, hs⟩

theorem insertSpan_last (xs : List Block) (b : Block) (span : Span) :
    insertSpan (xs ++ [b]) xs.length b.spans.length span =
      xs ++ [{ b with spans := b.spans ++ [span] }] := by
  induction xs with
  | nil =>
    show [{ b with spans := b.spans.insertIdx b.spans.length span }] = _
    rw [List.insertIdx_length_self]
    rfl
  | cons x xs ih =>
    show x :: insertSpan (xs ++ [b]) xs.length b.spans.length span = _
    rw [ih]
    rfl

/-- An insertion changes no block but its target. -/
theorem KnownOutside.insertSpan {target last : Nat} {blocks : List Block}
    (h : KnownOutside target last blocks) (hle : target ≤ last) (position : Nat) (span : Span) :
    KnownOutside target last (insertSpan blocks target position span) := by
  intro n b hn hout
  have hne : target ≠ n := by omega
  rw [BareLine.insertSpan, List.getElem?_modify_ne _ _ hne] at hn
  exact h n b hn hout

/-- Text appended at the end joins the last block. -/
theorem appendPlace_end {blocks : List Block} (h : ∀ b ∈ blocks, b.len = spanLen b.spans)
    (span : Span) :
    ∃ blocks' target position, appendPlace blocks (blocks.length, 0) = (blocks', target, position) ∧
      flat (insertSpan blocks' target position span) = flat blocks ++ [span] ∧
      KnownOutside target blocks.length (insertSpan blocks' target position span) := by
  rcases List.eq_nil_or_concat blocks with rfl | ⟨xs, b, rfl⟩
  · refine ⟨[⟨0, []⟩], 0, 0, rfl, rfl, ?_⟩
    intro n b hn hout
    cases n with
    | zero => exact absurd hout (by simp)
    | succ n => cases hn
  · rw [List.concat_eq_append] at h ⊢
    refine ⟨xs ++ [b], xs.length, b.spans.length, ?_, ?_, ?_⟩
    · rw [appendPlace, if_pos rfl, List.getLast?_concat]
      simp
    · rw [insertSpan_last]
      simp
    · apply KnownOutside.insertSpan _ (by simp)
      intro n b' hn _
      exact h b' (List.mem_of_getElem? hn)

/-! ## §3 Splicing -/

/-- Both cuts of a splice are in place: `p` at its start and `q` at its end. -/
structure Cut (source : Origin → Bytes) (r : Replay) (offset stop : Nat) (p q : Nat × Nat) :
    Prop where
  wf : r.Wf source
  first : Points r.blocks p
  last : Points r.blocks q
  before : Before p q
  first_len : spanLen (front r.blocks p) = offset
  last_len : spanLen (front r.blocks q) = stop

namespace Cut

variable {r : Replay} {offset stop : Nat} {p q : Nat × Nat}

theorem front_wf (h : Cut source r offset stop p q) : ∀ s ∈ front r.blocks p, s.Wf source := by
  intro s hs
  apply h.wf.spans_wf
  rw [← front_append_back r.blocks p]
  exact List.mem_append_left _ hs

theorem back_wf (h : Cut source r offset stop p q) : ∀ s ∈ back r.blocks q, s.Wf source := by
  intro s hs
  apply h.wf.spans_wf
  rw [← front_append_back r.blocks q]
  exact List.mem_append_right _ hs

theorem front_text (h : Cut source r offset stop p q) :
    spanText source (front r.blocks p) = (r.text source).take offset := by
  rw [Replay.text, ← front_append_back r.blocks p, spanText_append, List.take_left']
  rw [spanText_length h.front_wf, h.first_len]

theorem back_text (h : Cut source r offset stop p q) :
    spanText source (back r.blocks q) = (r.text source).drop stop := by
  rw [Replay.text, ← front_append_back r.blocks q, spanText_append, List.drop_left']
  rw [← h.last_len, spanText_length]
  intro s hs
  apply h.wf.spans_wf
  rw [← front_append_back r.blocks q]
  exact List.mem_append_left _ hs

theorem back_len (h : Cut source r offset stop p q) :
    stop + spanLen (back r.blocks q) = r.len := by
  rw [← h.wf.spanLen_eq, ← front_append_back r.blocks q, spanLen_append, h.last_len]

theorem known (h : Cut source r offset stop p q) :
    KnownOutside p.1 q.1 (r.blocks.mapIdx (drained p q)) := by
  intro n b hn hout
  rw [List.getElem?_mapIdx] at hn
  obtain ⟨b', hb', rfl⟩ := Option.map_eq_some_iff.mp hn
  rw [drained_outside hout h.before]
  exact (h.wf.blocks b' (List.mem_of_getElem? hb')).len_eq

/-- The span count after the drains is that of the spans left. -/
theorem drained_count (h : Cut source r offset stop p q) :
    r.spans - (spanCount r.blocks - spanCount (r.blocks.mapIdx (drained p q))) =
      (front r.blocks p ++ back r.blocks q).length := by
  have hcount := h.wf.count
  have hmono := front_length_mono h.before h.first
  have hall := congrArg List.length (front_append_back r.blocks q)
  rw [hcount, spanCount_eq, spanCount_eq, flat_drained r.blocks h.before, ← hall]
  simp only [List.length_append]
  omega

/-- Where `splice` puts its span, and what is known there. -/
theorem place (h : Cut source r offset stop p q) (span : Span) :
    ∃ blocks' target position,
      appendPlace (r.blocks.mapIdx (drained p q)) p = (blocks', target, position) ∧
      flat (insertSpan blocks' target position span) =
        front r.blocks p ++ span :: back r.blocks q ∧
      KnownOutside target q.1 (insertSpan blocks' target position span) := by
  have hlength : (r.blocks.mapIdx (drained p q)).length = r.blocks.length := List.length_mapIdx
  rcases h.first.inBlock_or with ⟨hin, hlt⟩ | rfl
  · obtain ⟨hfront, hin'⟩ := front_drained hin h.before
    refine ⟨_, p.1, p.2, if_neg (by omega), ?_, h.known.insertSpan ?_ _ _⟩
    · rw [flat_insertSpan hin', hfront, back_drained hin h.before]
    · rcases h.before with hlt' | ⟨heq, -⟩ <;> omega
  · -- At the end of the document the last position is the end too, and nothing is drained.
    have hq : q = (r.blocks.length, 0) := by
      rcases h.last.inBlock_or with ⟨-, hlt⟩ | heq
      · rcases h.before with hlt' | ⟨heq, -⟩ <;> simp only at * <;> omega
      · exact heq
    subst hq
    have hsame : r.blocks.mapIdx (drained (r.blocks.length, 0) (r.blocks.length, 0)) =
        r.blocks := by
      apply List.ext_getElem hlength
      intro n hn _
      rw [List.getElem_mapIdx, drained_outside (Or.inl (by simpa using hn)) h.before]
    have hback : back r.blocks (r.blocks.length, 0) = [] := by
      have hall := front_append_back r.blocks (r.blocks.length, 0)
      rw [front_end] at hall
      exact List.append_cancel_left (hall.trans (List.append_nil _).symm)
    rw [hsame, front_end, hback]
    exact appendPlace_end (fun b hb => (h.wf.blocks b hb).len_eq) span

/-- The end of a splice, from the spans it has put in place. -/
theorem finish {blocks : List Block} {target last : Nat} {spans : Nat}
    (h : Cut source r offset stop p q) (middle : List Span) (len : Nat)
    (hflat : flat blocks = front r.blocks p ++ middle ++ back r.blocks q)
    (hknown : KnownOutside target last blocks) (hmiddle : ∀ s ∈ middle, s.Wf source)
    (hlen : len = offset + spanLen middle + spanLen (back r.blocks q))
    (hspans : spans = (flat blocks).length) :
    (⟨settle target last blocks, len, spans⟩ : Replay).Wf source ∧
      (⟨settle target last blocks, len, spans⟩ : Replay).text source =
        (⟨offset, stop, spanText source middle⟩ : Splice UInt8).apply (r.text source) := by
  have hall : ∀ s ∈ flat blocks, s.Wf source := by
    intro s hs
    rw [hflat] at hs
    rcases List.mem_append.mp hs with hs | hs
    · rcases List.mem_append.mp hs with hs | hs
      · exact h.front_wf s hs
      · exact hmiddle s hs
    · exact h.back_wf s hs
  obtain ⟨hsettle, hwf⟩ := settle_spec hknown hall
  refine ⟨⟨hwf, ?_, ?_⟩, ?_⟩
  · show len = ((settle target last blocks).map Block.len).sum
    rw [sum_len_eq fun b hb => (hwf b hb).len_eq, hsettle, hflat, spanLen_append, spanLen_append,
      h.first_len, hlen]
  · show spans = spanCount (settle target last blocks)
    rw [spanCount_eq, hsettle, hspans]
  · show spanText source (flat (settle target last blocks)) = _
    rw [hsettle, hflat, spanText_append, spanText_append, h.front_text, h.back_text]
    rfl

end Cut

/-- Both splits of a splice. -/
theorem Replay.splits_spec {r : Replay} (h : r.Wf source) {offset stop : Nat}
    (hle : offset ≤ stop) (hstop : stop ≤ r.len) :
    (∃ p q r₁ r₂, r.split offset = (.ok p, r₁) ∧ r₁.split stop = (.ok q, r₂) ∧
      Cut source r₂ offset stop p q ∧ r₂.text source = r.text source ∧ r₂.len = r.len ∧
      r₂.spans ≤ r.spans + 2) ∨
    (∃ r', (r.split offset = (.error outOfMemory, r') ∨
        ∃ p r₁, r.split offset = (.ok p, r₁) ∧ r₁.split stop = (.error outOfMemory, r')) ∧
      MAX_SPANS ≤ r.spans + 2) := by
  rcases Replay.split_spec h (Nat.le_trans hle hstop) with ⟨p, r₁, hp, hs₁⟩ | ⟨hfull, hmax⟩
  · rcases Replay.split_spec hs₁.wf (show stop ≤ r₁.len by rw [hs₁.len_eq]; exact hstop) with
      ⟨q, r₂, hq, hs₂⟩ | ⟨hfull, hmax⟩
    · obtain ⟨hfront, hpoints, hbefore⟩ :=
        Replay.split_front hs₁.wf hs₁.points (by rw [hs₁.front_len]; exact hle) hq
      refine Or.inl ⟨p, q, r₁, r₂, hp, hq, ⟨hs₂.wf, hpoints, hs₂.points, hbefore, ?_,
        hs₂.front_len⟩, hs₂.text_eq.trans hs₁.text_eq, hs₂.len_eq.trans hs₁.len_eq, ?_⟩
      · rw [hfront, hs₁.front_len]
      · have := hs₁.spans_le
        have := hs₂.spans_le
        omega
    · refine Or.inr ⟨r₁, Or.inr ⟨p, r₁, hp, hfull⟩, ?_⟩
      have := hs₁.spans_le
      omega
  · exact Or.inr ⟨r, Or.inl hfull, by omega⟩

/-- `splice` replaces the range by the span's bytes unless the spans run out. -/
theorem Replay.splice_spec {r : Replay} (h : r.Wf source) (hmax : r.len ≤ u64Max)
    (offset removed : Nat) (hle : offset + removed ≤ r.len) {insert : Option Span}
    (hinsert : ∀ s ∈ insert, s.Wf source) :
    (∃ r', r.splice offset removed insert = (.ok (), r') ∧ r'.Wf source ∧
      r'.text source = (⟨offset, offset + removed, spanText source insert.toList⟩ :
        Splice UInt8).apply (r.text source) ∧ r'.spans ≤ r.spans + 3) ∨
    (∃ r', r.splice offset removed insert = (.error outOfMemory, r')) ∧
      MAX_SPANS ≤ r.spans + 2 := by
  have hwithin : endWithin offset removed r.len = some (offset + removed) :=
    (endWithin_eq_some hmax).mpr ⟨hle, rfl⟩
  rw [Replay.splice, hwithin]
  rcases Replay.splits_spec h (Nat.le_add_right offset removed) hle with
    ⟨p, q, r₁, r₂, hp, hq, hcut, htext, hlen, hspans⟩ | ⟨r', hfull | ⟨p, r₁, hp, hfull⟩, hbound⟩
  · simp only [hp, hq, hcut.drained_count]
    have hback := hcut.back_len
    have hleft := hcut.wf.count
    rw [spanCount_eq] at hleft
    have hmono := front_length_mono hcut.before hcut.first
    have hall := congrArg List.length (front_append_back r₂.blocks q)
    simp only [List.length_append] at hall
    cases insert with
    | none =>
      obtain ⟨hwf, htext'⟩ := hcut.finish [] (r₂.len - removed)
        (by rw [List.append_nil]; exact flat_drained r₂.blocks hcut.before) hcut.known
        (by simp) (by simp; omega) rfl
      rw [flat_drained r₂.blocks hcut.before] at hwf htext'
      refine Or.inl ⟨_, rfl, hwf, ?_, ?_⟩
      · rw [htext', htext]
        rfl
      · simp only [List.length_append]
        omega
    | some span =>
      obtain ⟨blocks', target, position, hplace, hflat, hknown⟩ := hcut.place span
      simp only [hplace]
      split
      · next hover =>
        refine Or.inr ⟨⟨_, rfl⟩, ?_⟩
        simp only [List.length_append] at hover
        omega
      · obtain ⟨hwf, htext'⟩ := hcut.finish [span] (r₂.len - removed + span.len)
          (by rw [hflat]; simp) hknown (by simpa using hinsert span rfl) (by simp; omega) rfl
        have hcount : (flat (insertSpan blocks' target position span)).length =
            (front r₂.blocks p ++ back r₂.blocks q).length + 1 := by
          rw [hflat]
          simp
          omega
        rw [hcount] at hwf htext'
        refine Or.inl ⟨_, rfl, hwf, ?_, ?_⟩
        · rw [htext', htext]
          rfl
        · simp only [List.length_append]
          omega
  · simp only [hfull]
    exact Or.inr ⟨⟨_, rfl⟩, hbound⟩
  · simp only [hp, hfull]
    exact Or.inr ⟨⟨_, rfl⟩, hbound⟩

end BareLine
