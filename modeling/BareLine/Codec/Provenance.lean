import BareLine.Codec.Resident

/-!
# What the collector keeps of the raw bytes

The raw bytes are valid texts with invalid units between them.  Decoding keeps the text with
one U+FFFD for each unit, and the units apart; the layout of both is the same list.
-/

namespace BareLine.Codec

open Lib

/-! ## §1 Layouts -/

/-- Valid text with the invalid unit behind it. -/
abbrev Segment := Bytes × Bytes

/-- The decoded text. -/
def textOf (segs : List Segment) (tail : Bytes) : Bytes :=
  (segs.flatMap fun s => s.1 ++ REPLACEMENT) ++ tail

/-- The raw bytes. -/
def rawOf (segs : List Segment) (tail : Bytes) : Bytes :=
  (segs.flatMap fun s => s.1 ++ s.2) ++ tail

def opaqueOf (segs : List Segment) : Bytes := segs.flatMap Prod.snd

/-- Where the units are in the text and in the opaque bytes. -/
def mapsFrom : Nat → Nat → List Segment → List (Range × Range)
  | _, _, [] => []
  | t, q, (valid, bytes) :: rest =>
    (⟨t + valid.length, t + valid.length + REPLACEMENT_LEN⟩, ⟨q, q + bytes.length⟩) ::
      mapsFrom (t + valid.length + REPLACEMENT_LEN) (q + bytes.length) rest

theorem textOf_snoc (segs : List Segment) (valid bytes tail : Bytes) :
    textOf (segs ++ [(valid, bytes)]) tail = textOf segs valid ++ REPLACEMENT ++ tail := by
  simp [textOf]

theorem rawOf_snoc (segs : List Segment) (valid bytes tail : Bytes) :
    rawOf (segs ++ [(valid, bytes)]) tail = rawOf segs valid ++ bytes ++ tail := by
  simp [rawOf]

theorem opaqueOf_snoc (segs : List Segment) (valid bytes : Bytes) :
    opaqueOf (segs ++ [(valid, bytes)]) = opaqueOf segs ++ bytes := by
  simp [opaqueOf]

theorem textOf_tail (segs : List Segment) (tail more : Bytes) :
    textOf segs (tail ++ more) = textOf segs tail ++ more := (List.append_assoc _ _ _).symm

theorem rawOf_tail (segs : List Segment) (tail more : Bytes) :
    rawOf segs (tail ++ more) = rawOf segs tail ++ more := (List.append_assoc _ _ _).symm

theorem textOf_cons (valid bytes tail : Bytes) (segs : List Segment) :
    textOf ((valid, bytes) :: segs) tail = valid ++ REPLACEMENT ++ textOf segs tail := by
  simp [textOf]

theorem rawOf_cons (valid bytes tail : Bytes) (segs : List Segment) :
    rawOf ((valid, bytes) :: segs) tail = valid ++ bytes ++ rawOf segs tail := by
  simp [rawOf]

theorem opaqueOf_cons (valid bytes : Bytes) (segs : List Segment) :
    opaqueOf ((valid, bytes) :: segs) = bytes ++ opaqueOf segs := by
  simp [opaqueOf]

theorem replacement_length : REPLACEMENT.length = REPLACEMENT_LEN := rfl

theorem mapsFrom_snoc (t q : Nat) (segs : List Segment) (valid bytes : Bytes) :
    mapsFrom t q (segs ++ [(valid, bytes)]) = mapsFrom t q segs ++
      [(⟨t + (textOf segs valid).length, t + (textOf segs valid).length + REPLACEMENT_LEN⟩,
        ⟨q + (opaqueOf segs).length, q + (opaqueOf segs).length + bytes.length⟩)] := by
  induction segs generalizing t q with
  | nil => simp [mapsFrom, textOf, opaqueOf]
  | cons s segs ih =>
    obtain ⟨v, o⟩ := s
    have ht : t + v.length + REPLACEMENT_LEN + (textOf segs valid).length =
        t + (textOf ((v, o) :: segs) valid).length := by
      simp only [textOf_cons, List.length_append, replacement_length]
      omega
    have hq : q + o.length + (opaqueOf segs).length = q + (opaqueOf ((v, o) :: segs)).length := by
      simp only [opaqueOf_cons, List.length_append]
      omega
    rw [List.cons_append, mapsFrom, mapsFrom, ih, ht, hq, List.cons_append]

theorem mapsFrom_length (t q : Nat) (segs : List Segment) :
    (mapsFrom t q segs).length = segs.length := by
  induction segs generalizing t q with
  | nil => rfl
  | cons s segs ih => rw [mapsFrom, List.length_cons, List.length_cons, ih]

/-- The text of the units takes the place of their bytes. -/
theorem length_balance (segs : List Segment) (tail : Bytes) :
    (textOf segs tail).length + (opaqueOf segs).length =
      (rawOf segs tail).length + segs.length * REPLACEMENT_LEN := by
  induction segs with
  | nil => simp [textOf, rawOf, opaqueOf]
  | cons s segs ih =>
    obtain ⟨v, o⟩ := s
    simp only [textOf_cons, rawOf_cons, opaqueOf_cons, List.length_append, List.length_cons,
      replacement_length, Nat.add_one_mul]
    omega

/-! ## §2 Writing -/

/-- A text does not start inside a character. -/
def Clean (t : Bytes) : Prop := ∀ b ∈ t.head?, isContinuation b = false

theorem Clean.append {t u : Bytes} (ht : Clean t) (hu : Clean u) : Clean (t ++ u) := by
  cases t with
  | nil => exact hu
  | cons b t => exact ht

/-- The collector holds the layout. -/
structure Collected (c : Collector) (segs : List Segment) (tail : Bytes) : Prop where
  wf : Tree.RootWf .resident c.root
  text : Tree.text c.root ++ c.text = textOf segs tail
  offset : c.textOffset = (Tree.text c.root).length
  mapping : c.mapping.map (fun m => (m.text, m.raw)) = mapsFrom 0 0 segs
  opaqueRaw : c.opaqueRaw = opaqueOf segs
  clean : Clean (textOf segs tail)

/-- Only budget and capacities differ. -/
structure SameContent (c c' : Collector) : Prop where
  text : c'.text = c.text
  mapping : c'.mapping = c.mapping
  bom : c'.bom = c.bom
  textOffset : c'.textOffset = c.textOffset
  root : c'.root = c.root
  opaqueRaw : c'.opaqueRaw = c.opaqueRaw

theorem SameContent.refl (c : Collector) : SameContent c c := ⟨rfl, rfl, rfl, rfl, rfl, rfl⟩

theorem Collected.congr {c c' : Collector} {segs : List Segment} {tail : Bytes}
    (h : Collected c segs tail) (hs : SameContent c c') : Collected c' segs tail := by
  constructor
  · rw [hs.root]
    exact h.wf
  · rw [hs.root, hs.text]
    exact h.text
  · rw [hs.textOffset, hs.root]
    exact h.offset
  · rw [hs.mapping]
    exact h.mapping
  · rw [hs.opaqueRaw]
    exact h.opaqueRaw
  · exact h.clean

namespace Collector

theorem claim_same {c c' : Collector} {n : Nat} (h : c.claim n = .ok c') : SameContent c c' := by
  unfold claim at h
  split at h
  · cases h
    exact ⟨rfl, rfl, rfl, rfl, rfl, rfl⟩
  · cases h

private theorem except_map_ok {ε α β : Type} {x : Except ε α} {f : α → β} {b : β}
    (h : x.map f = .ok b) : ∃ a, x = .ok a ∧ f a = b := by
  cases x with
  | error e => cases h
  | ok a => exact ⟨a, rfl, Except.ok.inj h⟩

theorem reserveMapping_same {c c' : Collector} (h : c.reserveMapping = .ok c') :
    SameContent c c' := by
  unfold reserveMapping at h
  split_ifs at h
  · obtain ⟨c₁, hclaim, rfl⟩ := except_map_ok h
    have hs := claim_same hclaim
    exact ⟨hs.text, hs.mapping, hs.bom, hs.textOffset, hs.root, hs.opaqueRaw⟩
  · cases h
    exact .refl c

theorem reserveOpaque_same {c c' : Collector} {n : Nat} (h : c.reserveOpaque n = .ok c') :
    SameContent c c' := by
  unfold reserveOpaque at h
  split_ifs at h
  · obtain ⟨c₁, hclaim, rfl⟩ := except_map_ok h
    have hs := claim_same hclaim
    exact ⟨hs.text, hs.mapping, hs.bom, hs.textOffset, hs.root, hs.opaqueRaw⟩
  · cases h
    exact .refl c

/-- Flushing moves text into the document. -/
theorem flush_spec {c c' : Collector} {segs : List Segment} {tail : Bytes}
    (h : Collected c segs tail) (hf : c.flush = .ok c') :
    Collected c' segs tail ∧ c'.text = [] ∧ c'.bom = c.bom := by
  unfold flush at hf
  by_cases hempty : c.text = []
  · rw [if_pos hempty] at hf
    cases hf
    exact ⟨h, hempty, rfl⟩
  · rw [if_neg hempty] at hf
    split at hf
    · cases hf
    · cases hf
    · rename_i suffix heap htree
      by_cases hoverflow : c.revision = 2 ^ 64 - 1
      · rw [if_pos hoverflow] at hf
        cases hf
      rw [if_neg hoverflow] at hf
      cases hf
      obtain ⟨hwf, htext, -⟩ := Tree.textSegments_spec (Tree.rootWf_none .resident) htree
      have htext : Tree.text suffix = c.text := htext
      refine ⟨⟨Tree.concat_wf h.wf hwf, ?_, ?_, h.mapping, h.opaqueRaw, h.clean⟩, rfl, rfl⟩
      · rw [Tree.concat_text, htext, List.append_nil]
        exact h.text
      · rw [Tree.concat_text, htext, List.length_append, h.offset]

theorem reserve_same {c c' : Collector} {span : DecodedSpan} (h : c.reserve span = .ok c') :
    SameContent c c' := by
  unfold reserve at h
  split at h
  · obtain ⟨c₁, hmapping, hopaque⟩ := bind_ok.mp h
    have h₁ := reserveMapping_same hmapping
    have h₂ := reserveOpaque_same hopaque
    exact ⟨h₂.text.trans h₁.text, h₂.mapping.trans h₁.mapping, h₂.bom.trans h₁.bom,
      h₂.textOffset.trans h₁.textOffset, h₂.root.trans h₁.root, h₂.opaqueRaw.trans h₁.opaqueRaw⟩
  · cases h
    exact .refl c

theorem prepare_spec {c c' : Collector} {span : DecodedSpan} {segs : List Segment} {tail : Bytes}
    (h : Collected c segs tail) (hp : c.prepare span = .ok c') :
    Collected c' segs tail ∧ c'.bom = c.bom := by
  unfold prepare at hp
  obtain ⟨c₁, hreserve, hflush⟩ := bind_ok.mp hp
  have hsame := reserve_same hreserve
  have h₁ := h.congr hsame
  split_ifs at hflush
  · obtain ⟨h₂, -, hbom⟩ := flush_spec h₁ hflush
    exact ⟨h₂, hbom.trans hsame.bom⟩
  · cases hflush
    exact ⟨h₁, hsame.bom⟩

/-- A valid span extends the text behind the last unit. -/
theorem write_valid {c c' : Collector} {text : Bytes} {original : Range} {segs : List Segment}
    {tail : Bytes} (h : Collected c segs tail) (hclean : Clean text)
    (hw : c.write ⟨text, original, none⟩ = .ok c') :
    Collected c' segs (tail ++ text) ∧ c'.bom = c.bom := by
  unfold write at hw
  split_ifs at hw with hempty
  · cases hw
    have hempty : text = [] := hempty
    rw [hempty, List.append_nil]
    exact ⟨h, rfl⟩
  · obtain ⟨c₁, hprepare, rfl⟩ := except_map_ok hw
    obtain ⟨h₁, hbom⟩ := prepare_spec h hprepare
    refine ⟨⟨h₁.wf, ?_, h₁.offset, h₁.mapping, h₁.opaqueRaw, ?_⟩, hbom⟩
    · show Tree.text c₁.root ++ (c₁.text ++ text) = _
      rw [← List.append_assoc, h₁.text, textOf_tail]
    · rw [textOf_tail]
      exact h₁.clean.append hclean

/-- An invalid unit becomes one U+FFFD and a mapping. -/
theorem write_invalid {c c' : Collector} {bytes : Bytes} {original : Range} {segs : List Segment}
    {tail : Bytes} (h : Collected c segs tail)
    (hw : c.write ⟨REPLACEMENT, original, some bytes⟩ = .ok c') :
    Collected c' (segs ++ [(tail, bytes)]) [] ∧ c'.bom = c.bom := by
  unfold write at hw
  have hne : REPLACEMENT ≠ [] := by decide
  rw [if_neg hne] at hw
  obtain ⟨c₁, hprepare, rfl⟩ := except_map_ok hw
  obtain ⟨h₁, hbom⟩ := prepare_spec h hprepare
  have hclean : Clean REPLACEMENT := by
    rintro b ⟨⟩
    rfl
  refine ⟨⟨h₁.wf, ?_, h₁.offset, ?_, ?_, ?_⟩, hbom⟩
  · show Tree.text c₁.root ++ (c₁.text ++ REPLACEMENT) = _
    rw [← List.append_assoc, h₁.text, textOf_snoc, List.append_nil]
  · have hlength := congrArg List.length h₁.text
    rw [List.length_append] at hlength
    show (c₁.mapping ++ [_]).map _ = _
    rw [List.map_append, h₁.mapping, mapsFrom_snoc, ← h₁.opaqueRaw, ← hlength]
    simp only [List.map_cons, List.map_nil, h₁.offset, List.length_append, Nat.zero_add,
      replacement_length, Nat.add_assoc]
  · show c₁.opaqueRaw ++ bytes = _
    rw [h₁.opaqueRaw, opaqueOf_snoc]
  · rw [textOf_snoc, List.append_nil]
    exact h₁.clean.append hclean

end Collector

/-! ## §3 Decoding -/

/-- The bytes seen so far are a byte order mark, the collected layout and what is pending;
`total` is the whole file, which tells whether there is a mark. -/
def Decoded (total seen : Bytes) (d : Decoder) (c : Collector) : Prop :=
  ∃ bom segs tail, Collected c segs tail ∧ seen = bom ++ rawOf segs tail ++ d.pending ∧
    (d.start = true → bom = [] ∧ segs = [] ∧ tail = [] ∧ d.pending.length ≤ BOM.length) ∧
    (d.start = false → (bom = BOM ∨ bom = []) ∧ (bom = [] → ¬BOM <+: total))

/-- One more pending byte. -/
theorem Decoded.pend {total seen : Bytes} {d : Decoder} {c : Collector} {byte : UInt8}
    (h : Decoded total seen d c) (hroom : d.start = true → d.pending.length < BOM.length) :
    Decoded total (seen ++ [byte]) { d with pending := d.pending ++ [byte] } c := by
  obtain ⟨bom, segs, tail, hc, hseen, hstart, hsettled⟩ := h
  refine ⟨bom, segs, tail, hc, ?_, fun hs => ?_, hsettled⟩
  · rw [hseen, List.append_assoc]
  · obtain ⟨hbom, hsegs, htail, -⟩ := hstart hs
    have hlt := hroom hs
    refine ⟨hbom, hsegs, htail, ?_⟩
    rw [List.length_append, List.length_singleton]
    exact hlt

/-- Once no more bytes are awaited, the mark is there or the file has none. -/
theorem Decoded.settle {total seen raw future : Bytes} {d : Decoder} {c : Collector} {last : Bool}
    (h : Decoded total seen d c) (htotal : total = seen ++ raw ++ future)
    (hlast : last = true → future = []) (hawaits : ¬d.awaitsBom (last && raw.isEmpty) = true) :
    Decoded total seen d.settle c ∧ d.settle.start = false := by
  obtain ⟨bom, segs, tail, hc, hseen, hstart, hsettled⟩ := h
  unfold Decoder.settle
  by_cases hs : d.start = true
  · obtain ⟨rfl, rfl, rfl, hlength⟩ := hstart hs
    have hseen : seen = d.pending := hseen
    rw [if_pos hs]
    by_cases hmark : d.pending = BOM
    · rw [if_pos hmark]
      refine ⟨⟨BOM, [], [], hc, ?_, fun h => (nomatch h),
        fun _ => ⟨Or.inl rfl, fun h => (nomatch h)⟩⟩, rfl⟩
      rw [hseen, hmark]
      rfl
    · rw [if_neg hmark]
      refine ⟨⟨[], [], [], hc, hseen, fun h => (nomatch h),
        fun _ => ⟨Or.inr rfl, fun _ hprefix => ?_⟩⟩, rfl⟩
      rw [htotal, hseen, List.append_assoc] at hprefix
      have hpending : d.pending <+: BOM :=
        List.prefix_of_prefix_length_le (List.prefix_append _ _) hprefix hlength
      have hshort : d.pending.length < BOM.length := by
        refine Nat.lt_of_le_of_ne hlength fun heq => hmark ?_
        exact hpending.eq_of_length heq
      have hfinal : (last && raw.isEmpty) = true := by
        by_contra hmore
        refine hawaits ?_
        have hmore : (last && raw.isEmpty) = false := by simpa using hmore
        rw [Decoder.awaitsBom, hs, hmore]
        simp [hshort, hpending]
      obtain ⟨hl, hraw⟩ := Bool.and_eq_true_iff.mp hfinal
      rw [List.isEmpty_iff.mp hraw, hlast hl, List.append_nil, List.append_nil] at hprefix
      exact absurd hprefix.length_le (Nat.not_le.mpr hshort)
  · rw [if_neg hs]
    exact ⟨⟨bom, segs, tail, hc, hseen, hstart, hsettled⟩, by simpa using hs⟩

/-- A span of whole scalars. -/
theorem Decoded.bulk {total seen raw : Bytes} {d : Decoder} {c c' : Collector} {original : Range}
    {offset : Nat} (h : Decoded total seen d c) (hs : d.start = false)
    (hread : 0 < d.bulkRead raw)
    (hw : c.write ⟨raw.take (d.bulkRead raw), original, none⟩ = .ok c') :
    Decoded total (seen ++ raw.take (d.bulkRead raw)) { d with offset := offset } c' ∧
      c'.bom = c.bom := by
  obtain ⟨bom, segs, tail, hc, hseen, hstart, hsettled⟩ := h
  have hpending := Decoder.pending_of_bulkRead hread
  have hclean : Clean (raw.take (d.bulkRead raw)) := by
    intro b hb
    rw [List.head?_take, if_neg (Nat.ne_of_gt hread)] at hb
    exact Decoder.bulkRead_head hread b hb
  obtain ⟨hc', hbom⟩ := Collector.write_valid hc hclean hw
  refine ⟨⟨bom, segs, _, hc', ?_, fun h => ?_, hsettled⟩, hbom⟩
  · rw [hseen, hpending, rawOf_tail, List.append_nil, List.append_nil, List.append_assoc]
  · rw [hs] at h
    cases h

/-- One unit, valid or not. -/
theorem Decoded.unit {total seen : Bytes} {d : Decoder} {c c' : Collector} {original : Range}
    {offset n : Nat} {last invalid : Bool} {text : Bytes} (h : Decoded total seen d c)
    (hs : d.start = false) (hunit : Codec.unit d.pending last = some (n, text, invalid))
    (hw : c.write ⟨text, original, Decoder.thenSome invalid (d.pending.take n)⟩ = .ok c') :
    Decoded total seen { d with pending := d.pending.drop n, offset := offset } c' ∧
      c'.bom = c.bom := by
  obtain ⟨bom, segs, tail, hc, hseen, hstart, hsettled⟩ := h
  obtain ⟨htext, hclean⟩ := unit_text hunit
  have hcut : d.pending.take n ++ d.pending.drop n = d.pending := List.take_append_drop n _
  have hnot : ∀ {p : Prop}, d.start = true → p := by
    intro p h
    rw [hs] at h
    cases h
  cases invalid with
  | false =>
    obtain ⟨hc', hbom⟩ := Collector.write_valid hc hclean hw
    refine ⟨⟨bom, segs, _, hc', ?_, hnot, hsettled⟩, hbom⟩
    have htext : text = d.pending.take n := htext
    rw [hseen, rawOf_tail, htext, List.append_assoc, List.append_assoc, List.append_assoc, hcut]
  | true =>
    have htext : text = REPLACEMENT := htext
    rw [htext] at hw
    obtain ⟨hc', hbom⟩ := Collector.write_invalid hc hw
    refine ⟨⟨bom, _, _, hc', ?_, hnot, hsettled⟩, hbom⟩
    rw [hseen, rawOf_snoc, List.append_nil, List.append_assoc, List.append_assoc,
      List.append_assoc, hcut]

/-- A push takes all its bytes; the last one leaves nothing pending. -/
theorem Decoder.push_spec {total seen raw future : Bytes} {d d' : Decoder} {c c' : Collector}
    {last : Bool} (h : Decoded total seen d c) (htotal : total = seen ++ raw ++ future)
    (hlast : last = true → future = []) (hp : d.push raw last c = .ok (d', c')) :
    Decoded total (seen ++ raw) d' c' ∧ c'.bom = c.bom ∧
      (last = true → d'.pending = [] ∧ d'.start = false) := by
  fun_induction Decoder.push d raw last c generalizing seen with
  | case1 d out hawaits =>
    cases hp
    rw [List.append_nil]
    refine ⟨h, rfl, fun hl => ?_⟩
    rw [Decoder.awaitsBom] at hawaits
    simp [hl] at hawaits
  | case2 d out byte rest hawaits ih =>
    have hroom : d.start = true → d.pending.length < BOM.length := by
      intro _
      rw [Decoder.awaitsBom] at hawaits
      simp only [Bool.and_eq_true, decide_eq_true_eq] at hawaits
      exact hawaits.1.2
    have hrest := ih (h.pend hroom) (by rw [htotal]; simp) hp
    rwa [List.append_assoc] at hrest
  | case3 d raw out hawaits hread error hw => cases hp
  | case4 d raw out hawaits hread out' hw ih =>
    obtain ⟨hsettled, hs⟩ := h.settle htotal hlast hawaits
    obtain ⟨hbulk, hbom⟩ := hsettled.bulk hs hread hw
    have htotal' : total = seen ++ raw.take (d.settle.bulkRead raw) ++
        raw.drop (d.settle.bulkRead raw) ++ future := by
      rw [htotal, List.append_assoc seen (raw.take (d.settle.bulkRead raw)), List.take_append_drop]
    obtain ⟨hdone, hbom', hend⟩ := ih hbulk htotal' hp
    rw [List.append_assoc, List.take_append_drop] at hdone
    exact ⟨hdone, hbom'.trans hbom, hend⟩
  | case5 d raw out hawaits hread n text invalid hunit error hw => cases hp
  | case6 d raw out hawaits hread n text invalid hunit out' hw ih =>
    obtain ⟨hsettled, hs⟩ := h.settle htotal hlast hawaits
    obtain ⟨hone, hbom⟩ := hsettled.unit hs hunit hw
    obtain ⟨hdone, hbom', hend⟩ := ih hone htotal hp
    exact ⟨hdone, hbom'.trans hbom, hend⟩
  | case7 d out hread hunit hawaits =>
    obtain ⟨hsettled, hs⟩ := h.settle htotal hlast hawaits
    cases hp
    rw [List.append_nil]
    refine ⟨hsettled, rfl, fun hl => ⟨?_, hs⟩⟩
    rw [hl] at hunit
    exact unit_last hunit
  | case8 d out byte rest hread hunit hawaits ih =>
    obtain ⟨hsettled, hs⟩ := h.settle htotal hlast hawaits
    have hroom : d.settle.start = true → d.settle.pending.length < BOM.length := by
      intro hstart
      exact absurd (hstart.symm.trans hs) (by decide)
    have hrest := ih (hsettled.pend hroom) (by rw [htotal]; simp) hp
    rwa [List.append_assoc] at hrest

/-! ## §4 The builder -/

/-- The file as far as the builder has it. -/
structure Fed (total seen : Bytes) (b : ResidentBuilder) : Prop where
  decoded : Decoded total seen b.decoder b.collector
  received : b.received = seen.length

theorem new_fed {sample total : Bytes} {heap : Heap} {rawLimit maxMappingBytes : Nat}
    {b : ResidentBuilder} (h : ResidentBuilder.new sample heap rawLimit maxMappingBytes = .ok b) :
    Fed total [] b ∧ b.collector.bom = BOM.isPrefixOf sample := by
  unfold ResidentBuilder.new at h
  split at h
  · cases h
  · cases h
    have hcollected : ∀ c : Collector, c.text = [] → c.mapping = [] → c.textOffset = 0 →
        c.root = none → c.opaqueRaw = [] → Collected c [] [] := by
      intro c htext hmapping hoffset hroot hopaque
      refine ⟨?_, ?_, ?_, ?_, hopaque, fun b hb => (by cases hb)⟩
      · rw [hroot]
        exact Tree.rootWf_none _
      · rw [hroot, htext]
        rfl
      · rw [hroot, hoffset]
        rfl
      · rw [hmapping]
        rfl
    exact ⟨⟨⟨[], [], [], hcollected _ rfl rfl rfl rfl rfl, rfl,
      fun _ => ⟨rfl, rfl, rfl, Nat.zero_le _⟩, fun hs => (by cases hs)⟩, rfl⟩, rfl⟩

theorem Fed.push {total seen raw future : Bytes} {b b' : ResidentBuilder} (h : Fed total seen b)
    (htotal : total = seen ++ raw ++ future) (hp : b.push raw = .ok b') :
    Fed total (seen ++ raw) b' ∧ b'.collector.bom = b.collector.bom := by
  unfold ResidentBuilder.push at hp
  split_ifs at hp
  split at hp
  · cases hp
  · rename_i decoder collector hdecoder
    cases hp
    have hmore : false = true → future = [] := fun h => (nomatch h)
    obtain ⟨hdecoded, hbom, -⟩ := Decoder.push_spec h.decoded htotal hmore hdecoder
    refine ⟨⟨hdecoded, ?_⟩, hbom⟩
    rw [List.length_append, ← h.received]

theorem Decoded.flush {total seen : Bytes} {d : Decoder} {c c' : Collector}
    (h : Decoded total seen d c) (hf : c.flush = .ok c') :
    Decoded total seen d c' ∧ c'.bom = c.bom := by
  obtain ⟨bom, segs, tail, hc, hrest⟩ := h
  obtain ⟨hc', -, hbom⟩ := Collector.flush_spec hc hf
  exact ⟨⟨bom, segs, tail, hc', hrest⟩, hbom⟩

/-- All the bytes fed are accounted for. -/
theorem Fed.feed {total seen future : Bytes} {b b' : ResidentBuilder}
    {feeds : List ResidentBuilder.Feed} (h : Fed total seen b)
    (htotal : total = seen ++ feeds.flatMap ResidentBuilder.Feed.bytes ++ future)
    (hf : b.feed feeds = .ok b') :
    Fed total (seen ++ feeds.flatMap ResidentBuilder.Feed.bytes) b' ∧
      b'.collector.bom = b.collector.bom := by
  induction feeds generalizing b seen with
  | nil =>
    cases hf
    rw [List.flatMap_nil, List.append_nil]
    exact ⟨h, rfl⟩
  | cons f feeds ih =>
    cases f with
    | push raw =>
      obtain ⟨b₁, hpush, hrest⟩ := bind_ok.mp hf
      rw [List.flatMap_cons] at htotal ⊢
      have htotal₁ : total =
          seen ++ raw ++ (feeds.flatMap ResidentBuilder.Feed.bytes ++ future) := by
        rw [htotal]
        simp [ResidentBuilder.Feed.bytes]
      have htotal₂ : total = seen ++ raw ++ feeds.flatMap ResidentBuilder.Feed.bytes ++ future := by
        rw [htotal₁, List.append_assoc (seen ++ raw)]
      obtain ⟨h₁, hbom⟩ := h.push htotal₁ hpush
      obtain ⟨h₂, hbom₂⟩ := ih h₁ htotal₂ hrest
      refine ⟨?_, hbom₂.trans hbom⟩
      rw [← List.append_assoc]
      exact h₂
    | peek =>
      obtain ⟨b₁, hpeek, hrest⟩ := bind_ok.mp hf
      have hbytes : ((ResidentBuilder.Feed.peek :: feeds).flatMap ResidentBuilder.Feed.bytes) =
          feeds.flatMap ResidentBuilder.Feed.bytes := rfl
      rw [hbytes] at htotal ⊢
      unfold ResidentBuilder.flushed at hpeek
      split at hpeek
      · cases hpeek
      · rename_i collector hflush
        cases hpeek
        obtain ⟨hdecoded, hbom⟩ := h.decoded.flush hflush
        have hfed : Fed total seen { b with collector := collector } := ⟨hdecoded, h.received⟩
        obtain ⟨h₂, hbom₂⟩ := ih hfed htotal hrest
        exact ⟨h₂, hbom₂.trans hbom⟩

/-- What `finish` has decoded: a mark, units and text that make up the file. -/
theorem Fed.drain {total : Bytes} {b : ResidentBuilder} {c : Collector} (h : Fed total total b)
    (hd : b.drain = .ok c) :
    ∃ bom segs tail, Collected c segs tail ∧ total = bom ++ rawOf segs tail ∧
      (bom = BOM ∨ bom = [] ∧ ¬BOM <+: total) ∧ c.text = [] ∧ c.bom = b.collector.bom := by
  unfold ResidentBuilder.drain at hd
  split at hd
  · cases hd
  · rename_i decoder collector hpush
    have htotal : total = total ++ [] ++ [] := by simp
    obtain ⟨⟨bom, segs, tail, hc, hseen, -, hsettled⟩, hbom, hend⟩ :=
      Decoder.push_spec h.decoded htotal (fun _ => rfl) hpush
    obtain ⟨hpending, hstart⟩ := hend rfl
    obtain ⟨hc', hempty, hbom'⟩ := Collector.flush_spec hc hd
    obtain ⟨hmark, hnone⟩ := hsettled hstart
    rw [hpending, List.append_nil, List.append_nil] at hseen
    refine ⟨bom, segs, tail, hc', hseen, ?_, hempty, hbom'.trans hbom⟩
    rcases hmark with hmark | hmark
    · exact Or.inl hmark
    · exact Or.inr ⟨hmark, hnone hmark⟩

/-- The units have one U+FFFD each, so the sum tells whether the mark was taken for one. -/
theorem rebuilds_iff {c : Collector} {segs : List Segment} {tail bom total : Bytes}
    (h : Collected c segs tail) (hempty : c.text = []) (htotal : total = bom ++ rawOf segs tail) :
    ResidentBuilder.rebuilds c total.length = true ↔
      bom.length = if c.bom then BOM.length else 0 := by
  have hmapping : c.mapping.length = segs.length := by
    rw [← List.length_map, h.mapping, mapsFrom_length]
  have hunits : (c.mapping.all fun m => m.text.len == REPLACEMENT_LEN) = true := by
    have hlen : ∀ (t q : Nat) (segs : List Segment), ∀ r ∈ mapsFrom t q segs,
        r.1.len = REPLACEMENT_LEN := by
      intro t q segs
      induction segs generalizing t q with
      | nil =>
        intro r hr
        cases hr
      | cons s segs ih =>
        intro r hr
        rcases List.mem_cons.mp hr with rfl | hr
        · simp only [Range.len]
          omega
        · exact ih _ _ r hr
    rw [List.all_eq_true]
    intro m hm
    have hmem : (m.text, m.raw) ∈ c.mapping.map (fun m => (m.text, m.raw)) :=
      List.mem_map.mpr ⟨m, hm, rfl⟩
    rw [h.mapping] at hmem
    exact beq_iff_eq.mpr (hlen 0 0 segs _ hmem)
  have htext : (Tree.text c.root).length = (textOf segs tail).length := by
    rw [← h.text, hempty, List.append_nil]
  have hbalance := length_balance segs tail
  have hbytes : (Tree.summary c.root).bytes = (textOf segs tail).length := h.wf.bytes.trans htext
  have hle : c.mapping.length * REPLACEMENT_LEN ≤ (if c.bom then BOM.length else 0) +
      (Tree.summary c.root).bytes + c.opaqueRaw.length := by
    rw [hmapping, hbytes, h.opaqueRaw]
    omega
  unfold ResidentBuilder.rebuilds
  simp only [hunits, Bool.true_and, checkedSub_eq hle]
  rw [beq_iff_eq, Option.some.injEq, hmapping, hbytes, h.opaqueRaw, htotal, List.length_append]
  omega

end BareLine.Codec
