import BareLine.JsonTools.Writes

/-!
# Texts through the JSON tools

The parser accepts the JSON texts whose values stay within its depth, whatever the pieces they come
in, and every layout keeps the document.
-/

namespace BareLine.JsonTools.Process

open Lib

variable (layout : Layout)

/-! ## §1 Texts -/

/-- A text that was accepted is a document. -/
theorem processWithIndent_sound {unit : Bytes} {input : List Bytes} {r : List Node × Bytes}
    (hreads : ∀ p ∈ input, p ≠ []) (h : processWithIndent layout unit input = .ok r) :
    ∃ d : Document, d.render = input.flatten ∧ d.value.levels ≤ 128 := by
  have htext : Sound Any 0 0 (value layout unit 129 >>= fun _ => ws >>= fun _ =>
      peek >>= fun next => if next.isSome then fail "trailing JSON data" else pure ())
      fun _ bytes => ∃ d : Document, d.render = bytes ∧ d.value.levels ≤ 128 := by
    refine .bind' (value_sound layout unit 129 0) ?_
    rintro - _ ⟨before, t, rfl, hlevels⟩
    refine .bind' (ws_sound 0) ?_
    rintro - _ ⟨behind, rfl⟩
    refine .peek fun next => ?_
    split_ifs
    · exact .fail
    · refine (Sound.pure ()).mono ?_
      rintro - _ ⟨-, rfl⟩
      refine ⟨⟨before, t, behind⟩, ?_, Nat.zero_add t.levels ▸ hlevels⟩
      simp only [Document.render, List.append_assoc, List.append_nil]
  have hend : ∀ s a s', (value layout unit 129 >>= fun _ => ws >>= fun _ => peek >>= fun next =>
      if next.isSome then fail "trailing JSON data" else pure ()) s = .ok (a, s') → s.Filled →
        s.depth = 0 → s'.rest = [] := by
    intro s a s' hrun hs hd
    obtain ⟨_, s₁, hvalue, hrun⟩ := bind_inv hrun
    obtain ⟨hs₁, hd₁, -⟩ := value_sound (P := Any) layout unit 129 0 s _ s₁ hs hd trivial hvalue
    obtain ⟨_, s₂, hws, hrun⟩ := bind_inv hrun
    obtain ⟨hs₂, -⟩ := ws_sound (P := Any) 0 s₁ _ s₂ hs₁ hd₁ trivial hws
    rw [bind_run (peek_run hs₂)] at hrun
    split_ifs at hrun with hsome
    · cases hrun
    · obtain ⟨-, rfl⟩ := pure_inv hrun
      rw [Option.not_isSome_iff_eq_none] at hsome
      exact List.head?_eq_none_iff.mp hsome
  rw [processWithIndent] at h
  split at h
  · cases h
  · rename_i s' hrun
    obtain ⟨-, -, bytes, hrest, d, rfl, hlevels⟩ :=
      htext ⟨input, [], 0, 1, 0, []⟩ () s' hreads rfl trivial hrun
    rw [hend _ _ _ hrun hreads rfl, List.append_nil] at hrest
    exact ⟨d, hrest.symm, hlevels⟩

/-- What a document gives: the nodes of its root and its first children, and its layout. -/
theorem processWithIndent_run (unit : Space) {input : List Bytes} (hreads : ∀ p ∈ input, p ≠ [])
    {d : Document} (hrender : d.render = input.flatten) (hlevels : d.value.levels ≤ 128) :
    processWithIndent layout unit.bytes input =
      .ok (kept (d.parts.map fun part => part.2.node part.1),
        written layout (d.laid layout unit).render) := by
  have hdone : Covers 0 0 (peek >>= fun next =>
      if next.isSome then fail "trailing JSON data" else pure () : Action Unit) [] [] (fun _ => [])
      (fun rest => rest = []) () := by
    refine .peek (o := none) ?_ fun rest hrest => by rw [hrest]; rfl
    exact (Covers.of_complete (.pure ())).mono fun _ _ => trivial
  have hspace : ∀ b : UInt8, isSpace b = true → continues b = false := by
    grind [isSpace, isDigit, continues]
  have htext := (covered layout unit d.value 129 0 (by omega) (by omega) d.before).bind
    (g := fun _ => ws >>= fun _ => peek >>= fun next =>
      if next.isSome then fail "trailing JSON data" else pure ())
    ((Covers.of_complete (ws_complete d.behind)).bind hdone fun rest hrest => by
      subst hrest
      rintro _ ⟨⟩) fun rest hrest => by
        subst hrest
        simp only [List.append_nil]
        intro b hb
        exact hspace b (d.behind.spaces b (List.mem_of_mem_head? hb))
  obtain ⟨s', hrun, -, hlists⟩ := htext ⟨input, [], 0, 1, 0, []⟩ hreads rfl (Nat.zero_le _) []
    (by
      rw [Parser.rest, ← hrender, Document.render]
      simp only [List.append_nil, List.append_assoc]) rfl
  have hnodes := hlists.nodes
  have hout := hlists.out
  simp only [List.append_nil, List.nil_append, Nat.zero_add, Json.listed_root] at hnodes hout
  rw [processWithIndent, hrun, Document.laid, Document.render]
  dsimp only
  rw [hnodes, hout]
  simp only [Space.empty, List.nil_append, List.append_nil]

/-! ## §2 The guarantee -/

/-- The indentation of `process`. -/
def twoSpaces : Space :=
  ⟨[0x20, 0x20], List.forall_mem_cons.mpr ⟨rfl, List.forall_mem_singleton.mpr rfl⟩⟩

theorem process_run {input : List Bytes} (hreads : ∀ p ∈ input, p ≠ []) {d : Document}
    (hrender : d.render = input.flatten) (hlevels : d.value.levels ≤ 128) :
    process layout input = .ok (kept (d.parts.map fun part => part.2.node part.1),
      written layout (d.laid layout twoSpaces).render) :=
  processWithIndent_run layout twoSpaces hreads hrender hlevels

/-- The output of a layout gives the output of any other. -/
theorem process_again {again : List Bytes} (hreads : ∀ p ∈ again, p ≠ []) (layout' : Layout)
    {d : Document} (hrender : again.flatten = (d.laid layout' twoSpaces).render)
    (hlevels : d.value.levels ≤ 128) :
    ∃ nodes, process layout again =
      .ok (nodes, written layout (d.laid layout twoSpaces).render) := by
  have hagain := process_run layout hreads hrender.symm
    (by rw [Document.laid, Json.levels_laid]; exact hlevels)
  rw [Document.laid_laid] at hagain
  exact ⟨_, hagain⟩

/-- A node is the range of its part. -/
theorem node_range {d : Document} {part : Nat × Json .value} (h : part ∈ d.parts) :
    (d.render.drop (part.2.node part.1).start).take
      ((part.2.node part.1).stop - (part.2.node part.1).start) = part.2.render := by
  show (d.render.drop part.1).take (part.1 + part.2.render.length - part.1) = part.2.render
  rw [Nat.add_sub_cancel_left]
  exact Document.part_at h

/-- The JSON tools keep a document: whatever pieces a text comes in, every layout accepts it if and
only if it is a document within the depth; the parts of the text that are no tokens are
whitespace, the shortest layout writes the tokens, the other one a document of the same tokens,
and laying an output out again gives what the layout gave for the text; the nodes are the ranges of
the root and its children, as many as are kept. -/
theorem process_keeps_document (input : List Bytes) (hreads : ∀ p ∈ input, p ≠ []) :
    (∀ layout, (∃ result, process layout input = .ok result) ↔
      ∃ d : Document, d.render = input.flatten ∧ d.value.levels ≤ 128) ∧
    ∀ d : Document, d.render = input.flatten → d.value.levels ≤ 128 →
      (d.pieces.map (·.bytes)).flatten = input.flatten ∧ (∀ p ∈ d.pieces, p.Blank) ∧
      ∃ nodes minified pretty,
        process .validate input = .ok (nodes, []) ∧
        process .minify input = .ok (nodes, minified) ∧
        process .pretty input = .ok (nodes, pretty) ∧
        minified = d.tokens.flatten ∧
        (∃ d' : Document, d'.render = pretty ∧ d'.tokens = d.tokens) ∧
        (∀ again : List Bytes, (∀ p ∈ again, p ≠ []) → again.flatten = minified →
          ∃ nodes', process .minify again = .ok (nodes', minified)) ∧
        (∀ again : List Bytes, (∀ p ∈ again, p ≠ []) → again.flatten = pretty →
          (∃ nodes', process .pretty again = .ok (nodes', pretty)) ∧
          ∃ nodes', process .minify again = .ok (nodes', minified)) ∧
        nodes.length = min 256 d.parts.length ∧
        ∀ i, ∀ hi : i < nodes.length, ∃ part, d.parts[i]? = some part ∧
          nodes[i].start = part.1 ∧
          (input.flatten.drop nodes[i].start).take (nodes[i].stop - nodes[i].start) =
            part.2.render := by
  refine ⟨fun layout => ⟨?_, ?_⟩, ?_⟩
  · rintro ⟨result, hrun⟩
    exact processWithIndent_sound layout hreads hrun
  · rintro ⟨d, hrender, hlevels⟩
    exact ⟨_, process_run layout hreads hrender hlevels⟩
  · intro d hrender hlevels
    refine ⟨d.pieces_flatten.trans hrender, d.pieces_blank, _, _, _,
      process_run .validate hreads hrender hlevels, process_run .minify hreads hrender hlevels,
      process_run .pretty hreads hrender hlevels, d.render_minified twoSpaces,
      ⟨_, rfl, d.tokens_laid .pretty twoSpaces⟩, ?_, ?_, ?_, ?_⟩
    · intro again hagain hflatten
      exact process_again .minify hagain .minify hflatten hlevels
    · intro again hagain hflatten
      exact ⟨process_again .pretty hagain .pretty hflatten hlevels,
        process_again .minify hagain .pretty hflatten hlevels⟩
    · rw [kept, List.length_take, List.length_map]
    · intro i hi
      have hparts : i < d.parts.length := by
        rw [kept, List.length_take, List.length_map] at hi
        omega
      have hnode : (kept (d.parts.map fun part => part.2.node part.1))[i] =
          d.parts[i].2.node d.parts[i].1 := by
        simp only [kept, List.getElem_take, List.getElem_map]
      refine ⟨d.parts[i], List.getElem?_eq_getElem hparts, ?_, ?_⟩
      · rw [hnode]
        rfl
      · rw [hnode, ← hrender]
        exact node_range (List.getElem_mem hparts)

/-- An array of one string, behind a space. -/
def oneItem : Document where
  before := .empty
  value := .filled .array (.last (.element .blankByte) (.scalar (.string [.escape 0x6E (by decide)]))
    .empty)
  behind := .empty

/-- Its bytes come in two pieces, the second from the middle of an escape on. -/
theorem one_item_kept : ∃ nodes pretty,
    process .minify [[0x5B, 0x20, 0x22, 0x5C], [0x6E, 0x22, 0x5D]] =
      .ok (nodes, [0x5B, 0x22, 0x5C, 0x6E, 0x22, 0x5D]) ∧ nodes.length = 2 ∧
    process .pretty [[0x5B, 0x20, 0x22, 0x5C], [0x6E, 0x22, 0x5D]] = .ok (nodes, pretty) ∧
    ∃ d : Document, d.render = pretty ∧ d.tokens = oneItem.tokens := by
  obtain ⟨-, h⟩ := process_keeps_document [[0x5B, 0x20, 0x22, 0x5C], [0x6E, 0x22, 0x5D]] (by decide)
  obtain ⟨-, -, nodes, minified, pretty, -, hminify, hpretty, hminified, hkept, -, -, hlength, -⟩ :=
    h oneItem rfl (by decide)
  have htokens : oneItem.tokens.flatten = [0x5B, 0x22, 0x5C, 0x6E, 0x22, 0x5D] := rfl
  exact ⟨nodes, pretty, by rw [hminify, hminified, htokens], hlength, hpretty, hkept⟩

end BareLine.JsonTools.Process
