import BareLine.JsonTools.Guarantees
import BareLine.Lib.TwoRuns

/-!
# Errors of the JSON tools

The runs over one text agree, whatever pieces it comes in and whatever is written of it.  An error
lies in the text, at the line it names.
-/

namespace BareLine.JsonTools.Process

open Lib

/-! ## §1 Two runs -/

/-- The parser has read a front of the text; its offset and its line are those of the end. -/
structure Parser.At (total : Bytes) (s : Parser) : Prop where
  filled : s.Filled
  read : ∃ front, total = front ++ s.rest ∧ s.offset = front.length ∧
    s.line = front.count 0x0A + 1

/-- Two parsers at the same place of a text; they have written the same if `same` holds. -/
structure Beside (total : Bytes) (same : Prop) (s t : Parser) : Prop where
  at_left : s.At total
  filled : t.Filled
  rest : t.rest = s.rest
  offset : t.offset = s.offset
  line : t.line = s.line
  depth : t.depth = s.depth
  nodes : t.nodes = s.nodes
  out : same → t.out = s.out

/-- One error, in the text and at the line it names. -/
structure Located (total : Bytes) (e e' : Error) : Prop where
  same : e' = e
  inside : e.offset ≤ total.length
  line : e.line = (total.take e.offset).count 0x0A + 1

/-- The results of two actions agree. -/
abbrev Results (total : Bytes) (same : Prop) {α : Type} (x y : Except Error (α × Parser)) : Prop :=
  Agree (Beside total same) (Located total) x y

/-- Two actions that run alike over a text. -/
abbrev Alike (total : Bytes) (same : Prop) {α : Type} (f g : Action α) : Prop :=
  TwoRuns (Beside total same) (Located total) f g

variable {total : Bytes} {same : Prop}

/-- Some bytes were read, and their line feeds counted. -/
theorem Parser.At.reads {s s' : Parser} {bytes out : Bytes} (h : s.At total)
    (hreads : Reads s s' bytes out) (hline : s'.line = s.line + bytes.count 0x0A) :
    s'.At total := by
  obtain ⟨front, htotal, hoffset, hfront⟩ := h.read
  refine ⟨hreads.filled, front ++ bytes, ?_, ?_, ?_⟩
  · rw [htotal, hreads.rest, List.append_assoc]
  · rw [hreads.offset, hoffset, List.length_append]
  · rw [hline, hfront, List.count_append]
    exact Nat.add_right_comm ..

/-- Both parsers have read the same bytes. -/
theorem Beside.reads {s t s' t' : Parser} {bytes out out' : Bytes} (h : Beside total same s t)
    (hs : Reads s s' bytes out) (ht : Reads t t' bytes out')
    (hline : s'.line = s.line + bytes.count 0x0A) (hline' : t'.line = t.line + bytes.count 0x0A)
    (hout : same → out' = out) : Beside total same s' t' where
  at_left := h.at_left.reads hs hline
  filled := ht.filled
  rest := ht.rest_eq (h.rest.trans hs.rest)
  offset := by rw [ht.offset, hs.offset, h.offset]
  line := by rw [hline, hline', h.line]
  depth := by rw [ht.depth, hs.depth, h.depth]
  nodes := by rw [ht.nodes, hs.nodes, h.nodes]
  out hsame := by rw [ht.out, hs.out, h.out hsame, hout hsame]

/-- What is written makes no other difference. -/
theorem Beside.write {s t : Parser} (h : Beside total same s t) {out out' : Bytes}
    (hout : same → out' = out) : Beside total same { s with out := out } { t with out := out' } :=
  ⟨⟨h.at_left.filled, h.at_left.read⟩, h.filled, h.rest, h.offset, h.line, h.depth, h.nodes, hout⟩

/-! ## §2 Bytes -/

theorem fail_alike {α : Type} (message : String) :
    Alike total same (fail message : Action α) (fail message) := by
  intro s t h
  obtain ⟨front, htotal, hoffset, hline⟩ := h.at_left.read
  refine .error ⟨?_, ?_, ?_⟩
  · rw [h.offset, h.line]
  · show s.offset ≤ total.length
    rw [htotal, hoffset, List.length_append]
    exact Nat.le_add_right ..
  · show s.line = (total.take s.offset).count 0x0A + 1
    rw [htotal, hoffset, List.take_left, hline]

theorem peek_alike : Alike total same peek peek := by
  intro s t h
  rw [peek_run h.at_left.filled, peek_run h.filled, h.rest]
  exact .ok _ h

/-- The line counts a line feed that is taken. -/
theorem take_line {s s' : Parser} {b : UInt8} (h : take s = .ok (b, s')) :
    s'.line = s.line + [b].count 0x0A := by
  rw [take, bind_run (x := peek) rfl] at h
  cases hhead : s.buffer.head? with
  | none =>
    rw [hhead] at h
    cases h
  | some c =>
    rw [hhead] at h
    obtain ⟨rfl, rfl⟩ := Prod.mk.inj (Except.ok.inj h)
    show (if c = 0x0A then s.line + 1 else s.line) = _
    rw [List.count_singleton]
    split_ifs <;> simp_all

theorem take_alike : Alike total same take take := by
  intro s t h
  cases hrest : s.rest with
  | nil =>
    have hs := peek_run h.at_left.filled
    have ht := peek_run h.filled
    rw [h.rest] at ht
    rw [take, bind_run hs, bind_run ht, hrest]
    exact fail_alike _ s t h
  | cons b rest =>
    obtain ⟨s', hs, hreads⟩ := take_run h.at_left.filled hrest
    obtain ⟨t', ht, hreads'⟩ := take_run h.filled (h.rest.trans hrest)
    rw [hs, ht]
    exact .ok b (h.reads hreads hreads' (take_line hs) (take_line ht) fun _ => rfl)

/-- A loop over as many bytes as are left. -/
theorem rest_alike {α : Type} {f g : Nat → Action α}
    (h : ∀ left, Alike total same (f left) (g left)) :
    Alike total same (fun s => f s.rest.length s) (fun s => g s.rest.length s) := by
  intro s t hst
  dsimp only
  rw [hst.rest]
  exact h _ s t hst

theorem whileNext_alike {test : UInt8 → Bool} {body body' : Action UInt8}
    (h : Alike total same body body') (left : Nat) :
    Alike total same (whileNext test body left) (whileNext test body' left) := by
  induction left with
  | zero => exact .pure ()
  | succ left ih =>
    refine .bind peek_alike fun head => ?_
    cases head with
    | none => exact .pure ()
    | some b => exact .ite (.bind h fun _ => ih) (.pure ())

theorem ws_alike : Alike total same ws ws := rest_alike fun left => whileNext_alike take_alike left

section Layouts

variable {layout layout' : Layout} {unit unit' : Bytes}
  (hsame : same → layout' = layout ∧ unit' = unit)

include hsame

theorem emit_alike (bytes : Bytes) : Alike total same (emit layout bytes) (emit layout' bytes) :=
  .modify fun _ _ h => h.write fun hs => by rw [h.out hs, (hsame hs).1]

theorem copy_alike : Alike total same (copy layout) (copy layout') :=
  .bind take_alike fun b => .bind (emit_alike hsame [b]) fun _ => .pure b

theorem indent_alike : Alike total same (indent layout unit) (indent layout' unit') := by
  intro s t h
  rw [indent, indent]
  split_ifs with hpretty hpretty' hpretty'
  · refine .ok () (h.write fun hs => ?_)
    obtain ⟨rfl, rfl⟩ := hsame hs
    show (t.out ++ written layout' [0x0A]) ++ (List.replicate t.depth unit').flatten = _
    rw [h.out hs, h.depth]
  · exact .ok () (h.write fun hs => absurd ((hsame hs).1.trans hpretty) hpretty')
  · exact .ok () (h.write fun hs => absurd ((hsame hs).1.symm.trans hpretty') hpretty)
  · exact .ok () h

theorem expect_alike (b : UInt8) : Alike total same (expect layout b) (expect layout' b) :=
  .bind peek_alike fun _ => .ite (fail_alike _) (.bind (copy_alike hsame) fun _ => .pure ())

/-! ## §3 Strings -/

theorem hexLoop_alike (count value : Nat) :
    Alike total same (hexLoop layout count value) (hexLoop layout' count value) := by
  induction count generalizing value with
  | zero => exact .pure value
  | succ count ih =>
    refine .bind peek_alike fun head => ?_
    cases head with
    | none => exact fail_alike _
    | some b =>
      dsimp only
      cases hexDigit b with
      | none => exact fail_alike _
      | some digit => exact .bind (copy_alike hsame) fun _ => ih _

theorem escape_alike : Alike total same (escape layout) (escape layout') := by
  have hhex : Alike total same (hex layout) (hex layout') := hexLoop_alike hsame 4 0
  have hsecond : Alike total same
      (expect layout 0x5C >>= fun _ => expect layout 0x75 >>= fun _ => hex layout >>= fun m =>
        if isLow m then pure () else fail "invalid surrogate pair")
      (expect layout' 0x5C >>= fun _ => expect layout' 0x75 >>= fun _ => hex layout' >>= fun m =>
        if isLow m then pure () else fail "invalid surrogate pair") :=
    .bind (expect_alike hsame _) fun _ => .bind (expect_alike hsame _) fun _ =>
      .bind hhex fun _ => .ite (.pure ()) (fail_alike _)
  refine .bind (copy_alike hsame) fun b => .ite (.pure ()) (.ite ?_ (fail_alike _))
  exact .bind hhex fun n => .ite hsecond (.ite (fail_alike _) (.pure ()))

omit hsame in
theorem takeBytes_alike (count : Nat) :
    Alike total same (takeBytes count) (takeBytes count) := by
  induction count with
  | zero => exact .pure []
  | succ count ih => exact .bind take_alike fun b => .bind ih fun bytes => .pure (b :: bytes)

theorem scalar_alike (lead : UInt8) :
    Alike total same (scalar layout lead) (scalar layout' lead) := by
  rw [scalar, scalar]
  cases scalarWidth lead with
  | none => exact fail_alike _
  | some width =>
    refine .bind (takeBytes_alike width) fun bytes => ?_
    cases Codec.fromUtf8 bytes with
    | error e => exact fail_alike _
    | ok text => exact emit_alike hsame bytes

/-- The loop goes on from fewer bytes. -/
theorem stringAt_agree {next next' : Action Unit} {s t : Parser} (h : Beside total same s t)
    (hnext : ∀ s' t', Beside total same s' t' → s'.rest.length < s.rest.length →
      Results total same (next s') (next' t')) :
    Results total same (stringAt layout next s) (stringAt layout' next' t) := by
  have hs := peek_run h.at_left.filled
  have ht := peek_run h.filled
  rw [h.rest] at ht
  rw [stringAt, stringAt, bind_run hs, bind_run ht]
  cases hhead : s.rest.head? with
  | none => exact fail_alike _ s t h
  | some b =>
    -- an action that reads at least a byte, and the loop behind it
    have hgo {β : Type} {f f' : Action β} (halike : Alike total same f f')
        (hreads : Sound (Starts (some b)) s.depth s.depth f fun _ bytes => bytes ≠ []) :
        Results total same ((f >>= fun _ => next) s) ((f' >>= fun _ => next') t) := by
      refine (halike s t h).bind fun a s' t' hrun hst => hnext s' t' hst ?_
      obtain ⟨-, -, bytes, hrest, hne⟩ := hreads s a s' h.at_left.filled rfl hhead hrun
      rw [hrest, List.length_append]
      exact Nat.lt_add_of_pos_left (List.length_pos_iff.mpr hne)
    have hcopied : Sound (Starts (some b)) s.depth s.depth (copy layout)
        fun _ bytes => bytes ≠ [] :=
      (copy_seen layout s.depth b).mono fun _ _ hb => hb ▸ List.cons_ne_nil _ _
    dsimp only
    split_ifs with hquote hcontrol hslash hlong
    · exact TwoRuns.bind (copy_alike hsame) (fun _ => .pure ()) s t h
    · exact fail_alike _ s t h
    · have hescape := hgo (.bind (copy_alike hsame) fun _ => escape_alike hsame)
        ((hcopied.bind fun _ => escape_sound layout s.depth).mono fun _ _ hb => by
          obtain ⟨_, x, y, rfl, hx, -⟩ := hb
          exact List.append_ne_nil_of_left_ne_nil hx y)
      simp only [bind_assoc] at hescape
      exact hescape
    · refine hgo (scalar_alike hsame b) ((scalar_sound layout s.depth hlong).mono ?_)
      rintro - _ ⟨part, rfl⟩
      exact render_ne_nil part
    · exact hgo (copy_alike hsame) hcopied

omit hsame in
/-- The loop takes the ordinary bytes in front, whatever pieces they come in. -/
theorem stringLoop_spans {rounds : Nat} {s : Parser} (hs : s.Filled)
    (h : s.rest.length < rounds) :
    ∃ rounds' s', stringLoop layout rounds s = stringAt layout (stringLoop layout rounds') s' ∧
      s'.rest.length ≤ rounds' ∧ s'.line = s.line ∧
      Reads s s' (s.rest.takeWhile isOrdinary) (written layout (s.rest.takeWhile isOrdinary)) := by
  induction rounds generalizing s with
  | zero => exact absurd h (Nat.not_lt_zero _)
  | succ rounds ih =>
    rw [stringLoop, bind_run (x := get) rfl]
    by_cases hempty : s.buffer.takeWhile isOrdinary = []
    · have hnone : s.rest.takeWhile isOrdinary = [] := by
        cases hrest : s.rest with
        | nil => rfl
        | cons b t =>
          have hhead := hs.buffer_head
          rw [hrest] at hhead
          obtain ⟨u, hu⟩ := List.head?_eq_some_iff.mp hhead
          rw [hu, List.takeWhile_cons] at hempty
          rw [List.takeWhile_cons]
          split_ifs at hempty with hb
          rw [if_neg hb]
      rw [if_neg (not_not_intro hempty), hnone, written_nil]
      exact ⟨rounds, s, rfl, Nat.le_of_lt_succ h, rfl, .refl hs⟩
    · have hreads := span_reads layout hs
      have hordinary : ∀ b ∈ s.buffer.takeWhile isOrdinary, isOrdinary b = true :=
        fun b hb => List.all_eq_true.mp List.all_takeWhile b hb
      rw [if_pos hempty, bind_run (x := modify _) rfl]
      have hlen := congrArg List.length hreads.rest
      rw [List.length_append] at hlen
      have hpos := List.length_pos_iff.mpr hempty
      obtain ⟨rounds', s', hrun, hrounds, hline, hreads'⟩ := ih hreads.filled (by omega)
      have hword := (congrArg (List.takeWhile isOrdinary) hreads.rest).trans
        (List.takeWhile_append_of_pos hordinary)
      rw [hword, written_append]
      exact ⟨rounds', s', hrun, hrounds, hline, hreads.trans hreads'⟩

/-- The rounds make no difference where there are more than bytes. -/
theorem stringLoop_agree (bound : Nat) {rounds rounds' : Nat} {s t : Parser}
    (h : Beside total same s t) (hbound : s.rest.length < bound)
    (hrounds : s.rest.length < rounds) (hrounds' : s.rest.length < rounds') :
    Results total same (stringLoop layout rounds s) (stringLoop layout' rounds' t) := by
  induction bound generalizing rounds rounds' s t with
  | zero => exact absurd hbound (Nat.not_lt_zero _)
  | succ bound ih =>
    obtain ⟨r, s', hrun, hr, hline, hreads⟩ :=
      @stringLoop_spans layout _ _ h.at_left.filled hrounds
    obtain ⟨r', t', hrun', hr', hline', hreads'⟩ :=
      @stringLoop_spans layout' _ _ h.filled (h.rest.symm ▸ hrounds')
    rw [h.rest] at hreads'
    have hnone : (s.rest.takeWhile isOrdinary).count 0x0A = 0 := by
      rw [List.count_eq_zero]
      intro hmem
      exact absurd (List.all_eq_true.mp List.all_takeWhile _ hmem) (by decide)
    have hbeside : Beside total same s' t' :=
      h.reads hreads hreads' (by rw [hline, hnone, Nat.add_zero])
        (by rw [hline', hnone, Nat.add_zero]) fun hs => by rw [(hsame hs).1]
    have hle : s'.rest.length ≤ s.rest.length := by
      rw [hreads.rest, List.length_append]
      exact Nat.le_add_left ..
    rw [hrun, hrun']
    refine stringAt_agree hsame hbeside fun u v huv hlt => ih huv ?_ ?_ ?_
    · omega
    · omega
    · rw [hbeside.rest] at hr'
      omega

theorem string_alike : Alike total same (string layout) (string layout') := by
  refine .bind (expect_alike hsame _) fun _ s t h => ?_
  rw [h.rest]
  exact stringLoop_agree hsame _ h (Nat.lt_succ_self _) (Nat.lt_succ_self _) (Nat.lt_succ_self _)

/-! ## §4 Numbers and values -/

theorem digits_alike : Alike total same (digits layout) (digits layout') := by
  refine .bind peek_alike fun head => ?_
  cases head with
  | none => exact fail_alike _
  | some b =>
    exact .ite (rest_alike fun left => whileNext_alike (copy_alike hsame) left) (fail_alike _)

theorem copyIf_alike (bytes : Bytes) :
    Alike total same (copyIf layout bytes) (copyIf layout' bytes) := by
  refine .bind peek_alike fun head => ?_
  cases head with
  | none => exact .pure false
  | some b => exact .ite (.bind (copy_alike hsame) fun _ => .pure true) (.pure false)

theorem number_alike : Alike total same (number layout) (number layout') := by
  have hdigits : Alike total same (digits layout) (digits layout') := digits_alike hsame
  have hwhole : Alike total same (whole layout) (whole layout') :=
    .bind (copyIf_alike hsame _) fun _ => .ite (.pure ()) hdigits
  have hfraction : Alike total same (fraction layout) (fraction layout') :=
    .bind (copyIf_alike hsame _) fun _ => .ite hdigits (.pure ())
  have hexponent : Alike total same (exponent layout) (exponent layout') :=
    .bind (copyIf_alike hsame _) fun _ =>
      .ite (.bind (copyIf_alike hsame _) fun _ => hdigits) (.pure ())
  exact .bind (copyIf_alike hsame _) fun _ => .bind hwhole fun _ => .bind hfraction fun _ =>
    hexponent

omit hsame in
theorem pushNode_alike (start : Nat) (kind : String) :
    Alike total same (pushNode start kind) (pushNode start kind) := by
  intro s t h
  rw [pushNode, bind_run (x := get) rfl, bind_run (x := get) rfl, h.depth, h.nodes]
  split_ifs
  · exact .ok _ ⟨⟨h.at_left.filled, h.at_left.read⟩, h.filled, h.rest, h.offset, h.line, h.depth,
      congrArg (· ++ _) h.nodes, h.out⟩
  · exact .ok _ h

omit hsame in
theorem closeNode_alike (node : Option Nat) :
    Alike total same (closeNode node) (closeNode node) := by
  cases node with
  | none => exact .pure ()
  | some n =>
    refine .modify fun s t h => ⟨⟨h.at_left.filled, h.at_left.read⟩, h.filled, h.rest, h.offset,
      h.line, h.depth, ?_, h.out⟩
    show t.nodes.modify n _ = s.nodes.modify n _
    rw [h.nodes, h.offset]

omit hsame in
theorem depth_alike (deeper : Nat → Nat) :
    Alike total same (modify fun s => { s with depth := deeper s.depth })
      (modify fun s => { s with depth := deeper s.depth }) :=
  .modify fun _ _ h => ⟨⟨h.at_left.filled, h.at_left.read⟩, h.filled, h.rest, h.offset, h.line,
    congrArg deeper h.depth, h.nodes, h.out⟩

theorem key_alike (kind : Kind) : Alike total same (key layout kind) (key layout' kind) := by
  have hspace : Alike total same (if layout = .pretty then emit layout [0x20] else pure ())
      (if layout' = .pretty then emit layout' [0x20] else pure ()) := by
    intro s t h
    split_ifs with hpretty hpretty' hpretty'
    · exact emit_alike hsame [0x20] s t h
    · exact .ok () (h.write fun hs => absurd ((hsame hs).1.trans hpretty) hpretty')
    · exact .ok () (h.write fun hs => absurd ((hsame hs).1.symm.trans hpretty') hpretty)
    · exact .ok () h
  exact .ite (.bind (string_alike hsame) fun _ => .bind ws_alike fun _ =>
    .bind (expect_alike hsame _) fun _ => hspace) (.pure ())

section Values

variable {value value' : Action Unit} (hvalue : Alike total same value value')

include hvalue

theorem itemsLoop_alike (kind : Kind) (rounds : Nat) :
    Alike total same (itemsLoop layout unit value kind rounds)
      (itemsLoop layout' unit' value' kind rounds) := by
  induction rounds with
  | zero => exact fail_alike _
  | succ rounds ih =>
    exact .bind (indent_alike hsame) fun _ => .bind (key_alike hsame kind) fun _ =>
      .bind hvalue fun _ => .bind ws_alike fun _ => .bind peek_alike fun _ =>
        .ite (.pure ()) (.bind (copy_alike hsame) fun _ => .bind ws_alike fun _ => ih)

theorem container_alike (kind : Kind) :
    Alike total same (container layout unit value kind) (container layout' unit' value' kind) := by
  have hitems : Alike total same
      (fun s => itemsLoop layout unit value kind (s.rest.length + 1) s)
      (fun s => itemsLoop layout' unit' value' kind (s.rest.length + 1) s) :=
    rest_alike fun left => itemsLoop_alike hsame hvalue kind (left + 1)
  have hclose : Alike total same (expect layout kind.closing) (expect layout' kind.closing) :=
    expect_alike hsame _
  refine .bind (copy_alike hsame) fun _ => .bind (depth_alike (· + 1)) fun _ =>
    .bind ws_alike fun _ => .bind peek_alike fun _ => ?_
  exact .ite (.bind hitems fun _ => .bind (depth_alike (· - 1)) fun _ =>
    .bind (indent_alike hsame) fun _ => hclose) (.bind (depth_alike (· - 1)) fun _ => hclose)

theorem valueAt_alike :
    Alike total same (valueAt layout unit value) (valueAt layout' unit' value') := by
  have hall : ∀ bytes, Alike total same (expectAll layout bytes) (expectAll layout' bytes) := by
    intro bytes
    induction bytes with
    | nil => exact .pure ()
    | cons b bytes ih => exact .bind (expect_alike hsame b) fun _ => ih
  refine .bind peek_alike fun head => ?_
  cases head with
  | none => exact fail_alike _
  | some b =>
    exact .ite (container_alike hsame hvalue .object) (.ite (container_alike hsame hvalue .array)
      (.ite (string_alike hsame) (.ite (hall _) (.ite (hall _) (.ite (hall _)
        (.ite (number_alike hsame) (fail_alike _)))))))

end Values

theorem value_alike (levels : Nat) :
    Alike total same (value layout unit levels) (value layout' unit' levels) := by
  induction levels with
  | zero => exact fail_alike _
  | succ levels ih =>
    refine .bind ws_alike fun _ s t h => ?_
    rw [bind_run (x := get) rfl, bind_run (x := get) rfl, h.depth, h.offset]
    exact TwoRuns.ite (fail_alike _) (.bind peek_alike fun _ => .bind (pushNode_alike _ _) fun _ =>
      .bind (valueAt_alike hsame ih) fun _ => closeNode_alike _) s t h

end Layouts

/-! ## §5 Texts -/

/-- What is kept of a run. -/
theorem results_kept {x y : Except Error (Unit × Parser)} (h : Results total same x y) :
    (∃ s t, x = .ok ((), s) ∧ y = .ok ((), t) ∧ t.nodes = s.nodes ∧ (same → t.out = s.out)) ∨
      ∃ e, x = .error e ∧ y = .error e ∧ e.offset ≤ total.length ∧
        e.line = (total.take e.offset).count 0x0A + 1 := by
  cases h with
  | ok a h => exact .inl ⟨_, _, rfl, rfl, h.nodes, h.out⟩
  | error h => exact .inr ⟨_, rfl, congrArg _ h.same, h.inside, h.line⟩

/-- Two runs over one text, in whatever pieces it comes, accept it with the same nodes or report
the same error; an error lies in the text, on the line it names.  What is written depends on the
layout and its indentation only. -/
theorem process_agrees {input input' : List Bytes} (hreads : ∀ p ∈ input, p ≠ [])
    (hreads' : ∀ p ∈ input', p ≠ []) (htext : input'.flatten = input.flatten)
    (layout layout' : Layout) (unit unit' : Bytes) :
    (∃ nodes out out', processWithIndent layout unit input = .ok (nodes, out) ∧
      processWithIndent layout' unit' input' = .ok (nodes, out') ∧
      (layout' = layout ∧ unit' = unit → out' = out)) ∨
    ∃ e, processWithIndent layout unit input = .error e ∧
      processWithIndent layout' unit' input' = .error e ∧ e.offset ≤ input.flatten.length ∧
      e.line = (input.flatten.take e.offset).count 0x0A + 1 := by
  have hbeside : Beside input.flatten (layout' = layout ∧ unit' = unit) ⟨input, [], 0, 1, 0, []⟩
      ⟨input', [], 0, 1, 0, []⟩ :=
    ⟨⟨hreads, [], rfl, rfl, rfl⟩, hreads', htext, rfl, rfl, rfl, rfl, fun _ => rfl⟩
  have hrun := TwoRuns.bind (value_alike (fun hs => hs) 129) (fun _ => TwoRuns.bind ws_alike
    fun _ => TwoRuns.bind peek_alike fun next => TwoRuns.ite (c := next.isSome = true)
      (fail_alike "trailing JSON data") (TwoRuns.pure ())) _ _ hbeside
  obtain ⟨s, t, hs, ht, hnodes, hout⟩ | ⟨e, hs, ht, hinside, hline⟩ := results_kept hrun
  · left
    refine ⟨s.nodes, s.out, t.out, ?_, ?_, hout⟩
    · rw [processWithIndent, hs]
    · rw [processWithIndent, ht, ← hnodes]
  · right
    refine ⟨e, ?_, ?_, hinside, hline⟩
    · rw [processWithIndent, hs]
    · rw [processWithIndent, ht]

/-- An empty array over two lines has another bracket behind it. -/
theorem trailing_bracket_agrees :
    process .pretty [[0x5B, 0x0A], [0x5D, 0x5D]] = .error ⟨3, 2, "trailing JSON data"⟩ := by
  have hpieces : ([[0x5B], [0x0A, 0x5D, 0x5D]] : List Bytes).flatten =
      ([[0x5B, 0x0A], [0x5D, 0x5D]] : List Bytes).flatten := rfl
  have hvalidate : processWithIndent .validate [0x09] [[0x5B], [0x0A, 0x5D, 0x5D]] =
      .error ⟨3, 2, "trailing JSON data"⟩ := rfl
  obtain ⟨_, _, _, -, hrun, -⟩ | ⟨e, hpretty, hrun, -⟩ := process_agrees (by decide) (by decide)
    hpieces .pretty .validate [0x20, 0x20] [0x09]
  · exact nomatch hvalidate.symm.trans hrun
  · rw [process, hpretty, ← hrun, hvalidate]

end BareLine.JsonTools.Process
