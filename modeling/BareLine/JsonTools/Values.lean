import BareLine.JsonTools.Numbers
import BareLine.JsonTools.Strings

/-!
# The parser reads values

What was read when a value, the items of a container or a container was accepted.
-/

namespace BareLine.JsonTools.Process

open Lib

variable (layout : Layout) (unit : Bytes)

/-- An action that leaves the bytes alone. -/
theorem Sound.silent {α : Type} {P : Bytes → Prop} {d d' : Nat} {f : Action α}
    (h : ∀ s a s', f s = .ok (a, s') → s'.input = s.input ∧ (s.depth = d → s'.depth = d')) :
    Sound P d d' f fun _ bytes => bytes = [] := by
  intro s a s' hs hd _ hf
  obtain ⟨hinput, hdepth⟩ := h s a s' hf
  refine ⟨?_, hdepth hd, [], ?_, rfl⟩
  · rw [Parser.Filled, hinput]
    exact hs
  · rw [Parser.rest, Parser.rest, hinput]
    rfl

theorem indent_sound {P : Bytes → Prop} (d : Nat) :
    Sound P d d (indent layout unit) fun _ bytes => bytes = [] := by
  refine .silent fun s a s' h => ?_
  rw [indent] at h
  split_ifs at h
  all_goals
    obtain ⟨-, rfl⟩ := Prod.mk.inj (Except.ok.inj h)
    exact ⟨rfl, id⟩

theorem pushNode_sound {P : Bytes → Prop} (d start : Nat) (kind : String) :
    Sound P d d (pushNode start kind) fun _ bytes => bytes = [] := by
  refine .silent fun s a s' h => ?_
  rw [pushNode, bind_run (x := get) rfl] at h
  split_ifs at h
  all_goals
    obtain ⟨-, rfl⟩ := Prod.mk.inj (Except.ok.inj h)
    exact ⟨rfl, id⟩

theorem closeNode_sound {P : Bytes → Prop} (d : Nat) (node : Option Nat) :
    Sound P d d (closeNode node) fun _ bytes => bytes = [] := by
  refine .silent fun s a s' h => ?_
  cases node
  all_goals
    obtain ⟨-, rfl⟩ := Prod.mk.inj (Except.ok.inj h)
    exact ⟨rfl, id⟩

/-- In front of a value a key and its colon were read, or nothing. -/
theorem key_sound {P : Bytes → Prop} (d : Nat) (kind : Kind) :
    Sound P d d (key layout kind) fun _ bytes => ∀ before front : Space, ∃ head : Head kind,
      head.render = before.bytes ++ (bytes ++ front.bytes) := by
  cases kind with
  | object =>
    have hgap : Sound Any d d (if layout = .pretty then emit layout [0x20] else pure ())
        fun _ bytes => bytes = [] := by
      split_ifs
      · exact emit_sound layout d _
      · exact (Sound.pure ()).mono fun _ _ h => h.2
    refine ((string_sound layout d).bind fun _ => (ws_sound d).bind fun _ =>
      (expect_sound layout d 0x3A).bind fun _ => hgap).mono ?_
    rintro - bytes ⟨-, _, _, rfl, ⟨parts, rfl⟩, -, _, _, rfl, ⟨behind, rfl⟩, -, _, _, rfl, rfl,
      rfl⟩ before front
    refine ⟨.member before parts behind front, ?_⟩
    simp only [Head.render, List.append_assoc, List.cons_append, List.nil_append, List.append_nil]
  | array =>
    refine (Sound.pure ()).mono ?_
    rintro - bytes ⟨-, rfl⟩ before front
    exact ⟨.element (before.append front), rfl⟩

section Containers

variable {value : Action Unit} {d : Nat}
  (hvalue : ∀ {P : Bytes → Prop}, Sound P d d value fun _ bytes => ∃ (space : Space)
    (t : Json .value), bytes = space.bytes ++ t.render ∧ d + t.levels ≤ 128)

include hvalue

/-- The items of a container were read, behind any whitespace. -/
theorem itemsLoop_sound {P : Bytes → Prop} (kind : Kind) (rounds : Nat) :
    Sound P d d (itemsLoop layout unit value kind rounds) fun _ bytes => ∀ before : Space,
      ∃ items : Json (.items kind), items.render = before.bytes ++ bytes ∧
        d + items.levels ≤ 128 := by
  induction rounds generalizing P with
  | zero => exact .fail
  | succ rounds ih =>
    refine .bind' (indent_sound layout unit d) ?_
    rintro - _ rfl
    refine .bind' (key_sound layout d kind) ?_
    rintro - key hkey
    refine .bind' hvalue ?_
    rintro - _ ⟨front, t, rfl, hlevels⟩
    refine .bind' (ws_sound d) ?_
    rintro - _ ⟨behind, rfl⟩
    refine .peek fun next => ?_
    split_ifs with hcomma
    · refine (Sound.pure ()).mono ?_
      rintro - _ ⟨-, rfl⟩ before
      obtain ⟨head, hhead⟩ := hkey before front
      refine ⟨.last head t behind, ?_, hlevels⟩
      simp only [Json.render, hhead, List.append_assoc, List.nil_append, List.append_nil]
    · obtain rfl := not_not.mp hcomma
      refine .bind' (copy_seen layout d _) ?_
      rintro - _ rfl
      refine .bind' (ws_sound d) ?_
      rintro - _ ⟨space, rfl⟩
      refine ih.mono ?_
      intro _ bytes hbytes before
      obtain ⟨head, hhead⟩ := hkey before front
      obtain ⟨items, hitems, hdepth⟩ := hbytes space
      refine ⟨.more head t behind items, ?_, ?_⟩
      · simp only [Json.render, hhead, hitems, List.append_assoc, List.nil_append,
          List.cons_append]
      · rw [Json.levels]
        omega

end Containers

/-- The depth changes and nothing is read. -/
theorem depth_sound {P : Bytes → Prop} {d d' : Nat} {f : Nat → Nat} (h : f d = d') :
    Sound P d d' (modify fun s => { s with depth := f s.depth }) fun _ bytes => bytes = [] := by
  refine .silent fun s a s' hrun => ?_
  obtain ⟨-, rfl⟩ := Prod.mk.inj (Except.ok.inj hrun)
  exact ⟨rfl, fun hd => (congrArg f hd).trans h⟩

/-- A container was read. -/
theorem container_sound {value : Action Unit} {d : Nat} (hd : d < 128)
    (hvalue : ∀ {P : Bytes → Prop}, Sound P (d + 1) (d + 1) value fun _ bytes => ∃ (space : Space)
      (t : Json .value), bytes = space.bytes ++ t.render ∧ d + 1 + t.levels ≤ 128) (kind : Kind) :
    Sound (Starts (some kind.opening)) d d (container layout unit value kind) fun _ bytes =>
      ∃ t : Json .value, t.render = bytes ∧ d + t.levels ≤ 128 := by
  refine .bind' (copy_seen layout d _) ?_
  rintro - _ rfl
  refine .bind' (depth_sound (f := (· + 1)) rfl) ?_
  rintro - _ rfl
  refine .bind' (ws_sound (d + 1)) ?_
  rintro - _ ⟨inner, rfl⟩
  refine .peek fun next => ?_
  split_ifs with hclosing
  · refine .bind' (.get fun s =>
      itemsLoop_sound layout unit hvalue kind (s.rest.length + 1)) ?_
    rintro - bytes hbytes
    refine .bind' (depth_sound (f := (· - 1)) (Nat.add_sub_cancel d 1)) ?_
    rintro - _ rfl
    refine .bind' (indent_sound layout unit d) ?_
    rintro - _ rfl
    refine (expect_sound layout d _).mono ?_
    rintro - _ rfl
    obtain ⟨items, hitems, hlevels⟩ := hbytes inner
    refine ⟨.filled kind items, ?_, by rw [Json.levels]; omega⟩
    simp only [Json.render, hitems, List.append_assoc, List.nil_append, List.cons_append]
  · refine .bind' (depth_sound (f := (· - 1)) (Nat.add_sub_cancel d 1)) ?_
    rintro - _ rfl
    refine (expect_sound layout d _).mono ?_
    rintro - _ rfl
    refine ⟨.empty kind inner, ?_, hd⟩
    simp only [Json.render, List.nil_append, List.cons_append]

theorem valueAt_sound {P : Bytes → Prop} {value : Action Unit} {d : Nat} (hd : d < 128)
    (hvalue : ∀ {P : Bytes → Prop}, Sound P (d + 1) (d + 1) value fun _ bytes => ∃ (space : Space)
      (t : Json .value), bytes = space.bytes ++ t.render ∧ d + 1 + t.levels ≤ 128) :
    Sound P d d (valueAt layout unit value) fun _ bytes =>
      ∃ t : Json .value, t.render = bytes ∧ d + t.levels ≤ 128 := by
  have hlexeme : ∀ {Q : Bytes → Prop} {f : Action Unit},
      Sound Q d d f (fun _ bytes => ∃ lexeme : Lexeme, lexeme.render = bytes) →
      Sound Q d d f fun _ bytes => ∃ t : Json .value, t.render = bytes ∧ d + t.levels ≤ 128 := by
    intro Q f hf
    refine hf.mono ?_
    rintro - bytes ⟨lexeme, rfl⟩
    exact ⟨.scalar lexeme, rfl, hd⟩
  have hliteral : ∀ {Q : Bytes → Prop} (literal : Literal),
      Sound Q d d (expectAll layout literal.render) fun _ bytes =>
        ∃ t : Json .value, t.render = bytes ∧ d + t.levels ≤ 128 := by
    intro Q literal
    refine hlexeme ((expectAll_sound layout d _).mono ?_)
    rintro - bytes rfl
    exact ⟨.literal literal, rfl⟩
  refine .peek fun head => ?_
  cases head with
  | none => exact .fail
  | some b =>
    dsimp only
    split_ifs with hobject harray hstring htrue hfalse hnull hnumber
    · exact hobject ▸ container_sound layout unit hd hvalue .object
    · exact harray ▸ container_sound layout unit hd hvalue .array
    · refine hlexeme ((string_sound layout d).mono ?_)
      rintro - bytes ⟨parts, rfl⟩
      exact ⟨.string parts, rfl⟩
    · exact hliteral .true
    · exact hliteral .false
    · exact hliteral .null
    · refine hlexeme ((number_sound layout d).mono ?_)
      rintro - bytes ⟨n, rfl⟩
      exact ⟨.number n, rfl⟩
    · exact .fail

/-- A value of no more levels than the depth leaves was read. -/
theorem value_sound {P : Bytes → Prop} (fuel d : Nat) :
    Sound P d d (value layout unit fuel) fun _ bytes => ∃ (space : Space) (t : Json .value),
      bytes = space.bytes ++ t.render ∧ d + t.levels ≤ 128 := by
  induction fuel generalizing P d with
  | zero => exact .fail
  | succ fuel ih =>
    refine .bind' (ws_sound d) ?_
    rintro - _ ⟨space, rfl⟩
    intro s a s' hs hdepth _ hrun
    rw [bind_run (x := get) rfl] at hrun
    split_ifs at hrun with hlimit
    · exact nomatch hrun
    have hd : d < 128 := by omega
    have hparts : Sound Any d d (peek >>= fun head =>
        pushNode s.offset (kindAt head) >>= fun node =>
        valueAt layout unit (value layout unit fuel) >>= fun _ => closeNode node)
        fun _ bytes => ∃ t : Json .value, t.render = bytes ∧ d + t.levels ≤ 128 := by
      refine .peek fun head => ?_
      refine .bind' (pushNode_sound d _ _) ?_
      rintro node _ rfl
      refine .bind' (valueAt_sound layout unit hd fun {P} => ih (d + 1)) ?_
      rintro - _ ⟨t, rfl, hlevels⟩
      refine (closeNode_sound d node).mono ?_
      rintro - _ rfl
      exact ⟨t, (List.append_nil _).symm, hlevels⟩
    obtain ⟨hs', hd', _, hrest, t, rfl, hlevels⟩ := hparts s a s' hs hdepth trivial hrun
    exact ⟨hs', hd', t.render, hrest, space, t, rfl, hlevels⟩

end BareLine.JsonTools.Process
