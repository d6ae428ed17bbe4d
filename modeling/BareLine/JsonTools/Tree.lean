import BareLine.JsonTools.Scanning

/-!
# The pages list the tree

- §1: the nodes of a document.
- §2: the scan between tokens and in them.
- §3: the scan of lexemes.
- §4: the scan of values.
- §5: documents.
-/

namespace BareLine.JsonTools

open Lib
open Search (Text)

/-! ## §1 Nodes -/

/-- A value or a key: what it is, where it stands and how deep. -/
structure Node where
  kind : String
  offset : Nat
  depth : Nat
  deriving DecidableEq, Repr

/-- The line that lists a node; from some depth on it is not indented further. -/
def Node.listed (n : Node) : Listed := ⟨min n.depth 16, n.kind, n.offset⟩

def Lexeme.kind : Lexeme → String
  | string _ => "string/key"
  | number _ => "number"
  | literal .true | literal .false => "boolean"
  | literal .null => "null"

def Kind.name : Kind → String
  | object => "object"
  | array => "array"

def Head.nodes : {kind : Kind} → Head kind → Nat → Nat → List Node
  | _, element _, _, _ => []
  | _, member before _ _ _, offset, depth => [⟨"string/key", offset + before.bytes.length, depth⟩]

namespace Json

/-- The nodes of a value or of items, in order. -/
def nodes : {form : Form} → Json form → Nat → Nat → List Node
  | _, scalar lexeme, offset, depth => [⟨lexeme.kind, offset, depth⟩]
  | _, empty kind _, offset, depth => [⟨kind.name, offset, depth⟩]
  | _, filled kind items, offset, depth =>
    ⟨kind.name, offset, depth⟩ :: items.nodes (offset + 1) (depth + 1)
  | _, last head value _, offset, depth =>
    head.nodes offset depth ++ value.nodes (offset + head.render.length) depth
  | _, more head value behind rest, offset, depth =>
    head.nodes offset depth ++ (value.nodes (offset + head.render.length) depth ++
      rest.nodes (offset + head.render.length + value.render.length + behind.bytes.length + 1)
        depth)

/-- The values in a value or in items, with their offsets. -/
def values : {form : Form} → Json form → Nat → List (Nat × Json .value)
  | _, scalar lexeme, offset => [(offset, scalar lexeme)]
  | _, empty kind inner, offset => [(offset, empty kind inner)]
  | _, filled kind items, offset => (offset, filled kind items) :: items.values (offset + 1)
  | _, last head value _, offset => value.values (offset + head.render.length)
  | _, more head value behind rest, offset =>
    value.values (offset + head.render.length) ++
      rest.values (offset + head.render.length + value.render.length + behind.bytes.length + 1)

def isContainer : Json .value → Bool
  | scalar _ => false
  | empty _ _ | filled _ _ => true

end Json

namespace Document

def nodes (d : Document) : List Node := d.value.nodes d.before.bytes.length 0

def values (d : Document) : List (Nat × Json .value) := d.value.values d.before.bytes.length

end Document

/-! ## §2 Between tokens and in them -/

/-- The cursor at some place between tokens. -/
def Cursor.between (c : Cursor) (offset depth : Nat) : Cursor :=
  { c with offset := offset, depth := depth, mode := 0, escaped := false }

/-- The cursor at some place in a number or a literal. -/
def Cursor.inScalar (c : Cursor) (offset depth : Nat) : Cursor :=
  { c with offset := offset, depth := depth, mode := 1, escaped := false }

/-- The cursor at some place in a string. -/
def Cursor.inString (c : Cursor) (offset depth : Nat) (escaped : Bool) : Cursor :=
  { c with offset := offset, depth := depth, mode := 2, escaped := escaped }

/-- What is listed behind some nodes. -/
def listing (listed : List Listed) (result : Except String (List Listed)) :
    Except String (List Listed) := result.map (listed ++ ·)

@[simp] theorem listing_nil (result : Except String (List Listed)) : listing [] result = result := by
  cases result <;> rfl

@[simp] theorem listing_listing (a b : List Listed) (result : Except String (List Listed)) :
    listing a (listing b result) = listing (a ++ b) result := by
  cases result with
  | error e => rfl
  | ok all => exact congrArg Except.ok (List.append_assoc ..).symm

theorem scan_step {b : UInt8} {c c' : Cursor} {listed : Option Listed}
    (h : step b c = .ok ⟨listed, c', false⟩) (rest : Bytes) :
    scan (b :: rest) c = listing listed.toList (scan rest c') := by
  rw [scan, h]
  rfl

variable (c : Cursor)

theorem step_between (b : UInt8) (o d : Nat) :
    step b (c.between o d) = stepToken b o (c.between (o + 1) d) := rfl

/-- Bytes that separate tokens list nothing. -/
def Separates (b : UInt8) : Prop := isSpace b = true ∨ b = 0x2C ∨ b = 0x3A

theorem scan_separator {b : UInt8} (h : Separates b) (o d : Nat) (rest : Bytes) :
    scan (b :: rest) (c.between o d) = scan rest (c.between (o + 1) d) := by
  have hquiet : ∀ b : UInt8, Separates b → kindOf b = none ∧ ¬(b = 0x7D ∨ b = 0x5D) := by
    rintro b (hspace | rfl | rfl)
    · simp only [isSpace, Bool.or_eq_true, beq_iff_eq] at hspace
      rcases hspace with ((rfl | rfl) | rfl) | rfl <;> decide
    · decide
    · decide
  obtain ⟨hkind, hopen⟩ := hquiet b h
  have hstep : step b (c.between o d) = .ok ⟨none, c.between (o + 1) d, false⟩ := by
    rw [step_between, stepToken, hkind]
    dsimp only
    rw [if_neg hopen]
    exact if_pos (h.imp id id)
  rw [scan_step hstep]
  exact listing_nil _

theorem scan_separators {bytes : Bytes} (h : ∀ b ∈ bytes, Separates b) (o d : Nat) (rest : Bytes) :
    scan (bytes ++ rest) (c.between o d) = scan rest (c.between (o + bytes.length) d) := by
  induction bytes generalizing o with
  | nil => rfl
  | cons b bytes ih =>
    obtain ⟨hb, hbytes⟩ := List.forall_mem_cons.mp h
    rw [List.cons_append, scan_separator c hb, ih hbytes, List.length_cons, Nat.add_assoc,
      Nat.add_comm 1]

theorem scan_space (space : Space) (o d : Nat) (rest : Bytes) :
    scan (space.bytes ++ rest) (c.between o d) = scan rest (c.between (o + space.bytes.length) d) :=
  scan_separators c (fun b hb => .inl (space.spaces b hb)) o d rest

/-- Inside a string the scan goes over the bytes without listing anything. -/
def Passes (bytes : Bytes) : Prop := ∀ (c : Cursor) (o d : Nat) (rest : Bytes),
  scan (bytes ++ rest) (c.inString o d false) = scan rest (c.inString (o + bytes.length) d false)

theorem Passes.nil : Passes [] := fun _ _ _ _ => rfl

theorem Passes.append {a b : Bytes} (ha : Passes a) (hb : Passes b) : Passes (a ++ b) := by
  intro c o d rest
  rw [List.append_assoc, ha, hb, List.length_append, Nat.add_assoc]

theorem Passes.plain {bytes : Bytes} (h : ∀ b ∈ bytes, Plain b) : Passes bytes := by
  induction bytes with
  | nil => exact .nil
  | cons b bytes ih =>
    obtain ⟨⟨-, hquote, hslash⟩, hbytes⟩ := List.forall_mem_cons.mp h
    have hone : Passes [b] := by
      intro c o d rest
      have hstep : step b (c.inString o d false) = .ok ⟨none, c.inString (o + 1) d false, false⟩ :=
        (if_neg hslash).trans (if_neg hquote)
      rw [List.singleton_append, scan_step hstep]
      exact listing_nil _
    exact hone.append (ih hbytes)

/-- A backslash takes the byte behind it along. -/
theorem Passes.escape (b : UInt8) : Passes [0x5C, b] := by
  intro c o d rest
  have hslash : step 0x5C (c.inString o d false) = .ok ⟨none, c.inString (o + 1) d true, false⟩ :=
    rfl
  have hescaped : step b (c.inString (o + 1) d true) =
      .ok ⟨none, c.inString (o + 1 + 1) d false, false⟩ := rfl
  rw [List.cons_append, List.singleton_append, scan_step hslash, scan_step hescaped]
  exact (listing_nil _).trans (listing_nil _)

theorem Passes.unit16 (u : Unit16) : Passes u.bytes := by
  have hplain : ∀ b : UInt8, (hexDigit b).isSome = true → Plain b := by
    grind [hexDigit, Plain]
  refine .plain fun b hb => hplain b ?_
  have hmem : hexDigit b ∈ u.digits.map some := u.reads ▸ List.mem_map_of_mem hb
  obtain ⟨digit, -, hdigit⟩ := List.mem_map.mp hmem
  rw [← hdigit]
  rfl

theorem Passes.part (p : StringPart) : Passes p.render := by
  cases p with
  | plain scalar valid unescaped => exact .plain unescaped
  | escape b known => exact .escape b
  | single unit high low => exact (Passes.escape 0x75).append (.unit16 unit)
  | pair first second high low =>
    exact (Passes.escape 0x75).append ((Passes.unit16 first).append
      ((Passes.escape 0x75).append (.unit16 second)))

theorem Passes.parts (parts : List StringPart) : Passes (parts.flatMap StringPart.render) := by
  induction parts with
  | nil => exact .nil
  | cons p parts ih =>
    rw [List.flatMap_cons]
    exact (Passes.part p).append ih

/-- A string is listed where it starts. -/
theorem scan_string (parts : List StringPart) (o d : Nat) (rest : Bytes) :
    scan (renderString parts ++ rest) (c.between o d) =
      listing [⟨min d 16, "string/key", o⟩]
        (scan rest (c.between (o + (renderString parts).length) d)) := by
  have hopen : step 0x22 (c.between o d) =
      .ok ⟨some ⟨min d 16, "string/key", o⟩, c.inString (o + 1) d false, false⟩ := rfl
  have hclose : ∀ o, step 0x22 (c.inString o d false) =
      .ok ⟨none, c.between (o + 1) d, false⟩ := fun _ => rfl
  rw [renderString, List.cons_append, scan_step hopen, List.append_assoc,
    Passes.parts parts, List.singleton_append, scan_step (hclose _)]
  rw [Option.toList_none, listing_nil, List.length_cons, List.length_append, List.length_singleton,
    Nat.add_assoc, Nat.add_assoc, Nat.add_left_comm 1]
  rfl

/-! ## §3 Lexemes -/

/-- Nothing follows, or a byte that ends a number or a literal. -/
def Ends (rest : Bytes) : Prop := ∀ b ∈ rest.head?, endsScalar b = true

theorem Ends.nil : Ends [] := fun _ h => nomatch h

theorem Ends.cons {b : UInt8} (h : endsScalar b = true) (rest : Bytes) : Ends (b :: rest) := by
  intro b' hb
  obtain rfl := Option.some.inj hb
  exact h

theorem Ends.space {rest : Bytes} (h : Ends rest) (space : Space) : Ends (space.bytes ++ rest) := by
  cases hspace : space.bytes with
  | nil => exact h
  | cons b bytes =>
    have hb := space.spaces b (hspace ▸ List.mem_cons_self)
    exact .cons (by rw [endsScalar, hb]; rfl) _

/-- Behind a number or a literal the scan is between tokens again. -/
theorem scan_ends {rest : Bytes} (h : Ends rest) (o d : Nat) :
    scan rest (c.inScalar o d) = scan rest (c.between o d) := by
  cases rest with
  | nil => rfl
  | cons b rest =>
    have hstep : step b (c.inScalar o d) = step b (c.between o d) := if_pos (h b rfl)
    rw [scan, scan, hstep]

theorem scan_inScalar {bytes : Bytes} (h : ∀ b ∈ bytes, endsScalar b = false) (o d : Nat)
    (rest : Bytes) :
    scan (bytes ++ rest) (c.inScalar o d) = scan rest (c.inScalar (o + bytes.length) d) := by
  induction bytes generalizing o with
  | nil => rfl
  | cons b bytes ih =>
    obtain ⟨hb, hbytes⟩ := List.forall_mem_cons.mp h
    have hstep : step b (c.inScalar o d) = .ok ⟨none, c.inScalar (o + 1) d, false⟩ :=
      if_neg (by rw [hb]; decide)
    rw [List.cons_append, scan_step hstep, Option.toList_none, listing_nil, ih hbytes,
      List.length_cons, Nat.add_assoc, Nat.add_comm 1]

/-- A number or a literal is listed where it starts. -/
theorem scan_scalar {b : UInt8} {bytes : Bytes} {kind : String} (hkind : kindOf b = some kind)
    (hscalar : ¬(b = 0x7B ∨ b = 0x5B) ∧ b ≠ 0x22) (hbytes : ∀ b ∈ bytes, endsScalar b = false)
    {rest : Bytes} (hends : Ends rest) (o d : Nat) :
    scan (b :: bytes ++ rest) (c.between o d) = listing [⟨min d 16, kind, o⟩]
      (scan rest (c.between (o + (b :: bytes).length) d)) := by
  have hstep : step b (c.between o d) =
      .ok ⟨some ⟨min d 16, kind, o⟩, c.inScalar (o + 1) d, false⟩ := by
    rw [step_between, stepToken, hkind]
    exact (if_neg hscalar.1).trans (if_neg hscalar.2)
  rw [List.cons_append, scan_step hstep, scan_inScalar c hbytes, scan_ends c hends,
    List.length_cons, Nat.add_assoc, Nat.add_comm 1]
  rfl

/-- The bytes of numbers. -/
def Numeric (b : UInt8) : Prop :=
  isDigit b = true ∨ b = 0x2D ∨ b = 0x2B ∨ b = 0x2E ∨ b = 0x65 ∨ b = 0x45

theorem Numeric.quiet {b : UInt8} (h : Numeric b) : endsScalar b = false := by
  rcases h with hdigit | rfl | rfl | rfl | rfl | rfl
  · grind [endsScalar, isDigit, isSpace]
  all_goals decide

theorem Number.numeric (n : Number) : ∀ b ∈ n.render, Numeric b := by
  have hdigits : ∀ ds : Digits, ∀ b ∈ ds.bytes, Numeric b := fun ds b hb => .inl (ds.digits b hb)
  intro b hb
  rcases List.mem_append.mp hb with hminus | hb
  · rw [minusBytes] at hminus
    split_ifs at hminus
    · exact .inr (.inl (List.mem_singleton.mp hminus))
    · cases hminus
  rcases List.mem_append.mp hb with hwhole | hb
  · exact hdigits _ _ hwhole
  rcases List.mem_append.mp hb with hfraction | hexponent
  · rw [fractionBytes] at hfraction
    split at hfraction
    · cases hfraction
    · rcases List.mem_cons.mp hfraction with rfl | hdigit
      · exact .inr (.inr (.inr (.inl rfl)))
      · exact hdigits _ _ hdigit
  · rw [exponentBytes] at hexponent
    split at hexponent
    · cases hexponent
    · rename_i e _
      rcases List.mem_cons.mp hexponent with rfl | hrest
      · exact .inr (.inr (.inr (.inr e.letter_eq)))
      rcases List.mem_append.mp hrest with hsign | hdigit
      · rcases e.sign_eq with h | h | h <;> rw [h] at hsign
        · cases hsign
        · exact .inr (.inr (.inl (List.mem_singleton.mp hsign)))
        · exact .inr (.inl (List.mem_singleton.mp hsign))
      · exact hdigits _ _ hdigit

/-- A lexeme is listed where it starts. -/
theorem scan_lexeme (l : Lexeme) {rest : Bytes} (hends : Ends rest) (o d : Nat) :
    scan (l.render ++ rest) (c.between o d) = listing [⟨min d 16, l.kind, o⟩]
      (scan rest (c.between (o + l.render.length) d)) := by
  cases l with
  | string parts => exact scan_string c parts o d rest
  | number n =>
    have hstart : ∀ b : UInt8, b = 0x2D ∨ isDigit b = true →
        kindOf b = some "number" ∧ ¬(b = 0x7B ∨ b = 0x5B) ∧ b ≠ 0x22 := by
      grind [kindOf, isDigit]
    obtain ⟨b, bytes, hrender, hb⟩ := n.render_cons
    obtain ⟨hkind, hscalar⟩ := hstart b hb
    show scan (n.render ++ rest) _ = listing _ (scan rest (c.between (o + n.render.length) d))
    have hnumeric := n.numeric
    rw [hrender] at hnumeric ⊢
    exact scan_scalar c hkind hscalar
      (fun b hb => (hnumeric b (List.mem_cons_of_mem _ hb)).quiet) hends o d
  | literal l => cases l <;> exact scan_scalar c rfl (by decide) (by decide +kernel) hends o d

/-! ## §4 Values -/

theorem scan_head {kind : Kind} (h : Head kind) (o d : Nat) (rest : Bytes) :
    scan (h.render ++ rest) (c.between o d) = listing ((h.nodes o d).map Node.listed)
      (scan rest (c.between (o + h.render.length) d)) := by
  cases h with
  | element before =>
    show scan (before.bytes ++ rest) _ = listing [] (scan rest _)
    rw [scan_space, listing_nil]
    rfl
  | member before key behind front =>
    have hcolon : Separates 0x3A := .inr (.inr rfl)
    rw [Head.render, List.append_assoc, scan_space, List.append_assoc, scan_string,
      List.append_assoc, scan_space, List.cons_append, scan_separator c hcolon, scan_space]
    simp only [Head.nodes, List.map_cons, List.map_nil, Node.listed, List.length_append,
      List.length_cons]
    congr 3
    omega

/-- Behind an opening bracket the scan is one level deeper. -/
theorem scan_opening (kind : Kind) {o d : Nat} (hd : d < 128) (rest : Bytes) :
    scan (kind.opening :: rest) (c.between o d) = listing [⟨min d 16, kind.name, o⟩]
      (scan rest (c.between (o + 1) (d + 1))) := by
  have hstep : step kind.opening (c.between o d) =
      .ok ⟨some ⟨min d 16, kind.name, o⟩, c.between (o + 1) (d + 1), false⟩ := by
    rw [step_between]
    cases kind <;> exact if_neg (show ¬d + 1 > 128 by omega)
  exact scan_step hstep rest

/-- Behind a closing bracket the scan is one level higher. -/
theorem scan_closing (kind : Kind) {d : Nat} (hd : 1 ≤ d) (o : Nat) (rest : Bytes) :
    scan (kind.closing :: rest) (c.between o (d + 1)) = scan rest (c.between (o + 1) d) := by
  have hstep : step kind.closing (c.between o (d + 1)) =
      .ok ⟨none, c.between (o + 1) d, false⟩ := by
    have hfinished : decide (d + 1 = 1) = false := decide_eq_false (by omega)
    rw [step_between]
    cases kind <;> exact congrArg (fun f => Except.ok (Step.mk none _ f)) hfinished
  rw [scan_step hstep]
  exact listing_nil _

/-- The bracket that closes the selected container ends the scan. -/
theorem scan_closing_last (kind : Kind) (o : Nat) (rest : Bytes) :
    scan (kind.closing :: rest) (c.between o 1) = .ok [] := by
  cases kind <;> rfl

theorem Ends.closing (kind : Kind) (rest : Bytes) : Ends (kind.closing :: rest) := by
  cases kind <;> exact .cons (by decide) rest

theorem Ends.comma (rest : Bytes) : Ends (0x2C :: rest) := .cons (by decide) rest

/-- Below the selected container the scan of a value lists its nodes and goes on behind it. -/
theorem scan_json {form : Form} (t : Json form) {d : Nat} (hd : 1 ≤ d) (hheight : d + t.height ≤ 128)
    (o : Nat) {rest : Bytes} (hends : Ends rest) :
    scan (t.render ++ rest) (c.between o d) = listing ((t.nodes o d).map Node.listed)
      (scan rest (c.between (o + t.render.length) d)) := by
  induction t generalizing d o rest with
  | scalar lexeme => exact scan_lexeme c lexeme hends o d
  | empty kind inner =>
    have hlt : d < 128 := hheight
    rw [Json.render, List.cons_append, scan_opening c kind hlt, List.append_assoc, scan_space,
      List.singleton_append, scan_closing c kind hd]
    simp only [Json.nodes, List.map_cons, List.map_nil, Node.listed, List.length_append,
      List.length_cons, List.length_nil]
    congr 3
    omega
  | filled kind items ih =>
    rw [Json.height] at hheight
    rw [Json.render, List.cons_append, scan_opening c kind (by omega), List.append_assoc,
      List.singleton_append, ih (Nat.le_add_left 1 d) (by omega) _ (.closing kind _),
      scan_closing c kind hd, listing_listing]
    simp only [Json.nodes, List.map_cons, Node.listed, List.length_append, List.length_cons,
      List.length_nil, List.singleton_append]
    congr 3
    omega
  | last head value behind ih =>
    rw [Json.render, List.append_assoc, scan_head, List.append_assoc,
      ih hd hheight _ (hends.space behind), scan_space, listing_listing]
    simp only [Json.nodes, List.map_append, List.length_append]
    congr 3
    omega
  | more head value behind items ihvalue ihitems =>
    rw [Json.height] at hheight
    have hcomma : Separates 0x2C := .inr (.inl rfl)
    rw [Json.render, List.append_assoc, scan_head, List.append_assoc,
      ihvalue hd (by omega) _ (by rw [List.append_assoc]; exact Ends.space (.comma _) behind),
      List.append_assoc, scan_space, List.cons_append, scan_separator c hcomma,
      ihitems hd (by omega) _ hends, listing_listing, listing_listing]
    simp only [Json.nodes, List.map_append, List.length_append, List.length_cons,
      List.append_assoc]
    congr 3
    omega

/-- The scan of a container that is selected lists its nodes, whatever follows. -/
theorem scan_container {v : Json .value} (hv : v.isContainer = true) (hheight : v.height ≤ 128)
    (o : Nat) (rest : Bytes) :
    scan (v.render ++ rest) (c.between o 0) = .ok ((v.nodes o 0).map Node.listed) := by
  cases v with
  | scalar lexeme => exact nomatch hv
  | empty kind inner =>
    rw [Json.render, List.cons_append, scan_opening c kind (by decide), List.append_assoc,
      scan_space, List.singleton_append, scan_closing_last]
    rfl
  | filled kind items =>
    rw [Json.height] at hheight
    rw [Json.render, List.cons_append, scan_opening c kind (by decide), List.append_assoc,
      List.singleton_append, scan_json c items (Nat.le_refl 1) (by omega) _ (.closing kind _),
      scan_closing_last]
    exact congrArg (fun nodes => Except.ok (_ :: nodes)) (List.append_nil _)

/-! ## §5 Documents -/

/-- The scan of a document lists its nodes. -/
theorem scan_document (d : Document) (hheight : d.value.height ≤ 128) :
    scan d.render (c.between 0 0) = .ok (d.nodes.map Node.listed) := by
  obtain ⟨before, value, behind⟩ := d
  rw [Document.render, scan_space, Nat.zero_add]
  by_cases hv : value.isContainer = true
  · exact scan_container c hv hheight _ _
  · cases value with
    | scalar lexeme =>
      have hend : scan behind.bytes (c.between (before.bytes.length + lexeme.render.length) 0) =
          .ok [] := by
        have hspace := scan_space c behind (before.bytes.length + lexeme.render.length) 0 []
        rwa [List.append_nil] at hspace
      have hends : Ends behind.bytes := List.append_nil behind.bytes ▸ Ends.nil.space behind
      rw [Json.render, scan_lexeme c lexeme hends, hend]
      rfl
    | empty kind inner => exact absurd rfl hv
    | filled kind items => exact absurd rfl hv

/-- A value stands in the text at its offset. -/
theorem Json.render_of_mem_values {form : Form} (t : Json form) {o o' : Nat} {v : Json .value}
    (h : (o', v) ∈ t.values o) : v.height ≤ t.height ∧
      ∃ front back, t.render = front ++ (v.render ++ back) ∧ o' = o + front.length := by
  induction t generalizing o with
  | scalar lexeme =>
    obtain ⟨rfl, rfl⟩ := Prod.mk.inj (List.mem_singleton.mp h)
    exact ⟨Nat.le_refl _, [], [], (List.append_nil _).symm, rfl⟩
  | empty kind inner =>
    obtain ⟨rfl, rfl⟩ := Prod.mk.inj (List.mem_singleton.mp h)
    exact ⟨Nat.le_refl _, [], [], (List.append_nil _).symm, rfl⟩
  | filled kind items ih =>
    rcases List.mem_cons.mp h with heq | hitems
    · obtain ⟨rfl, rfl⟩ := Prod.mk.inj heq
      exact ⟨Nat.le_refl _, [], [], (List.append_nil _).symm, rfl⟩
    · obtain ⟨hheight, front, back, hrender, rfl⟩ := ih hitems
      refine ⟨Nat.le_succ_of_le hheight, kind.opening :: front, back ++ [kind.closing], ?_, ?_⟩
      · rw [Json.render, hrender, List.append_assoc, List.append_assoc]
        rfl
      · rw [List.length_cons]
        omega
  | last head value behind ih =>
    obtain ⟨hheight, front, back, hrender, rfl⟩ := ih h
    refine ⟨hheight, head.render ++ front, back ++ behind.bytes, ?_, ?_⟩
    · rw [Json.render, hrender]
      simp only [List.append_assoc]
    · rw [List.length_append, Nat.add_assoc]
  | more head value behind items ihvalue ihitems =>
    rcases List.mem_append.mp h with hvalue | hitems
    · obtain ⟨hheight, front, back, hrender, rfl⟩ := ihvalue hvalue
      refine ⟨hheight.trans (Nat.le_max_left ..), head.render ++ front,
        back ++ (behind.bytes ++ 0x2C :: items.render), ?_, ?_⟩
      · rw [Json.render, hrender]
        simp only [List.append_assoc]
      · rw [List.length_append, Nat.add_assoc]
    · obtain ⟨hheight, front, back, hrender, rfl⟩ := ihitems hitems
      refine ⟨hheight.trans (Nat.le_max_right ..),
        head.render ++ (value.render ++ (behind.bytes ++ 0x2C :: front)), back, ?_, ?_⟩
      · rw [Json.render, hrender]
        simp only [List.append_assoc, List.cons_append]
      · simp only [List.length_append, List.length_cons]
        omega

theorem Lexeme.render_ne_nil (l : Lexeme) : 0 < l.render.length := by
  cases l with
  | string parts => exact Nat.zero_lt_succ _
  | number n =>
    obtain ⟨b, bytes, hrender, -⟩ := n.render_cons
    show 0 < n.render.length
    rw [hrender]
    exact Nat.zero_lt_succ _
  | literal l => cases l <;> exact Nat.zero_lt_succ _

/-- Nodes stand one behind the other in a range. -/
def Within (ns : List Node) (lo hi : Nat) : Prop :=
  (ns.map Node.offset).Pairwise (· < ·) ∧ ∀ n ∈ ns, lo ≤ n.offset ∧ n.offset < hi

theorem Within.nil (lo hi : Nat) : Within [] lo hi := ⟨.nil, fun _ h => nomatch h⟩

theorem Within.single {n : Node} {lo hi : Nat} (hlo : lo ≤ n.offset) (hhi : n.offset < hi) :
    Within [n] lo hi :=
  ⟨List.pairwise_singleton _ _, List.forall_mem_singleton.mpr ⟨hlo, hhi⟩⟩

theorem Within.append {xs ys : List Node} {lo mid mid' hi : Nat} (hxs : Within xs lo mid)
    (hys : Within ys mid' hi) (hmid : mid ≤ mid') (hlo : lo ≤ mid') (hhi : mid ≤ hi) :
    Within (xs ++ ys) lo hi := by
  refine ⟨?_, fun n hn => ?_⟩
  · rw [List.map_append, List.pairwise_append]
    refine ⟨hxs.1, hys.1, ?_⟩
    intro a ha b hb
    obtain ⟨n, hn, rfl⟩ := List.mem_map.mp ha
    obtain ⟨m, hm, rfl⟩ := List.mem_map.mp hb
    have hbefore := (hxs.2 n hn).2
    have hbehind := (hys.2 m hm).1
    omega
  · rcases List.mem_append.mp hn with hn | hn
    · obtain ⟨hge, hlt⟩ := hxs.2 n hn
      omega
    · obtain ⟨hge, hlt⟩ := hys.2 n hn
      omega

theorem Head.nodes_within {kind : Kind} (h : Head kind) (o d : Nat) :
    Within (h.nodes o d) o (o + h.render.length) := by
  cases h with
  | element before => exact .nil _ _
  | member before key behind front =>
    refine .single (Nat.le_add_right _ _) ?_
    simp only [Head.render, List.length_append, renderString, List.length_cons]
    omega

/-- The nodes of a value stand in the value. -/
theorem Json.nodes_within {form : Form} (t : Json form) (o d : Nat) :
    Within (t.nodes o d) o (o + t.render.length) := by
  induction t generalizing o d with
  | scalar lexeme =>
    have hpos := lexeme.render_ne_nil
    exact .single (Nat.le_refl o) (show o < o + lexeme.render.length by omega)
  | empty kind inner =>
    exact .single (Nat.le_refl o) (Nat.lt_add_of_pos_right (Nat.zero_lt_succ _))
  | filled kind items ih =>
    rw [Json.render, List.length_cons, List.length_append]
    exact Within.append (.single (Nat.le_refl o) (Nat.lt_succ_self o))
      ⟨(ih (o + 1) (d + 1)).1, fun n hn => by have := (ih (o + 1) (d + 1)).2 n hn; omega⟩
      (Nat.le_refl _) (Nat.le_succ o) (by omega)
  | last head value behind ih =>
    rw [Json.render, List.length_append, List.length_append]
    exact Within.append (head.nodes_within o d)
      ⟨(ih (o + head.render.length) d).1, fun n hn => by
        have := (ih (o + head.render.length) d).2 n hn; omega⟩
      (Nat.le_refl _) (Nat.le_add_right ..) (by omega)
  | more head value behind items ihvalue ihitems =>
    have hitems := ihitems
      (o + head.render.length + value.render.length + behind.bytes.length + 1) d
    rw [Json.render, List.length_append, List.length_append, List.length_append, List.length_cons]
    refine Within.append (head.nodes_within o d) (Within.append
      (ihvalue (o + head.render.length) d)
      ⟨hitems.1, fun n hn => (hitems.2 n hn).imp id fun h => ?_⟩ ?_ ?_ ?_) ?_ ?_ ?_ <;> omega

theorem Lexeme.no_container (l : Lexeme) : (l.kind == "object" || l.kind == "array") = false := by
  rcases l with _ | _ | _ | _ | _ <;> (rw [Lexeme.kind]; decide)

theorem Head.no_container {kind : Kind} (h : Head kind) {o d : Nat} {n : Node}
    (hn : n ∈ h.nodes o d) : n.listed.isContainer = false := by
  cases h with
  | element before => exact nomatch hn
  | member before key behind front =>
    obtain rfl := List.mem_singleton.mp hn
    exact (by decide : ("string/key" == "object" || "string/key" == "array") = false)

/-- Where a container is listed a container stands. -/
theorem Json.exists_container {form : Form} (t : Json form) {o d : Nat} {n : Node}
    (hn : n ∈ t.nodes o d) (hkind : n.listed.isContainer = true) :
    ∃ v, (n.offset, v) ∈ t.values o ∧ v.isContainer = true := by
  induction t generalizing o d with
  | scalar lexeme =>
    obtain rfl := List.mem_singleton.mp hn
    exact absurd hkind (ne_true_of_eq_false lexeme.no_container)
  | empty kind inner =>
    obtain rfl := List.mem_singleton.mp hn
    exact ⟨_, List.mem_singleton_self _, rfl⟩
  | filled kind items ih =>
    rcases List.mem_cons.mp hn with rfl | hn
    · exact ⟨_, List.mem_cons_self, rfl⟩
    · obtain ⟨v, hv, hcontainer⟩ := ih hn
      exact ⟨v, List.mem_cons_of_mem _ hv, hcontainer⟩
  | last head value behind ih =>
    rcases List.mem_append.mp hn with hn | hn
    · exact absurd hkind (ne_true_of_eq_false (head.no_container hn))
    · exact ih hn
  | more head value behind items ihvalue ihitems =>
    rcases List.mem_append.mp hn with hn | hn
    · exact absurd hkind (ne_true_of_eq_false (head.no_container hn))
    rcases List.mem_append.mp hn with hn | hn
    · obtain ⟨v, hv, hcontainer⟩ := ihvalue hn
      exact ⟨v, List.mem_append_left _ hv, hcontainer⟩
    · obtain ⟨v, hv, hcontainer⟩ := ihitems hn
      exact ⟨v, List.mem_append_right _ hv, hcontainer⟩

section Pages

variable {pageBytes pageNodes : Nat}

/-- From its first page on, the pages of a document list its nodes. -/
theorem follow_document (hbytes : 0 < pageBytes) (hnodes : 0 < pageNodes) {d : Document}
    (hheight : d.value.height ≤ 128) (hlength : d.render.length < 2 ^ 64) :
    ∃ pages, follow pageBytes pageNodes d.render (d.render.length + 1) [] = .ok (some pages) ∧
      pages.flatMap Page.listed = d.nodes.map Node.listed := by
  have hscan := scan_document ⟨0, d.render.length, 0, 0, 0, false⟩ d hheight
  refine follow_scan hbytes hnodes hlength (Cursor.parse_nil _)
    ⟨Nat.le_refl 0, Nat.zero_le _, Nat.le_refl _, Nat.zero_le _, Nat.zero_le _, fun h => nomatch h⟩
    (by dsimp only; omega) ?_
  rw [List.take_length, List.drop_zero]
  exact hscan

/-- From the offset of a container on, the pages list its nodes. -/
theorem follow_container (hbytes : 0 < pageBytes) (hnodes : 0 < pageNodes) {d : Document}
    (hheight : d.value.height ≤ 128) (hlength : d.render.length < 2 ^ 64) {o : Nat}
    {v : Json .value} (hv : (o, v) ∈ d.values) (hcontainer : v.isContainer = true) :
    ∃ pages, follow pageBytes pageNodes d.render (d.render.length + 1) (argument "start" o) =
        .ok (some pages) ∧ pages.flatMap Page.listed = (v.nodes o 0).map Node.listed := by
  obtain ⟨hle, front, back, hrender, rfl⟩ := d.value.render_of_mem_values hv
  have htext : d.render = (d.before.bytes ++ front) ++ (v.render ++ (back ++ d.behind.bytes)) := by
    rw [Document.render, hrender]
    simp only [List.append_assoc]
  have hdrop : d.render.drop (d.before.bytes.length + front.length) =
      v.render ++ (back ++ d.behind.bytes) := by
    rw [htext, ← List.length_append, List.drop_left]
  have hoffset : d.before.bytes.length + front.length ≤ d.render.length := by
    have hlength := congrArg List.length htext
    rw [List.length_append, List.length_append] at hlength
    omega
  refine follow_scan hbytes hnodes hlength (Cursor.parse_start hoffset hlength)
    ⟨Nat.le_refl _, hoffset, Nat.le_refl _, Nat.zero_le _, Nat.zero_le _, fun h => nomatch h⟩
    (by dsimp only; omega) ?_
  dsimp only
  rw [List.take_length, hdrop]
  exact scan_container ⟨d.before.bytes.length + front.length, d.render.length, 0, 0, 0, false⟩
    hcontainer (hle.trans hheight) _ _

/-- Whatever the limits of a page, the pages that follow one another from the first list the values
and the keys of a document, one behind the other, each indented as deep as it is nested up to
sixteen levels; and the pages from a listed container on list what is in it. -/
theorem pages_list_tree (hbytes : 0 < pageBytes) (hnodes : 0 < pageNodes) {d : Document}
    (hheight : d.value.height ≤ 128) (hlength : d.render.length < 2 ^ 64) :
    (∃ pages, follow pageBytes pageNodes d.render (d.render.length + 1) [] = .ok (some pages) ∧
      pages.flatMap Page.listed = d.nodes.map Node.listed) ∧
    (d.nodes.map Node.offset).Pairwise (· < ·) ∧
    ∀ n ∈ d.nodes, n.listed.isContainer = true →
      ∃ v, (n.offset, v) ∈ d.values ∧ v.isContainer = true ∧
        ∃ pages, follow pageBytes pageNodes d.render (d.render.length + 1)
            (argument "start" n.offset) = .ok (some pages) ∧
          pages.flatMap Page.listed = (v.nodes n.offset 0).map Node.listed := by
  refine ⟨follow_document hbytes hnodes hheight hlength, (d.value.nodes_within _ _).1, ?_⟩
  intro n hn hkind
  obtain ⟨v, hv, hcontainer⟩ := d.value.exists_container hn hkind
  exact ⟨v, hv, hcontainer, follow_container hbytes hnodes hheight hlength hv hcontainer⟩

end Pages

/-- A number in some arrays, one in another. -/
def nested : Nat → Json .value
  | 0 => .scalar (.literal .true)
  | n + 1 => .filled .array (.last (.element .empty) (nested n) .empty)

/-- A flag in two arrays. -/
def flagInArrays : Document := ⟨.empty, nested 2, .empty⟩

/-- Pages of one byte or one node. -/
theorem pages_list_flag :
    (∃ pages, follow 1 1 flagInArrays.render 9 [] = .ok (some pages) ∧
      pages.flatMap Page.listed = [⟨0, "array", 0⟩, ⟨1, "array", 1⟩, ⟨2, "boolean", 2⟩]) ∧
    (flagInArrays.nodes.map Node.offset).Pairwise (· < ·) ∧
    ∀ n ∈ flagInArrays.nodes, n.listed.isContainer = true →
      ∃ v, (n.offset, v) ∈ flagInArrays.values ∧ v.isContainer = true ∧
        ∃ pages, follow 1 1 flagInArrays.render 9 (argument "start" n.offset) = .ok (some pages) ∧
          pages.flatMap Page.listed = (v.nodes n.offset 0).map Node.listed :=
  pages_list_tree (by decide) (by decide) (d := flagInArrays) (by decide) (by decide)

/-- Below sixteen levels the pages do not show how deep a node is. -/
theorem deep_node_not_indented : ∃ d : Document, d.value.height ≤ 128 ∧ d.render.length < 2 ^ 64 ∧
    ∃ pages, follow PAGE_BYTES PAGE_NODES d.render (d.render.length + 1) [] = .ok (some pages) ∧
      pages.flatMap Page.listed ≠ d.nodes.map fun n => ⟨n.depth, n.kind, n.offset⟩ := by
  have hheight : (Document.mk .empty (nested 17) .empty).value.height ≤ 128 := by decide
  have hlength : (Document.mk .empty (nested 17) .empty).render.length < 2 ^ 64 := by decide
  obtain ⟨pages, hpages, hall⟩ := @follow_document PAGE_BYTES PAGE_NODES (by decide)
    (by decide) _ hheight hlength
  refine ⟨_, hheight, hlength, pages, hpages, ?_⟩
  rw [hall]
  decide

end BareLine.JsonTools
