import BareLine.JsonTools.Grammar

/-!
# Layouts of JSON texts

A layout says which whitespace stands between the tokens of a text.  Laying a text out keeps its
tokens, and only the last layout counts.
-/

namespace BareLine.JsonTools

open Lib

/-! ## §1 Tokens -/

/-- A part of a text: a token, or whitespace between two. -/
structure Piece where
  significant : Bool
  bytes : Bytes
  deriving DecidableEq, Repr

def Space.piece (space : Space) : Piece := ⟨false, space.bytes⟩

def token (bytes : Bytes) : Piece := ⟨true, bytes⟩

def Head.pieces : {kind : Kind} → Head kind → List Piece
  | _, element before => [before.piece]
  | _, member before key behind front =>
    [before.piece, token (renderString key), behind.piece, token [0x3A], front.piece]

namespace Json

/-- The parts of a value or of items, in order. -/
def pieces : {form : Form} → Json form → List Piece
  | _, scalar lexeme => [token lexeme.render]
  | _, empty kind inner => [token [kind.opening], inner.piece, token [kind.closing]]
  | _, filled kind items => token [kind.opening] :: (items.pieces ++ [token [kind.closing]])
  | _, last head value behind => head.pieces ++ (value.pieces ++ [behind.piece])
  | _, more head value behind rest =>
    head.pieces ++ (value.pieces ++ (behind.piece :: token [0x2C] :: rest.pieces))

end Json

def Document.pieces (d : Document) : List Piece :=
  d.before.piece :: (d.value.pieces ++ [d.behind.piece])

/-- The tokens among some parts. -/
def tokensOf (pieces : List Piece) : List Bytes := (pieces.filter (·.significant)).map (·.bytes)

def Document.tokens (d : Document) : List Bytes := tokensOf d.pieces

@[simp] theorem tokensOf_append (a b : List Piece) :
    tokensOf (a ++ b) = tokensOf a ++ tokensOf b := by
  rw [tokensOf, List.filter_append, List.map_append]
  rfl

@[simp] theorem tokensOf_space (space : Space) (pieces : List Piece) :
    tokensOf (space.piece :: pieces) = tokensOf pieces := rfl

@[simp] theorem tokensOf_token (bytes : Bytes) (pieces : List Piece) :
    tokensOf (token bytes :: pieces) = bytes :: tokensOf pieces := rfl

@[simp] theorem tokensOf_nil : tokensOf [] = [] := rfl

theorem Head.pieces_flatten {kind : Kind} (h : Head kind) :
    (h.pieces.map (·.bytes)).flatten = h.render := by
  cases h <;> simp [Head.pieces, Head.render, Space.piece, token]

theorem Json.pieces_flatten {form : Form} (t : Json form) :
    (t.pieces.map (·.bytes)).flatten = t.render := by
  induction t with
  | scalar lexeme => simp [Json.pieces, Json.render, token]
  | empty kind inner => simp [Json.pieces, Json.render, token, Space.piece]
  | filled kind items ih => simp [Json.pieces, Json.render, token, ih]
  | last head value behind ih =>
    simp [Json.pieces, Json.render, Space.piece, head.pieces_flatten, ih]
  | more head value behind items ihvalue ihitems =>
    simp [Json.pieces, Json.render, Space.piece, token, head.pieces_flatten, ihvalue, ihitems]

/-- A text is its parts. -/
theorem Document.pieces_flatten (d : Document) :
    (d.pieces.map (·.bytes)).flatten = d.render := by
  simp [Document.pieces, Document.render, Space.piece, d.value.pieces_flatten]

/-- What is not a token is whitespace. -/
def Piece.Blank (p : Piece) : Prop := p.significant = false → ∀ b ∈ p.bytes, isSpace b = true

theorem Space.blank (space : Space) : space.piece.Blank := fun _ => space.spaces

theorem token_blank (bytes : Bytes) : (token bytes).Blank := fun h => nomatch h

theorem Head.pieces_blank {kind : Kind} (h : Head kind) : ∀ p ∈ h.pieces, p.Blank := by
  cases h with
  | element before => exact List.forall_mem_singleton.mpr before.blank
  | member before key behind front =>
    simp only [Head.pieces, List.forall_mem_cons]
    exact ⟨before.blank, token_blank _, behind.blank, token_blank _, front.blank,
      fun _ h => nomatch h⟩

theorem Json.pieces_blank {form : Form} (t : Json form) : ∀ p ∈ t.pieces, p.Blank := by
  induction t with
  | scalar lexeme => exact List.forall_mem_singleton.mpr (token_blank _)
  | empty kind inner =>
    simp only [Json.pieces, List.forall_mem_cons]
    exact ⟨token_blank _, inner.blank, token_blank _, fun _ h => nomatch h⟩
  | filled kind items ih =>
    simp only [Json.pieces, List.forall_mem_cons, List.forall_mem_append]
    exact ⟨token_blank _, ih, token_blank _, fun _ h => nomatch h⟩
  | last head value behind ih =>
    simp only [Json.pieces, List.forall_mem_cons, List.forall_mem_append]
    exact ⟨head.pieces_blank, ih, behind.blank, fun _ h => nomatch h⟩
  | more head value behind items ihvalue ihitems =>
    simp only [Json.pieces, List.forall_mem_cons, List.forall_mem_append]
    exact ⟨head.pieces_blank, ihvalue, behind.blank, token_blank _, ihitems⟩

theorem Document.pieces_blank (d : Document) : ∀ p ∈ d.pieces, p.Blank := by
  simp only [Document.pieces, List.forall_mem_cons, List.forall_mem_append]
  exact ⟨d.before.blank, d.value.pieces_blank, d.behind.blank, fun _ h => nomatch h⟩

/-! ## §2 Layouts -/

/-- `Layout` -/
inductive Layout where
  | validate
  | minify
  | pretty
  deriving DecidableEq, Repr

/-- A line break and some units of indentation. -/
def Space.newline (unit : Space) (depth : Nat) : Space where
  bytes := 0x0A :: (List.replicate depth unit.bytes).flatten
  spaces := by
    refine List.forall_mem_cons.mpr ⟨rfl, fun b hb => ?_⟩
    obtain ⟨bytes, hbytes, hb⟩ := List.mem_flatten.mp hb
    exact unit.spaces b (List.eq_of_mem_replicate hbytes ▸ hb)

def Space.blankByte : Space := ⟨[0x20], List.forall_mem_singleton.mpr rfl⟩

/-- What a layout puts in front of a value in a container and of its closing bracket. -/
def Layout.gap (layout : Layout) (unit : Space) (depth : Nat) : Space :=
  if layout = .pretty then unit.newline depth else .empty

/-- What a layout puts behind a colon. -/
def Layout.colonGap (layout : Layout) : Space := if layout = .pretty then .blankByte else .empty

section Laid

variable (layout : Layout) (unit : Space)

def Head.laid (depth : Nat) : {kind : Kind} → Head kind → Head kind
  | _, element _ => element (layout.gap unit depth)
  | _, member _ key _ _ => member (layout.gap unit depth) key .empty layout.colonGap

namespace Json

/-- A value at some depth, or the items of a container at some depth, with the whitespace of a
layout. -/
def laid : {form : Form} → Nat → Json form → Json form
  | _, _, scalar lexeme => scalar lexeme
  | _, _, empty kind _ => empty kind .empty
  | _, depth, filled kind items => filled kind (items.laid depth)
  | _, depth, last head value _ =>
    last (head.laid layout unit (depth + 1)) (value.laid (depth + 1)) (layout.gap unit depth)
  | _, depth, more head value _ rest =>
    more (head.laid layout unit (depth + 1)) (value.laid (depth + 1)) .empty (rest.laid depth)

/-- Only the last layout counts. -/
theorem laid_laid (layout' : Layout) {form : Form} (t : Json form) (depth : Nat) :
    (t.laid layout' unit depth).laid layout unit depth = t.laid layout unit depth := by
  have hhead : ∀ {kind : Kind} (h : Head kind) (depth : Nat),
      (h.laid layout' unit depth).laid layout unit depth = h.laid layout unit depth := by
    intro kind h depth
    cases h <;> rfl
  induction t generalizing depth with
  | scalar lexeme => rfl
  | empty kind inner => rfl
  | filled kind items ih => exact congrArg (filled kind) (ih depth)
  | last head value behind ih =>
    simp only [laid, hhead, ih]
  | more head value behind items ihvalue ihitems =>
    simp only [laid, hhead, ihvalue, ihitems]

@[simp] theorem levels_laid {form : Form} (t : Json form) (depth : Nat) :
    (t.laid layout unit depth).levels = t.levels := by
  induction t generalizing depth with
  | scalar lexeme => rfl
  | empty kind inner => rfl
  | filled kind items ih => exact congrArg (· + 1) (ih depth)
  | last head value behind ih => exact ih (depth + 1)
  | more head value behind items ihvalue ihitems =>
    simp only [laid, levels, ihvalue, ihitems]

/-- A layout keeps the tokens. -/
theorem tokensOf_laid {form : Form} (t : Json form) (depth : Nat) :
    tokensOf (t.laid layout unit depth).pieces = tokensOf t.pieces := by
  have hhead : ∀ {kind : Kind} (h : Head kind) (depth : Nat),
      tokensOf (h.laid layout unit depth).pieces = tokensOf h.pieces := by
    intro kind h depth
    cases h <;> rfl
  induction t generalizing depth with
  | scalar lexeme => rfl
  | empty kind inner => rfl
  | filled kind items ih => simp [laid, pieces, ih]
  | last head value behind ih => simp [laid, pieces, hhead, ih]
  | more head value behind items ihvalue ihitems =>
    simp [laid, pieces, hhead, ihvalue, ihitems]

/-- Without its whitespace a text is its tokens. -/
theorem render_minified {form : Form} (t : Json form) (depth : Nat) :
    (t.laid .minify unit depth).render = (tokensOf t.pieces).flatten := by
  have hhead : ∀ {kind : Kind} (h : Head kind) (depth : Nat),
      (h.laid .minify unit depth).render = (tokensOf h.pieces).flatten := by
    intro kind h depth
    cases h <;> simp [Head.laid, Head.render, Head.pieces, Layout.gap, Layout.colonGap, Space.empty]
  induction t generalizing depth with
  | scalar lexeme => simp [laid, render, pieces]
  | empty kind inner => simp [laid, render, pieces, Space.empty]
  | filled kind items ih => simp [laid, render, pieces, ih]
  | last head value behind ih =>
    simp [laid, render, pieces, hhead, ih, Layout.gap, Space.empty]
  | more head value behind items ihvalue ihitems =>
    simp [laid, render, pieces, hhead, ihvalue, ihitems, Space.empty]

end Json

/-- A document with the whitespace of a layout. -/
def Document.laid (d : Document) : Document := ⟨.empty, d.value.laid layout unit 0, .empty⟩

/-- Only the last layout of a document counts. -/
theorem Document.laid_laid (layout' : Layout) (d : Document) :
    (d.laid layout' unit).laid layout unit = d.laid layout unit := by
  rw [Document.laid, Document.laid, Json.laid_laid, ← Document.laid]

theorem Document.tokens_laid (d : Document) : (d.laid layout unit).tokens = d.tokens := by
  simp [Document.tokens, Document.laid, Document.pieces, Json.tokensOf_laid]

theorem Document.render_minified (d : Document) :
    (d.laid .minify unit).render = d.tokens.flatten := by
  simp [Document.render, Document.laid, Document.tokens, Document.pieces, Json.render_minified,
    Space.empty]

end Laid

/-! ## §3 Ranges of values -/

namespace Json

/-- The values that are items, with their offsets. -/
def items : {form : Form} → Json form → Nat → List (Nat × Json .value)
  | _, scalar _, _ => []
  | _, empty _ _, _ => []
  | _, filled _ items, offset => items.items (offset + 1)
  | _, last head value _, offset => [(offset + head.render.length, value)]
  | _, more head value behind rest, offset =>
    (offset + head.render.length, value) ::
      rest.items (offset + head.render.length + value.render.length + behind.bytes.length + 1)

/-- An item stands in the text at its offset. -/
theorem render_of_mem_items {form : Form} (t : Json form) {o o' : Nat} {v : Json .value}
    (h : (o', v) ∈ t.items o) :
    ∃ front back, t.render = front ++ (v.render ++ back) ∧ o' = o + front.length := by
  induction t generalizing o with
  | scalar lexeme => exact nomatch h
  | empty kind inner => exact nomatch h
  | filled kind items ih =>
    obtain ⟨front, back, hrender, rfl⟩ := ih h
    refine ⟨kind.opening :: front, back ++ [kind.closing], ?_, ?_⟩
    · rw [render, hrender]
      simp only [List.append_assoc, List.cons_append]
    · rw [List.length_cons]
      omega
  | last head value behind ih =>
    obtain ⟨rfl, rfl⟩ := Prod.mk.inj (List.mem_singleton.mp h)
    exact ⟨head.render, behind.bytes, rfl, rfl⟩
  | more head value behind items ihvalue ihitems =>
    rcases List.mem_cons.mp h with heq | hitems
    · obtain ⟨rfl, rfl⟩ := Prod.mk.inj heq
      exact ⟨head.render, behind.bytes ++ 0x2C :: items.render, rfl, rfl⟩
    · obtain ⟨front, back, hrender, rfl⟩ := ihitems hitems
      refine ⟨head.render ++ (value.render ++ (behind.bytes ++ 0x2C :: front)), back, ?_, ?_⟩
      · rw [render, hrender]
        simp only [List.append_assoc, List.cons_append]
      · simp only [List.length_append, List.length_cons]
        omega

end Json

/-- The root of a document and its direct children, with their offsets. -/
def Document.parts (d : Document) : List (Nat × Json .value) :=
  (d.before.bytes.length, d.value) :: d.value.items d.before.bytes.length

/-- A part of a document is what stands at its offset. -/
theorem Document.part_at {d : Document} {o : Nat} {v : Json .value} (h : (o, v) ∈ d.parts) :
    (d.render.drop o).take v.render.length = v.render := by
  have hfront : ∃ front back, d.render = front ++ (v.render ++ back) ∧ o = front.length := by
    rcases List.mem_cons.mp h with heq | hitem
    · obtain ⟨rfl, rfl⟩ := Prod.mk.inj heq
      exact ⟨d.before.bytes, d.behind.bytes, rfl, rfl⟩
    · obtain ⟨front, back, hrender, rfl⟩ := d.value.render_of_mem_items hitem
      refine ⟨d.before.bytes ++ front, back ++ d.behind.bytes, ?_, List.length_append.symm⟩
      rw [Document.render, hrender]
      simp only [List.append_assoc]
  obtain ⟨front, back, hrender, rfl⟩ := hfront
  rw [hrender, List.drop_left, List.take_left]

end BareLine.JsonTools
