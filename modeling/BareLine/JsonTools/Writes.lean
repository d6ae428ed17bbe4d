import BareLine.JsonTools.Values

/-!
# What the parser writes

On a value the parser writes its layout and lists the nodes of the root and its children.
-/

namespace BareLine.JsonTools

open Lib

/-! ## §1 Items -/

/-- The whitespace in front of an item. -/
def Head.before : {kind : Kind} → Head kind → Space
  | _, element before => before
  | _, member before _ _ _ => before

/-- What stands in front of an item up to its colon, behind the whitespace. -/
def Head.key : {kind : Kind} → Head kind → Bytes
  | _, element _ => []
  | _, member _ key behind _ => renderString key ++ (behind.bytes ++ [0x3A])

/-- The whitespace behind a colon. -/
def Head.front : {kind : Kind} → Head kind → Space
  | _, element _ => .empty
  | _, member _ _ _ front => front

theorem Head.render_eq {kind : Kind} (h : Head kind) :
    h.render = h.before.bytes ++ (h.key ++ h.front.bytes) := by
  cases h with
  | element before => exact (List.append_nil _).symm
  | member before key behind front =>
    simp only [render, Head.before, Head.key, Head.front, List.append_assoc, List.cons_append,
      List.nil_append]

namespace Json

/-- The whitespace in front of the first item. -/
def before : {form : Form} → Json form → Space
  | _, scalar _ => .empty
  | _, empty _ _ => .empty
  | _, filled _ _ => .empty
  | _, last head _ _ => head.before
  | _, more head _ _ _ => head.before

/-- Items behind that whitespace. -/
def body : {form : Form} → Json form → Bytes
  | _, scalar lexeme => (scalar lexeme).render
  | _, empty kind inner => (empty kind inner).render
  | _, filled kind items => (filled kind items).render
  | _, last head value behind => head.key ++ (head.front.bytes ++ (value.render ++ behind.bytes))
  | _, more head value behind rest =>
    head.key ++ (head.front.bytes ++ (value.render ++ (behind.bytes ++ 0x2C :: rest.render)))

theorem render_eq {form : Form} (t : Json form) : t.render = t.before.bytes ++ t.body := by
  cases t with
  | scalar lexeme => rfl
  | empty kind inner => rfl
  | filled kind items => rfl
  | last head value behind => simp only [render, body, before, head.render_eq, List.append_assoc]
  | more head value behind items =>
    simp only [render, body, before, head.render_eq, List.append_assoc]

/-- The items of a container in a layout, up to the whitespace in front of the closing bracket. -/
def spread (layout : Layout) (unit : Space) : {form : Form} → Nat → Json form → Bytes
  | _, depth, scalar lexeme => ((scalar lexeme).laid layout unit depth).render
  | _, depth, empty kind inner => ((empty kind inner).laid layout unit depth).render
  | _, depth, filled kind items => ((filled kind items).laid layout unit depth).render
  | _, depth, last head value _ =>
    (head.laid layout unit depth).render ++ (value.laid layout unit depth).render
  | _, depth, more head value _ rest =>
    (head.laid layout unit depth).render ++ ((value.laid layout unit depth).render ++
      0x2C :: rest.spread layout unit depth)

theorem render_laid_items {kind : Kind} (layout : Layout) (unit : Space) (t : Json (.items kind))
    (depth : Nat) : (t.laid layout unit depth).render =
      t.spread layout unit (depth + 1) ++ (layout.gap unit depth).bytes := by
  generalize hform : Form.items kind = form at t
  induction t generalizing kind depth with
  | scalar lexeme => exact nomatch hform
  | empty kind inner => exact nomatch hform
  | filled kind items ih => exact nomatch hform
  | last head value behind ih => simp only [laid, render, spread, List.append_assoc]
  | more head value behind items ihvalue ihitems =>
    simp only [laid, render, spread, ihitems depth rfl, Space.empty, List.append_assoc,
      List.cons_append, List.nil_append]

/-- A byte that starts a value or a key. -/
def Leads (b : UInt8) : Prop := isSpace b = false ∧ ∀ kind : Kind, b ≠ kind.closing

theorem leads_of_not {b : UInt8} (h : isSpace b = false ∧ b ≠ 0x7D ∧ b ≠ 0x5D) : Leads b :=
  ⟨h.1, fun kind => match kind with
    | .object => h.2.1
    | .array => h.2.2⟩

/-- A value starts neither with whitespace nor with a closing bracket. -/
theorem render_head (t : Json .value) : ∃ b bytes, t.render = b :: bytes ∧ Leads b := by
  cases t with
  | scalar lexeme =>
    cases lexeme with
    | string parts => exact ⟨_, _, rfl, leads_of_not (by decide)⟩
    | number n =>
      have hbyte : ∀ b : UInt8, b = 0x2D ∨ isDigit b = true →
          isSpace b = false ∧ b ≠ 0x7D ∧ b ≠ 0x5D := by grind [isDigit, isSpace]
      obtain ⟨b, bytes, hrender, hb⟩ := n.render_cons
      exact ⟨b, bytes, hrender, leads_of_not (hbyte b hb)⟩
    | literal l => cases l <;> exact ⟨_, _, rfl, leads_of_not (by decide)⟩
  | empty kind inner => cases kind <;> exact ⟨_, _, rfl, leads_of_not (by decide)⟩
  | filled kind items => cases kind <;> exact ⟨_, _, rfl, leads_of_not (by decide)⟩

/-- So do items behind the whitespace. -/
theorem body_head {kind : Kind} (t : Json (.items kind)) :
    ∃ b bytes, t.body = b :: bytes ∧ Leads b := by
  have hitem : ∀ (head : Head kind) (value : Json .value) (rest : Bytes), ∃ b bytes,
      head.key ++ (head.front.bytes ++ (value.render ++ rest)) = b :: bytes ∧ Leads b := by
    intro head value rest
    cases head with
    | element before =>
      obtain ⟨b, bytes, hrender, hb⟩ := value.render_head
      exact ⟨b, bytes ++ rest, by rw [hrender]; rfl, hb⟩
    | member before key behind front => exact ⟨_, _, rfl, leads_of_not (by decide)⟩
  cases t with
  | last head value behind => exact hitem head value behind.bytes
  | more head value behind items => exact hitem head value _

end Json

/-! ## §2 Nodes -/

namespace Json

open Process (Node kindAt)

/-- The node of a value that starts at an offset. -/
def node (t : Json .value) (offset : Nat) : Node :=
  ⟨offset, offset + t.render.length, kindAt t.render.head?⟩

/-- The nodes of a value at a depth, or of items at a depth whose body starts at an offset. -/
def listed : {form : Form} → Nat → Json form → Nat → List Node
  | _, depth, scalar lexeme, offset => if depth ≤ 1 then [(scalar lexeme).node offset] else []
  | _, depth, empty kind inner, offset =>
    if depth ≤ 1 then [(empty kind inner).node offset] else []
  | _, depth, filled kind items, offset =>
    (if depth ≤ 1 then [(filled kind items).node offset] else []) ++
      items.listed (depth + 1) (offset + 1 + items.before.bytes.length)
  | _, depth, last head value _, offset =>
    value.listed depth (offset + head.key.length + head.front.bytes.length)
  | _, depth, more head value behind rest, offset =>
    value.listed depth (offset + head.key.length + head.front.bytes.length) ++
      rest.listed depth (offset + head.key.length + head.front.bytes.length +
        value.render.length + behind.bytes.length + 1 + rest.before.bytes.length)

/-- Deeper values have no nodes. -/
theorem listed_deep {form : Form} (t : Json form) {depth : Nat} (h : 1 < depth) (offset : Nat) :
    t.listed depth offset = [] := by
  induction t generalizing depth offset with
  | scalar lexeme => exact if_neg (Nat.not_le.mpr h)
  | empty kind inner => exact if_neg (Nat.not_le.mpr h)
  | filled kind items ih => rw [listed, if_neg (Nat.not_le.mpr h), ih (Nat.lt_succ_of_lt h)]; rfl
  | last head value behind ih => exact ih h _
  | more head value behind items ihvalue ihitems => rw [listed, ihvalue h, ihitems h]; rfl

/-- A value has its own node and those of its parts. -/
theorem listed_eq (t : Json .value) (depth offset : Nat) :
    t.listed depth offset = (if depth ≤ 1 then [t.node offset] else []) ++
      match t with
      | filled _ items => items.listed (depth + 1) (offset + 1 + items.before.bytes.length)
      | _ => [] := by
  cases t with
  | scalar lexeme => exact (List.append_nil _).symm
  | empty kind inner => exact (List.append_nil _).symm
  | filled kind items => rfl

/-- A child has its own node only. -/
theorem listed_child (t : Json .value) (offset : Nat) : t.listed 1 offset = [t.node offset] := by
  rw [listed_eq, if_pos (Nat.le_refl 1)]
  cases t with
  | scalar lexeme => rfl
  | empty kind inner => rfl
  | filled kind items =>
    dsimp only
    rw [listed_deep items (by decide)]
    rfl

/-- The items of the root have the nodes of their values. -/
theorem listed_items {kind : Kind} (t : Json (.items kind)) (offset : Nat) :
    t.listed 1 (offset + t.before.bytes.length) =
      (t.items offset).map fun part => part.2.node part.1 := by
  have hhead : ∀ {kind : Kind} (h : Head kind) (offset : Nat),
      offset + h.before.bytes.length + h.key.length + h.front.bytes.length =
        offset + h.render.length := by
    intro kind h offset
    rw [h.render_eq, List.length_append, List.length_append]
    omega
  generalize hform : Form.items kind = form at t
  induction t generalizing kind offset with
  | scalar lexeme => exact nomatch hform
  | empty kind inner => exact nomatch hform
  | filled kind items ih => exact nomatch hform
  | last head value behind ih =>
    rw [listed, listed_child, before, hhead]
    rfl
  | more head value behind items ihvalue ihitems =>
    rw [listed, listed_child, before, hhead, ihitems _ rfl]
    rfl

/-- The root and its direct children are listed. -/
theorem listed_root (d : Document) : d.value.listed 0 d.before.bytes.length =
    d.parts.map fun part => part.2.node part.1 := by
  rw [listed_eq, if_pos (Nat.zero_le 1), Document.parts, List.map_cons]
  refine congrArg (List.cons _) ?_
  cases d.value with
  | scalar lexeme => rfl
  | empty kind inner => rfl
  | filled kind items => exact listed_items items _

end Json

namespace Process

/-! ## §3 Actions -/

variable (layout : Layout)

/-- The nodes that are kept. -/
def kept (nodes : List Node) : List Node := nodes.take 256

/-- The parser has read some bytes, written some and listed nodes. -/
structure Lists (s s' : Parser) (bytes out : Bytes) (nodes : List Node) : Prop where
  rest : s.rest = bytes ++ s'.rest
  filled : s'.Filled
  out : s'.out = s.out ++ out
  offset : s'.offset = s.offset + bytes.length
  nodes : s'.nodes = kept (s.nodes ++ nodes)

/-- On some bytes, in front of a rest as `next` wants it, the action succeeds and lists nodes that
depend on the offset. -/
def Covers {α : Type} (d d' : Nat) (f : Action α) (bytes out : Bytes) (nodes : Nat → List Node)
    (next : Bytes → Prop) (a : α) : Prop :=
  ∀ s, s.Filled → s.depth = d → s.nodes.length ≤ 256 → ∀ rest, s.rest = bytes ++ rest → next rest →
    ∃ s', f s = .ok (a, s') ∧ s'.depth = d' ∧ Lists s s' bytes out (nodes s.offset)

theorem kept_of_le {nodes : List Node} (h : nodes.length ≤ 256) : kept nodes = nodes :=
  List.take_of_length_le h

theorem kept_length (nodes : List Node) : (kept nodes).length ≤ 256 := by
  rw [kept, List.length_take]
  exact Nat.min_le_left ..

theorem kept_append (a b : List Node) : kept (kept a ++ b) = kept (a ++ b) := by
  rw [kept, kept, kept, List.take_append, List.take_take, Nat.min_self, List.take_append,
    List.length_take]
  congr 2
  omega

theorem Lists.rest_eq {s s' : Parser} {bytes out rest : Bytes} {nodes : List Node}
    (h : Lists s s' bytes out nodes) (hrest : s.rest = bytes ++ rest) : s'.rest = rest :=
  List.append_cancel_left (h.rest.symm.trans hrest)

theorem Lists.trans {s s' s'' : Parser} {x y p q : Bytes} {a b : List Node}
    (h : Lists s s' x p a) (h' : Lists s' s'' y q b) : Lists s s'' (x ++ y) (p ++ q) (a ++ b) where
  rest := by rw [h.rest, h'.rest, List.append_assoc]
  filled := h'.filled
  out := by rw [h'.out, h.out, List.append_assoc]
  offset := by rw [h'.offset, h.offset, List.length_append, Nat.add_assoc]
  nodes := by rw [h'.nodes, h.nodes, kept_append, List.append_assoc]

namespace Covers

variable {α β : Type} {d d' d'' : Nat} {f : Action α} {g : α → Action β}

theorem of_complete {bytes out : Bytes} {next : Bytes → Prop} {a : α}
    (h : Complete f bytes out next a) : Covers d d f bytes out (fun _ => []) next a := by
  intro s hs hd hlen rest hrest hnext
  obtain ⟨s', hrun, hreads⟩ := h s hs rest hrest hnext
  refine ⟨s', hrun, hreads.depth.trans hd, hreads.rest, hreads.filled, hreads.out,
    hreads.offset, ?_⟩
  rw [List.append_nil, kept_of_le hlen, hreads.nodes]

theorem mono {bytes out : Bytes} {nodes : Nat → List Node} {next next' : Bytes → Prop} {a : α}
    (h : Covers d d' f bytes out nodes next a) (hnext : ∀ rest, next' rest → next rest) :
    Covers d d' f bytes out nodes next' a :=
  fun s hs hd hlen rest hrest hn => h s hs hd hlen rest hrest (hnext rest hn)

theorem bind {x y p q : Bytes} {m n : Nat → List Node} {next next' : Bytes → Prop} {a : α} {b : β}
    (hf : Covers d d' f x p m next a) (hg : Covers d' d'' (g a) y q n next' b)
    (hnext : ∀ rest, next' rest → next (y ++ rest)) :
    Covers d d'' (f >>= g) (x ++ y) (p ++ q) (fun o => m o ++ n (o + x.length)) next' b := by
  intro s hs hd hlen rest hrest hn
  rw [List.append_assoc] at hrest
  obtain ⟨s', hrun, hd', hlists⟩ := hf s hs hd hlen _ hrest (hnext rest hn)
  have hlen' : s'.nodes.length ≤ 256 := hlists.nodes ▸ kept_length _
  obtain ⟨s'', hrun', hd'', hlists'⟩ :=
    hg s' hlists.filled hd' hlen' rest (hlists.rest_eq hrest) hn
  rw [hlists.offset] at hlists'
  exact ⟨s'', (bind_run hrun).trans hrun', hd'', hlists.trans hlists'⟩

/-- After a peek the action goes on with the byte that is next. -/
theorem peek {k : Option UInt8 → Action β} {bytes out : Bytes} {nodes : Nat → List Node}
    {next : Bytes → Prop} {b : β} {o : Option UInt8} (h : Covers d d' (k o) bytes out nodes next b)
    (hhead : ∀ rest, next rest → (bytes ++ rest).head? = o) :
    Covers d d' (peek >>= k) bytes out nodes next b := by
  intro s hs hd hlen rest hrest hn
  have hpeek := peek_run hs
  rw [hrest, hhead rest hn] at hpeek
  obtain ⟨s', hrun, hlists⟩ := h s hs hd hlen rest hrest hn
  exact ⟨s', (bind_run hpeek).trans hrun, hlists⟩

/-- The depth changes, and what is written depends on it. -/
theorem indent (unit : Bytes) : Covers d d (indent layout unit) []
    (if layout = .pretty then 0x0A :: (List.replicate d unit).flatten else []) (fun _ => []) Any
    () := by
  intro s hs hd hlen rest hrest _
  rw [Process.indent]
  split_ifs with hpretty
  · subst hpretty
    refine ⟨_, rfl, hd, rfl, hs, ?_, rfl, ?_⟩
    · show s.out ++ [0x0A] ++ (List.replicate s.depth unit).flatten = _
      rw [hd, List.append_assoc]
      rfl
    · rw [List.append_nil, kept_of_le hlen]
  · refine ⟨s, rfl, hd, rfl, hs, (List.append_nil _).symm, rfl, ?_⟩
    rw [List.append_nil, kept_of_le hlen]

theorem depth {f : Nat → Nat} (h : f d = d') :
    Covers d d' (modify fun s => { s with depth := f s.depth }) [] [] (fun _ => []) Any () := by
  intro s hs hd hlen rest hrest _
  refine ⟨_, rfl, (congrArg f hd).trans h, rfl, hs, (List.append_nil _).symm, rfl, ?_⟩
  rw [List.append_nil]
  exact (kept_of_le hlen).symm

end Covers

/-- The end of a node is set where it stands. -/
theorem kept_modify {nodes children : List Node} (node : Node) (g : Node → Node)
    (h : nodes.length < 256) : (kept (nodes ++ node :: children)).modify nodes.length g =
      kept (nodes ++ g node :: children) := by
  obtain ⟨left, hleft⟩ : ∃ left, 256 - nodes.length = left + 1 :=
    ⟨256 - nodes.length - 1, by omega⟩
  simp only [kept, List.take_append, hleft, List.take_succ_cons]
  rw [List.take_of_length_le (Nat.le_of_lt h), List.modify_eq_take_drop, List.take_left,
    List.drop_left]
  rfl

/-- The node of a value stands in front of those of its parts. -/
theorem node_covers {d : Nat} {f : Action Unit} {bytes out : Bytes} {children : Nat → List Node}
    {next : Bytes → Prop} (kind : String) (h : Covers d d f bytes out children next ()) :
    Covers d d (fun s => (pushNode s.offset kind >>= fun node => f >>= fun _ => closeNode node) s)
      bytes out (fun o => (if d ≤ 1 then [⟨o, o + bytes.length, kind⟩] else []) ++ children o) next
      () := by
  intro s hs hd hlen rest hrest hn
  dsimp only
  by_cases hroom : s.depth ≤ 1 ∧ s.nodes.length < 256
  · have hpush : pushNode s.offset kind s = .ok (some s.nodes.length,
        { s with nodes := s.nodes ++ [⟨s.offset, s.offset, kind⟩] }) := by
      rw [pushNode, bind_run (x := get) rfl, if_pos hroom]
      rfl
    obtain ⟨s', hrun, hd', hlists⟩ :=
      h { s with nodes := s.nodes ++ [⟨s.offset, s.offset, kind⟩] } hs hd
        (by rw [List.length_append]; exact hroom.2) rest hrest hn
    rw [bind_run hpush, bind_run hrun, if_pos (hd ▸ hroom.1)]
    refine ⟨_, rfl, hd', hlists.rest, hlists.filled, hlists.out, hlists.offset, ?_⟩
    have hnodes := hlists.nodes
    rw [List.append_assoc] at hnodes
    show s'.nodes.modify s.nodes.length _ = _
    rw [hnodes, List.singleton_append, kept_modify _ _ hroom.2, hlists.offset]
    rfl
  · have hpush : pushNode s.offset kind s = .ok (none, s) := by
      rw [pushNode, bind_run (x := get) rfl, if_neg hroom]
      rfl
    obtain ⟨s', hrun, hd', hlists⟩ := h s hs hd hlen rest hrest hn
    rw [bind_run hpush, bind_run hrun]
    refine ⟨s', rfl, hd', hlists.rest, hlists.filled, hlists.out, hlists.offset, ?_⟩
    rw [hlists.nodes]
    split_ifs with hshallow
    · -- the list is full
      have hfull : 256 ≤ s.nodes.length := by omega
      rw [kept, kept, List.take_append_of_le_length hfull, List.take_append_of_le_length hfull]
    · rfl

/-! ## §4 Values -/

variable (unit : Space)

theorem Covers.cast {α : Type} {d d' : Nat} {f : Action α} {bytes bytes' out out' : Bytes}
    {nodes nodes' : Nat → List Node} {next : Bytes → Prop} {a : α}
    (h : Covers d d' f bytes out nodes next a) (hbytes : bytes = bytes') (hout : out = out')
    (hnodes : ∀ o, nodes o = nodes' o) : Covers d d' f bytes' out' nodes' next a := by
  subst hbytes hout
  obtain rfl := funext hnodes
  exact h

/-- A key is read with its colon. -/
theorem key_complete {kind : Kind} (head : Head kind) (d : Nat) :
    Complete (key layout kind) head.key
      (written layout ((head.laid layout unit d).key ++ (head.laid layout unit d).front.bytes)) Any
      () := by
  cases head with
  | element before =>
    show Complete (pure ()) [] (written layout []) Any ()
    rw [written_nil]
    exact .pure ()
  | member before parts behind front =>
    have hgap : Complete (if layout = .pretty then emit layout [0x20] else pure ()) []
        (written layout layout.colonGap.bytes) Any () := by
      rw [Layout.colonGap]
      split_ifs
      · exact emit_complete layout _
      · show Complete (pure ()) [] (written layout []) Any ()
        rw [written_nil]
        exact .pure ()
    have hkey := (string_complete layout parts).bind (g := fun _ => ws >>= fun _ =>
      expect layout 0x3A >>= fun _ => if layout = .pretty then emit layout [0x20] else pure ())
      ((ws_complete behind).bind ((expect_complete layout 0x3A).bind hgap fun _ _ => trivial)
        fun rest _ b hb => by obtain rfl := Option.some.inj hb; rfl) fun _ _ => trivial
    simp only [List.nil_append, List.append_nil, ← written_append] at hkey
    simp only [Head.laid, Head.key, Head.front, Space.empty, List.nil_append, List.append_assoc]
    exact hkey

/-- What follows a value in a container. -/
def Punctuated (rest : Bytes) : Prop := Stops isSpace rest ∧ Stops continues rest

theorem punctuated_of_head {rest : Bytes} {b : UInt8} (h : rest.head? = some b)
    (hb : isSpace b = false ∧ continues b = false) : Punctuated rest := by
  refine ⟨fun c hc => ?_, fun c hc => ?_⟩
  all_goals obtain rfl := Option.some.inj (h.symm.trans hc)
  · exact hb.1
  · exact hb.2

/-- Whitespace does not go on with a number. -/
theorem Punctuated.stops {rest : Bytes} (h : Punctuated rest) (space : Space) :
    Stops continues (space.bytes ++ rest) := by
  have hspace : ∀ b : UInt8, isSpace b = true → continues b = false := by
    grind [isSpace, isDigit, continues]
  exact .append (fun b hb => hspace b (space.spaces b (List.mem_of_mem_head? hb))) fun _ => h.2

/-- An item is read, and what stands behind it. -/
theorem item_covers {kind : Kind} {d : Nat} {value k : Action Unit} {tail out : Bytes}
    {nodes : Nat → List Node} {next : Bytes → Prop} (head : Head kind) (t : Json .value)
    (behind : Space)
    (hvalue : Covers d d value (head.front.bytes ++ t.render)
      (written layout (t.laid layout unit d).render)
      (fun o => t.listed d (o + head.front.bytes.length)) (Stops continues) ())
    (hk : Covers d d k tail out nodes next ())
    (htail : ∀ rest, next rest → Punctuated (tail ++ rest)) :
    Covers d d (indent layout unit.bytes >>= fun _ => key layout kind >>= fun _ =>
        value >>= fun _ => ws >>= fun _ => k)
      (head.key ++ (head.front.bytes ++ (t.render ++ (behind.bytes ++ tail))))
      (written layout ((head.laid layout unit d).render ++ (t.laid layout unit d).render) ++ out)
      (fun o => t.listed d (o + head.key.length + head.front.bytes.length) ++
        nodes (o + head.key.length + head.front.bytes.length + t.render.length +
          behind.bytes.length)) next () := by
  have hgap : (head.laid layout unit d).before = layout.gap unit d := by cases head <;> rfl
  have hindent : (if layout = .pretty then 0x0A :: (List.replicate d unit.bytes).flatten else []) =
      written layout (layout.gap unit d).bytes := by
    rw [Layout.gap]
    cases layout <;> rfl
  have hparts := (Covers.indent layout (d := d) unit.bytes).bind (g := fun _ =>
    key layout kind >>= fun _ => value >>= fun _ => ws >>= fun _ => k)
    ((Covers.of_complete (key_complete layout unit head d)).bind
      (hvalue.bind ((Covers.of_complete (ws_complete behind)).bind hk
        fun rest hrest => (htail rest hrest).1)
        fun rest hrest => by rw [List.append_assoc]; exact (htail rest hrest).stops behind)
      fun _ _ => trivial) fun _ _ => trivial
  refine hparts.cast ?_ ?_ fun o => ?_
  · simp only [List.nil_append, List.append_assoc]
  · rw [hindent, (head.laid layout unit d).render_eq, hgap]
    simp only [written_append, List.nil_append, List.append_assoc]
  · simp only [List.nil_append, List.length_nil, List.length_append, Nat.add_zero, Nat.add_assoc]

/-- What the parser does on a value, or on the items of a container behind the first whitespace. -/
def Covered : {form : Form} → Json form → Prop
  | .value, t => ∀ fuel d, d + t.levels ≤ 128 → 129 ≤ fuel + d → ∀ space : Space,
    Covers d d (value layout unit.bytes fuel) (space.bytes ++ t.render)
      (written layout (t.laid layout unit d).render)
      (fun o => t.listed d (o + space.bytes.length)) (Stops continues) ()
  | .items kind, t => ∀ fuel d rounds, d + t.levels ≤ 128 → 129 ≤ fuel + d →
    t.body.length < rounds →
    Covers d d (itemsLoop layout unit.bytes (value layout unit.bytes fuel) kind rounds) t.body
      (written layout (t.spread layout unit d)) (t.listed d)
      (fun rest => rest.head? = some kind.closing) ()

theorem closing_punctuated {kind : Kind} {rest : Bytes} (h : rest.head? = some kind.closing) :
    Punctuated rest := punctuated_of_head h (by cases kind <;> decide)

theorem last_covered {kind : Kind} (head : Head kind) (t : Json .value) (behind : Space)
    (ht : Covered layout unit t) : Covered layout unit (.last head t behind) := by
  intro fuel d rounds hlevels hfuel hrounds
  cases rounds with
  | zero => exact absurd hrounds (Nat.not_lt_zero _)
  | succ rounds =>
    have hdone : Covers d d (peek >>= fun next => if next ≠ some 0x2C then pure () else
        copy layout >>= fun _ => ws >>= fun _ =>
          itemsLoop layout unit.bytes (value layout unit.bytes fuel) kind rounds) [] []
        (fun _ => []) (fun rest => rest.head? = some kind.closing) () := by
      refine .peek (o := some kind.closing) ?_ fun rest hrest => hrest
      rw [if_pos (by cases kind <;> decide)]
      exact (Covers.of_complete (.pure ())).mono fun _ _ => trivial
    refine (item_covers layout unit head t behind (ht fuel d hlevels hfuel head.front) hdone
      fun rest hrest => closing_punctuated hrest).cast ?_ (List.append_nil _) fun o =>
        List.append_nil _
    rw [List.append_nil]
    rfl

theorem more_covered {kind : Kind} (head : Head kind) (t : Json .value) (behind : Space)
    (items : Json (.items kind)) (ht : Covered layout unit t) (hitems : Covered layout unit items) :
    Covered layout unit (.more head t behind items) := by
  intro fuel d rounds hlevels hfuel hrounds
  rw [Json.levels] at hlevels
  cases rounds with
  | zero => exact absurd hrounds (Nat.not_lt_zero _)
  | succ rounds =>
    have hshorter : items.body.length < rounds := by
      rw [Json.body, items.render_eq] at hrounds
      simp only [List.length_append, List.length_cons] at hrounds
      omega
    obtain ⟨b, bytes, hbody, hlead⟩ := items.body_head
    have hrest := hitems fuel d rounds (by omega) hfuel hshorter
    have hagain := (Covers.of_complete (d := d) (copy_complete layout 0x2C)).bind (g := fun _ =>
      ws >>= fun _ => itemsLoop layout unit.bytes (value layout unit.bytes fuel) kind rounds)
      ((Covers.of_complete (ws_complete items.before)).bind hrest fun rest _ => by
        rw [hbody]
        rintro _ ⟨⟩
        exact hlead.1) fun _ _ => trivial
    have hcomma : Covers d d (peek >>= fun next => if next ≠ some 0x2C then pure () else
        copy layout >>= fun _ => ws >>= fun _ =>
          itemsLoop layout unit.bytes (value layout unit.bytes fuel) kind rounds)
        (0x2C :: items.render) (written layout (0x2C :: items.spread layout unit d))
        (fun o => items.listed d (o + 1 + items.before.bytes.length))
        (fun rest => rest.head? = some kind.closing) () := by
      refine .peek (o := some 0x2C) ?_ fun _ _ => rfl
      rw [if_neg (not_not.mpr rfl)]
      refine hagain.cast ?_ ?_ fun o => rfl
      · rw [items.render_eq]
        rfl
      · rw [List.nil_append, ← written_append]
        rfl
    refine (item_covers layout unit head t behind (ht fuel d (by omega) hfuel head.front) hcomma
      fun rest _ => punctuated_of_head rfl (by decide)).cast rfl ?_ fun o => ?_
    · rw [← written_append, List.append_assoc]
      rfl
    · rw [Json.listed]

/-- A container is read up to its closing bracket, and then closed. -/
theorem container_covers {kind : Kind} {d : Nat} {value : Action Unit} (space : Space)
    {body out : Bytes} {nodes : Nat → List Node}
    (hbody : Covers (d + 1) d (peek >>= fun next => if next ≠ some kind.closing then
        (fun s => itemsLoop layout unit.bytes value kind (s.rest.length + 1) s) >>= fun _ =>
          modify (fun s => { s with depth := s.depth - 1 }) >>= fun _ =>
            indent layout unit.bytes >>= fun _ => expect layout kind.closing
      else modify (fun s => { s with depth := s.depth - 1 }) >>= fun _ =>
        expect layout kind.closing) body out nodes Any ())
    (hhead : ∀ rest, Stops isSpace (body ++ rest)) :
    Covers d d (container layout unit.bytes value kind) (kind.opening :: (space.bytes ++ body))
      (written layout [kind.opening] ++ out) (fun o => nodes (o + 1 + space.bytes.length)) Any
      () := by
  have hopened := (Covers.of_complete (d := d) (copy_complete layout kind.opening)).bind
    (g := fun _ => modify (fun s => { s with depth := s.depth + 1 }) >>= fun _ => ws >>= fun _ =>
      peek >>= fun next => if next ≠ some kind.closing then
        (fun s => itemsLoop layout unit.bytes value kind (s.rest.length + 1) s) >>= fun _ =>
          modify (fun s => { s with depth := s.depth - 1 }) >>= fun _ =>
            indent layout unit.bytes >>= fun _ => expect layout kind.closing
      else modify (fun s => { s with depth := s.depth - 1 }) >>= fun _ =>
        expect layout kind.closing)
    ((Covers.depth (f := (· + 1)) rfl).bind ((Covers.of_complete (ws_complete space)).bind hbody
      fun rest _ => hhead rest) fun _ _ => trivial) fun _ _ => trivial
  exact hopened.cast rfl rfl fun o => rfl

/-- The closing bracket of a container is read. -/
theorem closing_covers (kind : Kind) (d : Nat) :
    Covers (d + 1) d (modify (fun s => { s with depth := s.depth - 1 }) >>= fun _ =>
      expect layout kind.closing) [kind.closing] (written layout [kind.closing]) (fun _ => []) Any
      () :=
  ((Covers.depth (f := (· - 1)) (Nat.add_sub_cancel d 1)).bind
    (.of_complete (expect_complete layout kind.closing)) fun _ _ => trivial).cast rfl rfl
      fun _ => rfl

theorem empty_covers (kind : Kind) (inner : Space) (value : Action Unit) (d : Nat) :
    Covers d d (container layout unit.bytes value kind) (Json.empty kind inner).render
      (written layout ((Json.empty kind inner).laid layout unit d).render) (fun _ => []) Any
      () := by
  have hclosing : Covers (d + 1) d (peek >>= fun next => if next ≠ some kind.closing then
        (fun s => itemsLoop layout unit.bytes value kind (s.rest.length + 1) s) >>= fun _ =>
          modify (fun s => { s with depth := s.depth - 1 }) >>= fun _ =>
            indent layout unit.bytes >>= fun _ => expect layout kind.closing
      else modify (fun s => { s with depth := s.depth - 1 }) >>= fun _ =>
        expect layout kind.closing) [kind.closing] (written layout [kind.closing]) (fun _ => []) Any
      () := by
    refine .peek (o := some kind.closing) ?_ fun _ _ => rfl
    rw [if_neg (not_not.mpr rfl)]
    exact closing_covers layout kind d
  refine (container_covers layout unit inner hclosing fun rest => ?_).cast rfl ?_ fun _ => rfl
  · rintro _ ⟨⟩
    cases kind <;> rfl
  · rw [← written_append]
    rfl

theorem filled_covers {kind : Kind} (items : Json (.items kind)) {fuel d : Nat}
    (hlevels : d + 1 + items.levels ≤ 128) (hfuel : 129 ≤ fuel + (d + 1))
    (hitems : Covered layout unit items) :
    Covers d d (container layout unit.bytes (value layout unit.bytes fuel) kind)
      (Json.filled kind items).render
      (written layout ((Json.filled kind items).laid layout unit d).render)
      (fun o => items.listed (d + 1) (o + 1 + items.before.bytes.length)) Any () := by
  obtain ⟨b, bytes, hbody, hlead⟩ := items.body_head
  have hloop : Covers (d + 1) (d + 1)
      (fun s => itemsLoop layout unit.bytes (value layout unit.bytes fuel) kind
        (s.rest.length + 1) s) items.body (written layout (items.spread layout unit (d + 1)))
      (items.listed (d + 1))
      (fun rest => rest.head? = some kind.closing) () := by
    intro s hs hd hlen rest hrest hnext
    refine hitems fuel (d + 1) (s.rest.length + 1) hlevels hfuel ?_ s hs hd hlen rest hrest hnext
    rw [hrest, List.length_append]
    omega
  have hindent := (Covers.indent layout (d := d) unit.bytes).bind (g := fun _ =>
    expect layout kind.closing) (.of_complete (expect_complete layout kind.closing))
    fun _ _ => trivial
  have hclosed := hloop.bind (g := fun _ =>
    modify (fun s => { s with depth := s.depth - 1 }) >>= fun _ => indent layout unit.bytes >>=
      fun _ => expect layout kind.closing)
    ((Covers.depth (f := (· - 1)) (Nat.add_sub_cancel d 1)).bind hindent fun _ _ => trivial)
    fun rest _ => rfl
  have hpeeked : Covers (d + 1) d (peek >>= fun next => if next ≠ some kind.closing then
        (fun s => itemsLoop layout unit.bytes (value layout unit.bytes fuel) kind
          (s.rest.length + 1) s) >>= fun _ =>
          modify (fun s => { s with depth := s.depth - 1 }) >>= fun _ =>
            indent layout unit.bytes >>= fun _ => expect layout kind.closing
      else modify (fun s => { s with depth := s.depth - 1 }) >>= fun _ =>
        expect layout kind.closing) (items.body ++ [kind.closing])
      (written layout (items.spread layout unit (d + 1)) ++
        ((if layout = .pretty then 0x0A :: (List.replicate d unit.bytes).flatten else []) ++
          written layout [kind.closing])) (items.listed (d + 1)) Any () := by
    refine .peek (o := some b) ?_ fun rest _ => by rw [hbody]; rfl
    rw [if_pos fun heq => hlead.2 kind (Option.some.inj heq)]
    exact hclosed.cast rfl rfl fun o => List.append_nil _
  have hgap : (if layout = .pretty then 0x0A :: (List.replicate d unit.bytes).flatten else []) =
      written layout (layout.gap unit d).bytes := by
    rw [Layout.gap]
    cases layout <;> rfl
  refine (container_covers layout unit items.before hpeeked fun rest => ?_).cast ?_ ?_ fun _ => rfl
  · rw [hbody]
    rintro _ ⟨⟩
    exact hlead.1
  · rw [Json.render, items.render_eq, List.append_assoc]
  · rw [hgap, Json.laid, Json.render, Json.render_laid_items]
    simp only [← written_append, List.append_assoc]
    rfl

/-- What a scalar is read by. -/
theorem scalar_covers (lexeme : Lexeme) (value : Action Unit) (d : Nat) :
    Covers d d (valueAt layout unit.bytes value) lexeme.render (written layout lexeme.render)
      (fun _ => []) (Stops continues) () := by
  cases lexeme with
  | string parts =>
    refine .peek (o := some 0x22) ?_ fun _ _ => rfl
    exact (Covers.of_complete (string_complete layout parts)).mono fun _ _ => trivial
  | literal l =>
    have hall := Covers.of_complete (d := d) (expectAll_complete layout l.render)
    cases l
    · exact .peek (o := some 0x74) (hall.mono fun _ _ => trivial) fun _ _ => rfl
    · exact .peek (o := some 0x66) (hall.mono fun _ _ => trivial) fun _ _ => rfl
    · exact .peek (o := some 0x6E) (hall.mono fun _ _ => trivial) fun _ _ => rfl
  | number n =>
    obtain ⟨b, bytes, hrender, hb⟩ := n.render_cons
    have hother : ∀ b : UInt8, b = 0x2D ∨ isDigit b = true →
        b ≠ 0x7B ∧ b ≠ 0x5B ∧ b ≠ 0x22 ∧ b ≠ 0x74 ∧ b ≠ 0x66 ∧ b ≠ 0x6E := by grind [isDigit]
    obtain ⟨hobject, harray, hstring, htrue, hfalse, hnull⟩ := hother b hb
    refine .peek (o := some b) ?_ fun rest _ => by rw [Lexeme.render, hrender]; rfl
    dsimp only
    rw [if_neg hobject, if_neg harray, if_neg hstring, if_neg htrue, if_neg hfalse, if_neg hnull,
      if_pos hb]
    exact .of_complete (number_complete layout n)

/-- A value is read behind whitespace, and its node is listed. -/
theorem value_covered (t : Json .value) (hat : ∀ fuel d, d + t.levels ≤ 128 → 129 ≤ fuel + 1 + d →
    Covers d d (valueAt layout unit.bytes (value layout unit.bytes fuel)) t.render
      (written layout (t.laid layout unit d).render)
      (fun o => match t with
        | .filled _ items => items.listed (d + 1) (o + 1 + items.before.bytes.length)
        | _ => []) (Stops continues) ()) : Covered layout unit t := by
  intro fuel d hlevels hfuel space
  obtain ⟨b, bytes, hrender, hlead⟩ := t.render_head
  have hpos : 1 ≤ t.levels := by cases t <;> simp [Json.levels]
  cases fuel with
  | zero => omega
  | succ fuel =>
    have hvalue : Covers d d (get >>= fun s => if s.depth ≥ 128 then fail "JSON depth limit (128)"
        else peek >>= fun head => pushNode s.offset (kindAt head) >>= fun node =>
          valueAt layout unit.bytes (value layout unit.bytes fuel) >>= fun _ => closeNode node)
        t.render (written layout (t.laid layout unit d).render) (t.listed d) (Stops continues)
        () := by
      intro s hs hd hlen rest hrest hnext
      have hpeek := peek_run hs
      rw [hrest, List.head?_append_of_ne_nil _ (by rw [hrender]; exact List.cons_ne_nil _ _)]
        at hpeek
      rw [bind_run (x := get) rfl, if_neg (by omega), bind_run hpeek]
      obtain ⟨s', hrun, hd', hlists⟩ := node_covers (kindAt t.render.head?)
        (hat fuel d hlevels hfuel) s hs hd hlen rest hrest hnext
      refine ⟨s', hrun, hd', ?_⟩
      rw [t.listed_eq d s.offset]
      exact hlists
    exact ((Covers.of_complete (ws_complete space)).bind hvalue fun rest _ => by
      rw [hrender]
      rintro _ ⟨⟩
      exact hlead.1).cast rfl rfl fun o => rfl

/-- Every value is read, written in its layout and listed. -/
theorem covered {form : Form} (t : Json form) : Covered layout unit t := by
  induction t with
  | scalar lexeme =>
    exact value_covered layout unit _ fun fuel d _ _ => scalar_covers layout unit lexeme _ d
  | empty kind inner =>
    refine value_covered layout unit _ fun fuel d _ _ => ?_
    have hempty := empty_covers layout unit kind inner (value layout unit.bytes fuel) d
    replace hempty := hempty.mono fun rest (_ : Stops continues rest) => trivial
    cases kind
    · exact .peek (o := some 0x7B) hempty fun _ _ => rfl
    · exact .peek (o := some 0x5B) hempty fun _ _ => rfl
  | filled kind items ih =>
    refine value_covered layout unit _ fun fuel d hlevels hfuel => ?_
    rw [Json.levels] at hlevels
    have hfilled := filled_covers layout unit items (by omega : d + 1 + items.levels ≤ 128)
      (by omega : 129 ≤ fuel + (d + 1)) ih
    replace hfilled := hfilled.mono fun rest (_ : Stops continues rest) => trivial
    cases kind
    · exact .peek (o := some 0x7B) hfilled fun _ _ => rfl
    · exact .peek (o := some 0x5B) hfilled fun _ _ => rfl
  | last head value behind ih => exact last_covered layout unit head value behind ih
  | more head value behind items ihvalue ihitems =>
    exact more_covered layout unit head value behind items ihvalue ihitems

end Process

end BareLine.JsonTools
