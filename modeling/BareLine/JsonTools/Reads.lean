import BareLine.JsonTools.Process

/-!
# What the parser reads

`Sound` says what an action has read when it succeeds, and `Complete` that it succeeds on some
bytes and what it writes for them.  Both only see the bytes that are left, not the pieces they
come in.
-/

namespace BareLine.JsonTools.Process

open Lib

/-! ## §1 Actions -/

section Bind

variable {α β : Type} {x : Action α} {f : α → Action β} {s s' : Parser} {a : α} {b : β}

theorem bind_run (h : x s = .ok (a, s')) : (x >>= f) s = f a s' := by
  show (x s >>= fun r => f r.1 r.2) = _
  rw [h]
  rfl

theorem bind_inv (h : (x >>= f) s = .ok (b, s')) :
    ∃ a s₁, x s = .ok (a, s₁) ∧ f a s₁ = .ok (b, s') := by
  obtain ⟨⟨a, s₁⟩, hx, hf⟩ := bind_ok.mp (show (x s >>= fun r => f r.1 r.2) = _ from h)
  exact ⟨a, s₁, hx, hf⟩

theorem pure_inv {a' : α} (h : (pure a : Action α) s = .ok (a', s')) : a' = a ∧ s' = s := by
  obtain ⟨rfl, rfl⟩ := Prod.mk.inj (Except.ok.inj h)
  exact ⟨rfl, rfl⟩

end Bind

/-! ## §2 Judgements -/

/-- No read has given an empty piece. -/
def Parser.Filled (s : Parser) : Prop := ∀ p ∈ s.input, p ≠ []

/-- The parser has read some bytes and written some. -/
structure Reads (s s' : Parser) (bytes out : Bytes) : Prop where
  rest : s.rest = bytes ++ s'.rest
  filled : s'.Filled
  out : s'.out = s.out ++ out
  offset : s'.offset = s.offset + bytes.length
  depth : s'.depth = s.depth
  nodes : s'.nodes = s.nodes

theorem Reads.refl {s : Parser} (h : s.Filled) : Reads s s [] [] :=
  ⟨rfl, h, (List.append_nil _).symm, rfl, rfl, rfl⟩

theorem Reads.trans {s s' s'' : Parser} {x y p q : Bytes} (h : Reads s s' x p)
    (h' : Reads s' s'' y q) : Reads s s'' (x ++ y) (p ++ q) where
  rest := by rw [h.rest, h'.rest, List.append_assoc]
  filled := h'.filled
  out := by rw [h'.out, h.out, List.append_assoc]
  offset := by rw [h'.offset, h.offset, List.length_append, Nat.add_assoc]
  depth := h'.depth.trans h.depth
  nodes := h'.nodes.trans h.nodes

/-- What is left behind the bytes that were read. -/
theorem Reads.rest_eq {s s' : Parser} {bytes out rest : Bytes} (h : Reads s s' bytes out)
    (hrest : s.rest = bytes ++ rest) : s'.rest = rest :=
  List.append_cancel_left (h.rest.symm.trans hrest)

/-- From one depth to another and from a rest as `P` wants it: where the action succeeds it has
read bytes that `G` describes. -/
def Sound {α : Type} (P : Bytes → Prop) (d d' : Nat) (f : Action α) (G : α → Bytes → Prop) : Prop :=
  ∀ s a s', s.Filled → s.depth = d → P s.rest → f s = .ok (a, s') →
    s'.Filled ∧ s'.depth = d' ∧ ∃ bytes, s.rest = bytes ++ s'.rest ∧ G a bytes

/-- Any rest. -/
def Any (_ : Bytes) : Prop := True

/-- On some bytes, in front of a rest as `next` wants it, the action succeeds. -/
def Complete {α : Type} (f : Action α) (bytes out : Bytes) (next : Bytes → Prop) (a : α) : Prop :=
  ∀ s, s.Filled → ∀ rest, s.rest = bytes ++ rest → next rest →
    ∃ s', f s = .ok (a, s') ∧ Reads s s' bytes out

section Rules

variable {α β : Type} {P : Bytes → Prop} {d d' d'' : Nat} {f : Action α} {g : α → Action β}

namespace Sound

theorem mono {G H : α → Bytes → Prop} (h : Sound P d d' f G)
    (hmono : ∀ a bytes, G a bytes → H a bytes) : Sound P d d' f H := by
  intro s a s' hs hd hP hf
  obtain ⟨hfilled, hdepth, bytes, hrest, hG⟩ := h s a s' hs hd hP hf
  exact ⟨hfilled, hdepth, bytes, hrest, hmono a bytes hG⟩

theorem weaken {G : α → Bytes → Prop} (h : Sound Any d d' f G) : Sound P d d' f G :=
  fun s a s' hs hd _ hf => h s a s' hs hd trivial hf

theorem bind {G : α → Bytes → Prop} {H : α → β → Bytes → Prop} (hf : Sound P d d' f G)
    (hg : ∀ a, Sound Any d' d'' (g a) (H a)) :
    Sound P d d'' (f >>= g) fun b bytes => ∃ a x y, bytes = x ++ y ∧ G a x ∧ H a b y := by
  intro s b s'' hs hd hP h
  obtain ⟨a, s', hx, hy⟩ := bind_inv h
  obtain ⟨hs', hd', x, hx, hG⟩ := hf s a s' hs hd hP hx
  obtain ⟨hs'', hd'', y, hy, hH⟩ := hg a s' b s'' hs' hd' trivial hy
  exact ⟨hs'', hd'', x ++ y, by rw [hx, hy, List.append_assoc], a, x, y, rfl, hG, hH⟩

/-- What the second action reads may be described by what the first has read. -/
theorem bind' {G : α → Bytes → Prop} {H : β → Bytes → Prop} (hf : Sound P d d' f G)
    (hg : ∀ a x, G a x → Sound Any d' d'' (g a) fun b y => H b (x ++ y)) :
    Sound P d d'' (f >>= g) H := by
  intro s b s'' hs hd hP h
  obtain ⟨a, s', hx, hy⟩ := bind_inv h
  obtain ⟨hs', hd', x, hx, hG⟩ := hf s a s' hs hd hP hx
  obtain ⟨hs'', hd'', y, hy, hH⟩ := hg a x hG s' b s'' hs' hd' trivial hy
  exact ⟨hs'', hd'', x ++ y, by rw [hx, hy, List.append_assoc], hH⟩

theorem pure (a : α) : Sound P d d (pure a : Action α) fun a' bytes => a' = a ∧ bytes = [] := by
  intro s a' s' hs hd _ h
  obtain ⟨rfl, rfl⟩ := pure_inv h
  exact ⟨hs, hd, [], rfl, rfl, rfl⟩

theorem fail {message : String} {G : α → Bytes → Prop} : Sound P d d' (fail message : Action α) G :=
  fun _ _ _ _ _ _ h => nomatch h

/-- What was read stood in front of the rest. -/
theorem front {G : α → Bytes → Prop} (h : Sound P d d' f G) :
    Sound P d d' f fun a bytes => G a bytes ∧ ∃ rest, P (bytes ++ rest) := by
  intro s a s' hs hd hP hf
  obtain ⟨hfilled, hdepth, bytes, hrest, hG⟩ := h s a s' hs hd hP hf
  exact ⟨hfilled, hdepth, bytes, hrest, hG, s'.rest, hrest ▸ hP⟩

/-- An action that depends on the state is sound if it is for every one. -/
theorem get {f : Parser → Action α} {G : α → Bytes → Prop} (h : ∀ s, Sound P d d' (f s) G) :
    Sound P d d' (fun s => f s s) G := fun s a s' hs hd hP hf => h s s a s' hs hd hP hf

end Sound

namespace Complete

theorem mono {bytes out : Bytes} {next next' : Bytes → Prop} {a : α}
    (h : Complete f bytes out next a) (hnext : ∀ rest, next' rest → next rest) :
    Complete f bytes out next' a :=
  fun s hs rest hrest hn => h s hs rest hrest (hnext rest hn)

theorem bind {x y p q : Bytes} {next next' : Bytes → Prop} {a : α} {b : β}
    (hf : Complete f x p next a) (hg : Complete (g a) y q next' b)
    (hnext : ∀ rest, next' rest → next (y ++ rest)) :
    Complete (f >>= g) (x ++ y) (p ++ q) next' b := by
  intro s hs rest hrest hn
  rw [List.append_assoc] at hrest
  obtain ⟨s', hrun, hreads⟩ := hf s hs _ hrest (hnext rest hn)
  obtain ⟨s'', hrun', hreads'⟩ := hg s' hreads.filled rest (hreads.rest_eq hrest) hn
  exact ⟨s'', (bind_run hrun).trans hrun', hreads.trans hreads'⟩

theorem pure (a : α) : Complete (pure a : Action α) [] [] Any a :=
  fun s hs _ _ _ => ⟨s, rfl, .refl hs⟩

/-- A step that reads everything and writes nothing, and one that writes everything. -/
theorem readThenWrite {x p : Bytes} {next : Bytes → Prop} {a : α} {b : β}
    (hf : Complete f x [] next a) (hg : Complete (g a) [] p Any b)
    (hnext : ∀ rest, next rest) : Complete (f >>= g) x p Any b := by
  have hboth := hf.bind hg fun rest _ => hnext ([] ++ rest)
  rwa [List.append_nil, List.nil_append] at hboth

end Complete

end Rules

/-! ## §3 Single bytes -/

theorem Parser.buffer_append (s : Parser) : s.rest = s.buffer ++ s.input.tail.flatten := by
  rw [rest, buffer]
  cases s.input <;> rfl

/-- The buffer is empty at the end of the input only. -/
theorem Parser.Filled.buffer_head {s : Parser} (h : s.Filled) : s.buffer.head? = s.rest.head? := by
  rw [s.buffer_append]
  cases hinput : s.input with
  | nil => simp [buffer, hinput]
  | cons p ps =>
    have hp := h p (hinput ▸ List.mem_cons_self)
    rw [buffer, hinput]
    exact (List.head?_append_of_ne_nil _ hp).symm

theorem peek_run {s : Parser} (h : s.Filled) : peek s = .ok (s.rest.head?, s) := by
  rw [peek, h.buffer_head]

/-- Bytes of the buffer are consumed. -/
theorem consume_spec {input : List Bytes} {count : Nat} (h : ∀ p ∈ input, p ≠ [])
    (hle : count ≤ (input.head?.getD []).length) :
    (consume count input).flatten = input.flatten.drop count ∧
      ∀ p ∈ consume count input, p ≠ [] := by
  cases input with
  | nil =>
    obtain rfl : count = 0 := Nat.le_zero.mp hle
    exact ⟨rfl, h⟩
  | cons p ps =>
    obtain ⟨hp, hps⟩ := List.forall_mem_cons.mp h
    have hle : count ≤ p.length := hle
    rw [consume]
    split_ifs with hlt
    · refine ⟨(List.drop_append_of_le_length hle).symm, List.forall_mem_cons.mpr ⟨?_, hps⟩⟩
      rw [Ne, List.drop_eq_nil_iff]
      omega
    · refine ⟨?_, hps⟩
      rw [List.flatten_cons, show count = p.length by omega, List.drop_left]

theorem take_run {s : Parser} (h : s.Filled) {b : UInt8} {t : Bytes} (hrest : s.rest = b :: t) :
    ∃ s', take s = .ok (b, s') ∧ Reads s s' [b] [] := by
  have hpeek := peek_run h
  rw [hrest, List.head?_cons] at hpeek
  have hle : 1 ≤ (s.input.head?.getD []).length := by
    cases hbuffer : s.buffer with
    | nil =>
      have hhead := h.buffer_head
      rw [hbuffer, hrest] at hhead
      exact nomatch hhead
    | cons b bytes =>
      show 1 ≤ s.buffer.length
      rw [hbuffer]
      exact Nat.succ_le_succ (Nat.zero_le _)
  obtain ⟨hflatten, hfilled⟩ := consume_spec h hle
  rw [take, bind_run hpeek]
  refine ⟨_, rfl, ?_, hfilled, (List.append_nil _).symm, rfl, rfl, rfl⟩
  show s.rest = [b] ++ (consume 1 s.input).flatten
  rw [hflatten, ← Parser.rest, hrest]
  rfl

theorem take_inv {s s' : Parser} (h : s.Filled) {b : UInt8} (htake : take s = .ok (b, s')) :
    Reads s s' [b] [] := by
  cases hrest : s.rest with
  | nil =>
    have hpeek := peek_run h
    rw [hrest] at hpeek
    rw [take, bind_run hpeek] at htake
    exact nomatch htake
  | cons b' t =>
    obtain ⟨s₁, hrun, hreads⟩ := take_run h hrest
    obtain ⟨rfl, rfl⟩ := Prod.mk.inj (Except.ok.inj (hrun.symm.trans htake))
    exact hreads

theorem Sound.of_reads {α : Type} {P : Bytes → Prop} {f : Action α} {G : α → Bytes → Prop}
    (h : ∀ s a s', s.Filled → P s.rest → f s = .ok (a, s') →
      ∃ bytes out, Reads s s' bytes out ∧ G a bytes) (d : Nat) : Sound P d d f G := by
  intro s a s' hs hd hP hf
  obtain ⟨bytes, out, hreads, hG⟩ := h s a s' hs hP hf
  exact ⟨hreads.filled, hreads.depth.trans hd, bytes, hreads.rest, hG⟩

/-- A rest that starts with a byte, or that is empty. -/
def Starts (head : Option UInt8) (rest : Bytes) : Prop := rest.head? = head

/-- What follows a peek may rely on the byte it has seen. -/
theorem Sound.peek {β : Type} {P : Bytes → Prop} {d d' : Nat} {k : Option UInt8 → Action β}
    {G : β → Bytes → Prop} (h : ∀ head, Sound (Starts head) d d' (k head) G) :
    Sound P d d' (peek >>= k) G := by
  intro s b s' hs hd _ hrun
  rw [bind_run (peek_run hs)] at hrun
  exact h _ s b s' hs hd rfl hrun

theorem take_sound (d : Nat) : Sound Any d d take fun b bytes => bytes = [b] := by
  refine .of_reads (fun s b s' hs _ h => ?_) d
  exact ⟨[b], [], take_inv hs h, rfl⟩

/-- The byte that was seen is the one that is taken. -/
theorem take_seen (d : Nat) (b : UInt8) :
    Sound (Starts (some b)) d d take fun _ bytes => bytes = [b] := by
  intro s b' s' hs hd hhead h
  obtain ⟨hs', hd', bytes, hrest, rfl⟩ := take_sound d s b' s' hs hd trivial h
  rw [Starts, hrest] at hhead
  obtain rfl := Option.some.inj hhead
  exact ⟨hs', hd', [b'], hrest, rfl⟩

theorem take_complete (b : UInt8) : Complete take [b] [] Any b :=
  fun _ hs _ hrest _ => take_run hs hrest

/-- After a peek the action goes on with the byte that is next. -/
theorem Complete.peek {β : Type} {k : Option UInt8 → Action β} {bytes out : Bytes}
    {next : Bytes → Prop} {b : β} {o : Option UInt8} (h : Complete (k o) bytes out next b)
    (hhead : ∀ rest, next rest → (bytes ++ rest).head? = o) :
    Complete (peek >>= k) bytes out next b := by
  intro s hs rest hrest hn
  have hpeek := peek_run hs
  rw [hrest, hhead rest hn] at hpeek
  obtain ⟨s', hrun, hreads⟩ := h s hs rest hrest hn
  exact ⟨s', (bind_run hpeek).trans hrun, hreads⟩

variable (layout : Layout)

theorem emit_reads {s : Parser} (h : s.Filled) (bytes : Bytes) :
    ∃ s', emit layout bytes s = .ok ((), s') ∧ Reads s s' [] (written layout bytes) :=
  ⟨_, rfl, rfl, h, rfl, rfl, rfl, rfl⟩

theorem emit_sound (d : Nat) (bytes : Bytes) :
    Sound Any d d (emit layout bytes) fun _ bytes => bytes = [] := by
  refine .of_reads (fun s a s' hs _ h => ?_) d
  obtain ⟨s₁, hrun, hreads⟩ := emit_reads layout hs bytes
  obtain ⟨-, rfl⟩ := Prod.mk.inj (Except.ok.inj (hrun.symm.trans h))
  exact ⟨[], _, hreads, rfl⟩

theorem emit_complete (bytes : Bytes) :
    Complete (emit layout bytes) [] (written layout bytes) Any () :=
  fun _ hs _ _ _ => emit_reads layout hs bytes

theorem copy_sound (d : Nat) : Sound Any d d (copy layout) fun b bytes => bytes = [b] := by
  refine ((take_sound d).bind fun b => (emit_sound layout d [b]).bind fun _ => .pure b).mono ?_
  rintro b bytes ⟨b', x, y, rfl, rfl, -, x', y', rfl, rfl, rfl, rfl⟩
  rfl

/-- The byte that was seen is the one that is copied. -/
theorem copy_seen (d : Nat) (b : UInt8) :
    Sound (Starts (some b)) d d (copy layout) fun _ bytes => bytes = [b] := by
  intro s b' s' hs hd hhead h
  obtain ⟨hs', hd', bytes, hrest, rfl⟩ := copy_sound layout d s b' s' hs hd trivial h
  rw [Starts, hrest] at hhead
  obtain rfl := Option.some.inj hhead
  exact ⟨hs', hd', [b'], hrest, rfl⟩

theorem copy_complete (b : UInt8) : Complete (copy layout) [b] (written layout [b]) Any b := by
  have hemit := (emit_complete layout [b]).bind (g := fun _ => pure b) (.pure b) fun _ _ => trivial
  have hcopy := (take_complete b).bind (g := fun b => emit layout [b] >>= fun _ => pure b) hemit
    fun _ _ => trivial
  simp only [List.append_nil, List.nil_append] at hcopy
  exact hcopy

/-- An expected byte, alone. -/
theorem expect_sound {P : Bytes → Prop} (d : Nat) (b : UInt8) :
    Sound P d d (expect layout b) fun _ bytes => bytes = [b] := by
  refine .peek fun head => ?_
  split_ifs with hne
  · exact .fail
  · obtain rfl := not_not.mp hne
    refine ((copy_seen layout d b).bind fun _ => .pure ()).mono ?_
    rintro - bytes ⟨-, x, y, rfl, rfl, -, rfl⟩
    rfl

theorem expect_complete (b : UInt8) :
    Complete (expect layout b) [b] (written layout [b]) Any () := by
  refine .peek (o := some b) ?_ fun _ _ => rfl
  rw [if_neg (not_not.mpr rfl)]
  have hcopy := (copy_complete layout b).bind (g := fun _ => pure ()) (.pure ()) fun _ _ => trivial
  simp only [List.append_nil] at hcopy
  exact hcopy

/-! ## §4 Loops -/

section While

variable {test : UInt8 → Bool} {body : Action UInt8}

/-- A loop reads bytes that pass. -/
theorem whileNext_sound {P : Bytes → Prop} {d : Nat}
    (hbody : ∀ b, Sound (Starts (some b)) d d body fun _ bytes => bytes = [b]) (left : Nat) :
    Sound P d d (whileNext test body left) fun _ bytes => ∀ b ∈ bytes, test b = true := by
  induction left generalizing P with
  | zero =>
    refine (Sound.pure ()).mono ?_
    rintro - bytes ⟨-, rfl⟩ b hb
    cases hb
  | succ left ih =>
    refine .peek fun head => ?_
    cases head with
    | none =>
      refine (Sound.pure ()).mono ?_
      rintro - bytes ⟨-, rfl⟩ b hb
      cases hb
    | some b =>
      dsimp only
      split_ifs with htest
      · refine ((hbody b).bind fun _ => ih).mono ?_
        rintro - bytes ⟨-, x, y, rfl, rfl, hy⟩
        exact List.forall_mem_cons.mpr ⟨htest, hy⟩
      · refine (Sound.pure ()).mono ?_
        rintro - bytes ⟨-, rfl⟩ b hb
        cases hb

/-- The next byte does not pass. -/
def Stops (test : UInt8 → Bool) (rest : Bytes) : Prop := ∀ b ∈ rest.head?, test b = false

/-- A loop reads all bytes that pass. -/
theorem whileNext_complete {w : UInt8 → Bytes} (hbody : ∀ b, Complete body [b] (w b) Any b)
    {bytes : Bytes} (hbytes : ∀ b ∈ bytes, test b = true) {left : Nat}
    (hleft : bytes.length ≤ left) :
    Complete (whileNext test body left) bytes (bytes.flatMap w) (Stops test) () := by
  induction left generalizing bytes with
  | zero =>
    obtain rfl := List.length_eq_zero_iff.mp (Nat.le_zero.mp hleft)
    exact (Complete.pure ()).mono fun _ _ => trivial
  | succ left ih =>
    cases bytes with
    | nil =>
      intro s hs rest hrest hstops
      refine ⟨s, ?_, .refl hs⟩
      rw [whileNext, bind_run (peek_run hs), hrest, List.nil_append]
      cases hhead : rest.head? with
      | none => rfl
      | some b => exact congrFun (if_neg (ne_true_of_eq_false (hstops b hhead))) s
    | cons b bytes =>
      obtain ⟨hb, hbytes⟩ := List.forall_mem_cons.mp hbytes
      refine .peek (o := some b) ?_ fun _ _ => rfl
      dsimp only
      rw [if_pos hb]
      exact (hbody b).bind (ih hbytes (Nat.le_of_succ_le_succ hleft)) fun _ _ => trivial

end While

theorem ws_sound {P : Bytes → Prop} (d : Nat) :
    Sound P d d ws fun _ bytes => ∃ space : Space, space.bytes = bytes :=
  (Sound.get (f := fun s => whileNext isSpace take s.rest.length)
    fun s => whileNext_sound (take_seen d) s.rest.length).mono fun _ bytes h => ⟨⟨bytes, h⟩, rfl⟩

/-- Whitespace is read up to its end. -/
theorem ws_complete (space : Space) : Complete ws space.bytes [] (Stops isSpace) () := by
  intro s hs rest hrest hstops
  have hleft : space.bytes.length ≤ s.rest.length := by
    rw [hrest, List.length_append]
    exact Nat.le_add_right ..
  have hout : space.bytes.flatMap (fun _ => ([] : Bytes)) = [] := List.flatMap_eq_nil_iff.mpr
    fun _ _ => rfl
  have hloop := whileNext_complete (w := fun _ => []) take_complete space.spaces hleft
  rw [hout] at hloop
  exact hloop s hs rest hrest hstops

/-- What is written of bytes that are copied one by one. -/
@[simp] theorem flatMap_written (bytes : Bytes) :
    bytes.flatMap (fun b => written layout [b]) = written layout bytes := by
  unfold written
  split_ifs
  · exact List.flatMap_eq_nil_iff.mpr fun _ _ => rfl
  · exact List.flatMap_singleton' bytes

theorem written_append (a b : Bytes) :
    written layout (a ++ b) = written layout a ++ written layout b := by
  unfold written
  split_ifs <;> rfl

@[simp] theorem written_nil : written layout [] = [] := by
  unfold written
  split_ifs <;> rfl

end BareLine.JsonTools.Process
