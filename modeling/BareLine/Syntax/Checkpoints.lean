import BareLine.Document.Stage
import BareLine.Syntax.Windows

/-!
# Checkpoints across revisions

A checkpoint is right when the pass over its revision's text stands at its offset in its state.
A window leaves right checkpoints behind, and an edit that starts behind one keeps it right.
-/

namespace BareLine.Syntax

open Lib Codec

/-! ## §1 Revisions -/

/-- The revisions of a document, newest first, whose receipts say what the edits did. -/
inductive EditRun : List DocumentSnapshot → Prop where
  | opened {first : DocumentSnapshot} (wf : Tree.RootWf .resident first.root)
      (older : ∀ change ∈ first.appliedChange, change.beforeRevision < first.revision) :
      EditRun [first]
  | edited {current next : DocumentSnapshot} {earlier : List DocumentSnapshot}
      (run : EditRun (current :: earlier)) (wf : Tree.RootWf .resident next.root)
      (same : next.documentId = current.documentId) (later : current.revision < next.revision)
      (truthful : ∀ change ∈ next.appliedChange,
        change.beforeRevision = current.revision ∧ change.Gives current.text next.text) :
      EditRun (next :: current :: earlier)

namespace EditRun

variable {history : List DocumentSnapshot}

theorem wf (h : EditRun history) : ∀ s ∈ history, Tree.RootWf .resident s.root := by
  induction h with
  | opened hwf older =>
    intro s hs
    obtain rfl := List.mem_singleton.mp hs
    exact hwf
  | edited run hwf same later truthful ih =>
    intro s hs
    rcases List.mem_cons.mp hs with rfl | hs
    · exact hwf
    · exact ih s hs

theorem len_eq (h : EditRun history) {s : DocumentSnapshot} (hs : s ∈ history) :
    s.len = s.text.length := (h.wf s hs).bytes

/-- The newest revision has the greatest number. -/
theorem le_newest (h : EditRun history) :
    ∀ newest ∈ history.head?, ∀ s ∈ history, s = newest ∨ s.revision < newest.revision := by
  induction h with
  | opened wf older =>
    intro newest hnewest s hs
    obtain rfl := Option.some.inj hnewest
    exact .inl (List.mem_singleton.mp hs)
  | @edited current next earlier run wf same later truthful ih =>
    intro newest hnewest s hs
    obtain rfl := Option.some.inj hnewest
    rcases List.mem_cons.mp hs with rfl | hs
    · exact .inl rfl
    · rcases ih current rfl s hs with rfl | hlt
      · exact .inr later
      · exact .inr (hlt.trans later)

/-- A revision number stands for one snapshot. -/
theorem unique (h : EditRun history) :
    ∀ s ∈ history, ∀ s' ∈ history, s.revision = s'.revision → s = s' := by
  induction h with
  | opened wf older =>
    intro s hs s' hs' _
    exact (List.mem_singleton.mp hs).trans (List.mem_singleton.mp hs').symm
  | @edited current next earlier run wf same later truthful ih =>
    have hnewest := (edited run wf same later truthful).le_newest next rfl
    intro s hs s' hs' heq
    rcases hnewest s hs with rfl | hlt
    · rcases hnewest s' hs' with rfl | hlt'
      · rfl
      · omega
    rcases hnewest s' hs' with rfl | hlt'
    · omega
    rcases List.mem_cons.mp hs with rfl | hs
    · omega
    rcases List.mem_cons.mp hs' with rfl | hs'
    · omega
    exact ih s hs s' hs' heq

/-- A receipt names an older revision, and says how its text became the next one. -/
theorem receipt (h : EditRun history) : ∀ next ∈ history, ∀ change ∈ next.appliedChange,
    change.beforeRevision < next.revision ∧ ∀ previous ∈ history,
      previous.revision = change.beforeRevision → change.Gives previous.text next.text := by
  induction h with
  | opened wf older =>
    intro next hnext change hchange
    obtain rfl := List.mem_singleton.mp hnext
    refine ⟨older change hchange, fun previous hprevious hrevision => ?_⟩
    obtain rfl := List.mem_singleton.mp hprevious
    exact absurd (older change hchange) (by omega)
  | @edited current newest earlier run wf same later truthful ih =>
    have hrun := edited run wf same later truthful
    intro next hnext change hchange
    rcases List.mem_cons.mp hnext with rfl | hearlier
    · obtain ⟨hbefore, hgives⟩ := truthful change hchange
      refine ⟨hbefore ▸ later, fun previous hprevious hrevision => ?_⟩
      obtain rfl := hrun.unique previous hprevious current
        (List.mem_cons_of_mem _ List.mem_cons_self) (hrevision.trans hbefore)
      exact hgives
    · obtain ⟨hbefore, hgives⟩ := ih next hearlier change hchange
      refine ⟨hbefore, fun previous hprevious hrevision => ?_⟩
      rcases List.mem_cons.mp hprevious with rfl | hprevious
      · -- the newest revision is older than no other
        rcases hrun.le_newest previous rfl next hnext with rfl | hlt
        · omega
        · omega
      · exact hgives previous hprevious hrevision

end EditRun

/-- In front of its first edit a transaction leaves the text as it was. -/
theorem front_of_gives {change : AppliedChange} {t u : Bytes} (h : change.Gives t u) {offset : Nat}
    (hlt : offset < (change.edits.head?.map fun edit => edit.before.start).getD usizeMax) :
    t = u ∨ (offset < t.length ∧ offset < u.length ∧ t.take offset = u.take offset) := by
  obtain ⟨texts, hlen, hordered, hsplice⟩ := h
  cases hedits : change.edits with
  | nil =>
    rw [hedits] at hsplice
    exact .inl hsplice
  | cons edit edits =>
    rw [hedits] at hlen hordered hsplice hlt
    change offset < edit.before.start at hlt
    cases texts with
    | nil => cases hlen
    | cons inserted texts =>
      rw [List.zipWith_cons_cons] at hordered hsplice
      have hplace := hordered.mem List.mem_cons_self
      dsimp only at hplace
      rw [splice, spliceFrom, Nat.sub_zero] at hsplice
      dsimp only at hsplice
      have hfront : (t.take edit.before.start).length = edit.before.start :=
        List.length_take_of_le (by omega)
      refine .inr ⟨by omega, ?_, ?_⟩
      · rw [← hsplice, List.length_append, List.length_append, hfront]
        omega
      · rw [← hsplice, List.append_assoc, List.take_append_of_le_length (by omega),
          List.take_take, Nat.min_eq_left (by omega)]

/-- A checkpoint is carried to the same revision or over edits behind it. -/
theorem Checkpoint.rebase_some {history : List DocumentSnapshot} (hrun : EditRun history)
    {cp cp' : Checkpoint} {next : DocumentSnapshot} (hsource : cp.source ∈ history)
    (hnext : next ∈ history) (h : cp.rebase next = some cp') :
    cp' = { cp with source := next } ∧ (cp.source.text = next.text ∨
      (cp.offset < cp.source.text.length ∧ cp.offset < next.text.length ∧
        cp.source.text.take cp.offset = next.text.take cp.offset)) := by
  rw [rebase] at h
  cases hfirst : firstChange cp.source next with
  | none =>
    rw [hfirst] at h
    cases h
  | some first =>
    rw [hfirst] at h
    dsimp only at h
    split_ifs at h with hlt
    refine ⟨(Option.some.inj h).symm, ?_⟩
    rw [firstChange] at hfirst
    split_ifs at hfirst with hother hrevision
    · rw [hrun.unique _ hsource _ hnext hrevision]
      exact .inl rfl
    · obtain ⟨change, hchange, rfl⟩ := Option.map_eq_some_iff.mp hfirst
      obtain ⟨hreceipt, hmatches⟩ := Option.filter_eq_some_iff.mp hchange
      rw [matchesBefore, Bool.and_eq_true, Bool.and_eq_true, beq_iff_eq, beq_iff_eq] at hmatches
      exact front_of_gives ((hrun.receipt next hnext change hreceipt).2 _ hsource hmatches.1.2) hlt

/-! ## §2 Where a pass stands -/

/-- The pass over the text stands at the offset in that state; nothing is read where the lexer
does not work. -/
def Stands (lexer : Lexer) (text : Bytes) (offset : Nat) (state : State) : Prop :=
  if lexer.active then lexer.Reaches .normal text offset state else state = .normal

section Standing

variable {lexer : Lexer} {text : Bytes} {offset : Nat} {state : State}

theorem Stands.reaches (h : Stands lexer text offset state) (hactive : lexer.active = true) :
    lexer.Reaches .normal text offset state := by
  rwa [Stands, if_pos hactive] at h

theorem Stands.of_reaches
    (h : lexer.active = true → lexer.Reaches .normal text offset state)
    (hidle : lexer.active = false → state = .normal) : Stands lexer text offset state := by
  rw [Stands]
  split_ifs with hactive
  · exact h hactive
  · exact hidle (Bool.eq_false_of_not_eq_true hactive)

theorem Stands.idle (h : Stands lexer text offset state) (hidle : lexer.active = false) :
    state = .normal := by
  rwa [Stands, hidle, if_neg Bool.false_ne_true] at h

theorem stands_zero (lexer : Lexer) (text : Bytes) : Stands lexer text 0 .normal :=
  .of_reaches (fun _ => .here .normal text) fun _ => rfl

theorem Stands.unique (hvalid : lexer.Valid) {state' : State}
    (h : Stands lexer text offset state) (h' : Stands lexer text offset state') :
    state = state' := by
  cases hactive : lexer.active with
  | true => exact (h.reaches hactive).unique hvalid (h'.reaches hactive)
  | false => exact (h.idle hactive).trans (h'.idle hactive).symm

theorem windowTokens_idle (hidle : lexer.active = false) (state : State) (text : Bytes) :
    windowTokens lexer state text = [] := by
  rw [windowTokens, hidle, if_neg Bool.false_ne_true]

/-- What a window reads is a pass over it. -/
theorem windowTokens_pass (hvalid : lexer.Valid) (hactive : lexer.active = true) (state : State)
    (text : Bytes) : lexer.Pass state text (windowTokens lexer state text)
      (stateAfter state (windowTokens lexer state text)) := by
  rw [windowTokens, if_pos hactive]
  obtain ⟨last, hpass⟩ := @Lexer.tokens_pass lexer hvalid _ state _ (Nat.le_refl text.length)
  rw [← hpass.stateAfter_eq]
  exact hpass

@[simp] theorem windowTokens_nil (state : State) : windowTokens lexer state [] = [] := by
  rw [windowTokens]
  split_ifs <;> rfl

/-- Two windows side by side read what one window reads, where the first ends a line. -/
theorem windowTokens_append (hvalid : lexer.Valid) {w v : Bytes}
    (hjoint : w = [] ∨ v = [] ∨ EndsLine w)
    (hwhole : lexer.active = true → lexer.Unbroken state (w ++ v)) :
    windowTokens lexer state (w ++ v) = windowTokens lexer state w ++
      windowTokens lexer (stateAfter state (windowTokens lexer state w)) v := by
  cases hactive : lexer.active with
  | false => simp only [windowTokens_idle hactive, List.append_nil]
  | true =>
    rcases hjoint with rfl | rfl | hend
    · rw [windowTokens_nil]
      rfl
    · rw [windowTokens_nil, List.append_nil, List.append_nil]
    · obtain ⟨middle, ts, hcut⟩ := Lexer.Unbroken.cut hvalid (w := []) hend (hwhole hactive)
      obtain ⟨rfl, hmiddle⟩ := hcut.front.unique (windowTokens_pass hvalid hactive state w)
      have hjoined := hcut.joined _ _ (windowTokens_pass hvalid hactive middle v)
      rw [hmiddle] at hjoined
      exact ((windowTokens_pass hvalid hactive state (w ++ v)).unique hjoined).1

/-- Their styled tokens are those of one window. -/
theorem styled_windows (hvalid : lexer.Valid) {w v : Bytes}
    (hjoint : w = [] ∨ v = [] ∨ EndsLine w)
    (hwhole : lexer.active = true → lexer.Unbroken state (w ++ v)) (start : Nat) :
    styled start (windowTokens lexer state (w ++ v)) =
      styled start (windowTokens lexer state w) ++ styled (start + w.length)
        (windowTokens lexer (stateAfter state (windowTokens lexer state w)) v) := by
  cases hactive : lexer.active with
  | false =>
    simp only [windowTokens_idle hactive]
    rfl
  | true =>
    rw [windowTokens_append hvalid hjoint hwhole, styled_append,
      (windowTokens_pass hvalid hactive state w).extent_eq hvalid]

/-- Behind a window that ends a line or the text, the pass stands in the window's last state. -/
theorem Stands.window (hvalid : lexer.Valid) (hwhole : lexer.Unbroken .normal text) {w v : Bytes}
    (h : Stands lexer text offset state) (htext : text.drop offset = w ++ v)
    (hjoint : w = [] ∨ v = [] ∨ EndsLine w) :
    Stands lexer text (offset + w.length) (stateAfter state (windowTokens lexer state w)) := by
  refine .of_reaches (fun hactive => ?_) fun hidle => ?_
  · have hreach := h.reaches hactive
    refine hreach.trans ?_
    have hpass := windowTokens_pass hvalid hactive state w
    rcases hjoint with rfl | rfl | hend
    · rw [windowTokens_nil]
      exact .here state _
    · rw [List.append_nil] at htext
      rw [htext]
      exact hpass.reaches hvalid
    · have hrest := hwhole.behind hreach
      rw [htext] at hrest ⊢
      obtain ⟨middle, ts, hcut⟩ := Lexer.Unbroken.cut hvalid (w := []) hend hrest
      obtain ⟨-, hmiddle⟩ := hcut.front.unique hpass
      rw [← hmiddle]
      exact hcut.far
  · rw [windowTokens_idle hidle]
    exact h.idle hidle

/-- Behind a line end inside a window the pass stands where the window's pass does. -/
theorem Stands.inside (hvalid : lexer.Valid) (hwhole : lexer.Unbroken .normal text) {w v : Bytes}
    {k : Nat} {found : State} (h : Stands lexer text offset state)
    (htext : text.drop offset = w ++ v) (hactive : lexer.active = true)
    (hreach : lexer.Reaches state w k found) (hend : EndsLine (w.take k)) :
    Stands lexer text (offset + k) found := by
  refine .of_reaches (fun _ => (h.reaches hactive).trans ?_) fun hidle => ?_
  · have hrest := hwhole.behind (h.reaches hactive)
    have hk : (w.take k).length = k := List.length_take_of_le (hreach.le hvalid)
    have hsplit : w ++ v = w.take k ++ (w.drop k ++ v) := by
      rw [← List.append_assoc, List.take_append_drop]
    rw [htext, hsplit] at hrest ⊢
    obtain ⟨middle, ts, hcut⟩ := Lexer.Unbroken.cut hvalid hend hrest
    have hnear := hcut.near
    have hfar := hcut.far
    rw [List.take_append_drop, hk] at hnear
    rw [hk] at hfar
    obtain rfl := hreach.unique hvalid hnear
    exact hfar
  · rw [hactive] at hidle
    cases hidle

end Standing

/-! ## §3 Right checkpoints -/

/-- The lexer of a checkpoint. -/
def Checkpoint.lexer (vocabulary : Vocabulary) (arcs : Nat → Definition) (self : Checkpoint) :
    Lexer := lexerFor vocabulary arcs self.language self.definition

/-- The pass over the text stands at the place, which is behind a line end or at the end. -/
structure Faithful (lexer : Lexer) (text : Bytes) (offset : Nat) (state : State) : Prop where
  stands : Stands lexer text offset state
  inside : offset ≤ text.length
  place : offset = text.length ∨ EndsLine (text.take offset)

/-- An edit that starts behind a place leaves it as it was. -/
theorem Faithful.carry {lexer : Lexer} (hvalid : lexer.Valid) {t u : Bytes} {offset : Nat}
    {state : State} (h : Faithful lexer t offset state) (ht : lexer.Unbroken .normal t)
    (hu : lexer.Unbroken .normal u)
    (hfront : t = u ∨ (offset < t.length ∧ offset < u.length ∧ t.take offset = u.take offset)) :
    Faithful lexer u offset state := by
  rcases hfront with rfl | ⟨hlt, hlt', hsame⟩
  · exact h
  have hend : EndsLine (t.take offset) := h.place.resolve_left (by omega)
  have hlen : (t.take offset).length = offset := List.length_take_of_le (by omega)
  refine ⟨.of_reaches (fun hactive => ?_) h.stands.idle, Nat.le_of_lt hlt', .inr (hsame ▸ hend)⟩
  rw [← List.take_append_drop offset t] at ht
  rw [← List.take_append_drop offset u, ← hsame] at hu
  obtain ⟨middle, ts, hcut⟩ := Lexer.Unbroken.cut hvalid (w := []) hend ht
  obtain ⟨middle', ts', hcut'⟩ := Lexer.Unbroken.cut hvalid (w := []) hend hu
  -- both passes read the common front alone
  obtain ⟨-, rfl⟩ := hcut.front.unique hcut'.front
  have hfar := hcut.far
  have hfar' := hcut'.far
  rw [List.nil_append, List.take_append_drop, hlen] at hfar
  rw [List.nil_append, hlen] at hfar'
  obtain rfl := (h.stands.reaches hactive).unique hvalid hfar
  rw [hsame, List.take_append_drop] at hfar'
  exact hfar'

/-- The checkpoints a history of edits and requests hands out. -/
inductive Known (vocabulary : Vocabulary) (arcs : Nat → Definition)
    (history : List DocumentSnapshot) : Checkpoint → Prop where
  | found {source : DocumentSnapshot} {language : Language} {range : Range}
      {offered : Option Checkpoint} {options : LexOptions} {result : SyntaxResult}
      {cp : Checkpoint} (member : source ∈ history)
      (known : ∀ cp ∈ offered, Known vocabulary arcs history cp)
      (lexed : lexConfigured vocabulary arcs source language range offered options = .ok result)
      (handed : cp ∈ result.checkpoint ∨ cp ∈ result.checkpoints) :
      Known vocabulary arcs history cp
  | carried {cp cp' : Checkpoint} {next : DocumentSnapshot}
      (known : Known vocabulary arcs history cp) (member : next ∈ history)
      (moved : cp.rebase next = some cp') : Known vocabulary arcs history cp'

end BareLine.Syntax
