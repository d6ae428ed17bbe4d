import BareLine.Syntax.Locality

/-!
# Passes over a text

A pass reads token after token from a state.  Where a front of the text ends a line, a pass over
the whole text is a pass over the front and one over the rest, and the state between them depends
on the front alone.
-/

namespace BareLine.Syntax

open Lib Codec

/-! ## §1 Passes -/

namespace Lexer

variable (self : Lexer)

/-- The tokens of a text, `turns` of them at most. -/
def tokens : Nat → State → Bytes → List Token
  | 0, _, _ => []
  | turns + 1, state, rest =>
    if rest = [] then []
    else
      let token := self.token state rest
      token :: tokens turns token.next (rest.drop token.length)

/-- A pass over all of a text, with its tokens and the state it ends in. -/
inductive Pass : State → Bytes → List Token → State → Prop where
  | done (state : State) : Pass state [] [] state
  | step {state state' : State} {rest : Bytes} {ts : List Token} (more : rest ≠ [])
      (after : Pass (self.token state rest).next
        (rest.drop (self.token state rest).length) ts state') :
      Pass state rest (self.token state rest :: ts) state'

/-- A pass over the text stands at the offset, in that state. -/
inductive Reaches : State → Bytes → Nat → State → Prop where
  | here (state : State) (text : Bytes) : Reaches state text 0 state
  | later {state state' : State} {text : Bytes} {offset : Nat} (more : text ≠ [])
      (after : Reaches (self.token state text).next
        (text.drop (self.token state text).length) offset state') :
      Reaches state text ((self.token state text).length + offset) state'

/-- No literal of the pass breaks a line. -/
inductive Unbroken : State → Bytes → Prop where
  | done (state : State) : Unbroken state []
  | step {state : State} {rest : Bytes} (more : rest ≠ []) (whole : ¬self.Broken state rest)
      (after : Unbroken (self.token state rest).next
        (rest.drop (self.token state rest).length)) : Unbroken state rest

end Lexer

/-- The state after some tokens. -/
def stateAfter (state : State) (ts : List Token) : State := (ts.getLast?.map Token.next).getD state

/-- The bytes some tokens take. -/
def extent (ts : List Token) : Nat := (ts.map Token.length).sum

namespace Lexer

variable {self : Lexer}

/-- Enough turns make a pass. -/
theorem tokens_pass (hvalid : self.Valid) {turns : Nat} {state : State} {rest : Bytes}
    (hturns : rest.length ≤ turns) :
    ∃ state', self.Pass state rest (self.tokens turns state rest) state' := by
  induction turns generalizing state rest with
  | zero =>
    obtain rfl := List.length_eq_zero_iff.mp (Nat.le_zero.mp hturns)
    exact ⟨state, .done state⟩
  | succ turns ih =>
    rw [tokens]
    split_ifs with hnil
    · subst hnil
      exact ⟨state, .done state⟩
    · have hbounds := token_bounds hvalid state hnil
      have hrest : (rest.drop (self.token state rest).length).length ≤ turns := by
        rw [List.length_drop]
        omega
      obtain ⟨state', hpass⟩ := ih hrest
      exact ⟨state', .step hnil hpass⟩

/-- A pass is determined by its text and the state it starts in. -/
theorem Pass.unique {state a b : State} {text : Bytes} {ts us : List Token}
    (h : self.Pass state text ts a) (h' : self.Pass state text us b) : ts = us ∧ a = b := by
  induction h generalizing us with
  | done state =>
    cases h' with
    | done _ => exact ⟨rfl, rfl⟩
    | step more after => exact absurd rfl more
  | step more after ih =>
    cases h' with
    | done _ => exact absurd rfl more
    | step more' after' =>
      obtain ⟨rfl, rfl⟩ := ih after'
      exact ⟨rfl, rfl⟩

theorem Pass.stateAfter_eq {state state' : State} {text : Bytes} {ts : List Token}
    (h : self.Pass state text ts state') : state' = stateAfter state ts := by
  induction h with
  | done state => rfl
  | @step state state' rest ts more after ih =>
    rw [ih, stateAfter, stateAfter]
    cases ts with
    | nil => rfl
    | cons t ts => rw [List.getLast?_cons_cons, List.getLast?_cons]; rfl

theorem Pass.extent_eq (hvalid : self.Valid) {state state' : State} {text : Bytes}
    {ts : List Token} (h : self.Pass state text ts state') : extent ts = text.length := by
  induction h with
  | done state => rfl
  | @step state state' rest ts more after ih =>
    have hbounds := token_bounds hvalid state more
    rw [List.length_drop] at ih
    rw [extent] at ih ⊢
    rw [List.map_cons, List.sum_cons, ih]
    omega

/-- Every token takes a byte. -/
theorem Pass.count_le (hvalid : self.Valid) {state state' : State} {text : Bytes}
    {ts : List Token} (h : self.Pass state text ts state') : ts.length ≤ text.length := by
  induction h with
  | done state => exact Nat.le_refl 0
  | @step state state' rest ts more after ih =>
    have hbounds := token_bounds hvalid state more
    rw [List.length_drop] at ih
    rw [List.length_cons]
    omega

theorem Pass.reaches (hvalid : self.Valid) {state state' : State} {text : Bytes} {ts : List Token}
    (h : self.Pass state text ts state') : self.Reaches state text text.length state' := by
  induction h with
  | done state => exact .here state []
  | @step state state' rest ts more after ih =>
    have hbounds := token_bounds hvalid state more
    have hlen : rest.length = (self.token state rest).length +
        (rest.drop (self.token state rest).length).length := by
      rw [List.length_drop]
      omega
    rw [hlen]
    exact .later more ih

/-- A pass stands at an offset in one state only. -/
theorem Reaches.unique (hvalid : self.Valid) {state a b : State} {text : Bytes} {offset : Nat}
    (h : self.Reaches state text offset a) (h' : self.Reaches state text offset b) : a = b := by
  induction h generalizing b with
  | here state text =>
    generalize hzero : 0 = offset at h'
    cases h' with
    | here _ _ => rfl
    | later more after =>
      have := token_bounds hvalid state more
      omega
  | @later state a text offset more after ih =>
    have hbounds := token_bounds hvalid state more
    generalize hsum : (self.token state text).length + offset = total at h'
    cases h' with
    | here _ _ => omega
    | later more' after' =>
      obtain rfl := Nat.add_left_cancel hsum
      exact ih after'

theorem Reaches.trans {state a b : State} {text : Bytes} {o p : Nat}
    (h : self.Reaches state text o a) (h' : self.Reaches a (text.drop o) p b) :
    self.Reaches state text (o + p) b := by
  induction h with
  | here state text =>
    rw [Nat.zero_add]
    exact h'
  | later more after ih =>
    rw [Nat.add_assoc]
    refine .later more (ih ?_)
    rw [List.drop_drop]
    exact h'

theorem Reaches.le (hvalid : self.Valid) {state a : State} {text : Bytes} {o : Nat}
    (h : self.Reaches state text o a) : o ≤ text.length := by
  induction h with
  | here state text => exact Nat.zero_le _
  | @later state a text o more after ih =>
    have := token_bounds hvalid state more
    rw [List.length_drop] at ih
    omega

/-- What lies behind a place of an unbroken pass is unbroken. -/
theorem Unbroken.behind {state a : State} {text : Bytes} {o : Nat} (h : self.Unbroken state text)
    (hreach : self.Reaches state text o a) : self.Unbroken a (text.drop o) := by
  induction hreach with
  | here state text => exact h
  | later more after ih =>
    cases h with
    | done _ => exact absurd rfl more
    | step more' whole rest =>
      rw [← List.drop_drop]
      exact ih rest

/-! ## §2 Cutting a pass -/

/-- A pass over a text whose front ends a line. -/
structure Cut (lexer : Lexer) (state middle : State) (u w v : Bytes) (ts : List Token) : Prop where
  front : lexer.Pass state u ts middle
  near : lexer.Reaches state (u ++ w) u.length middle
  far : lexer.Reaches state (u ++ (w ++ v)) u.length middle
  rest : lexer.Unbroken middle (w ++ v)
  joined : ∀ us last, lexer.Pass middle (w ++ v) us last →
    lexer.Pass state (u ++ (w ++ v)) (ts ++ us) last

/-- The pass is cut behind the line end, in the whole text and in a window that ends anywhere
behind it. -/
theorem Unbroken.cut (hvalid : self.Valid) {state : State} {u w v : Bytes} (hu : EndsLine u)
    (h : self.Unbroken state (u ++ (w ++ v))) : ∃ middle ts, self.Cut state middle u w v ts := by
  generalize hn : u.length = n
  induction n using Nat.strongRecOn generalizing state u with
  | ind n ih =>
    cases hu' : u with
    | nil => exact absurd hu' hu.ne_nil
    | cons b u' =>
      rw [← hu']
      have hne : u ++ (w ++ v) ≠ [] := List.append_ne_nil_of_left_ne_nil hu.ne_nil _
      generalize htext : u ++ (w ++ v) = text at h
      cases h with
      | done _ => exact absurd htext hne
      | step more whole after =>
        subst htext
        -- the window reads the same token as the whole text
        have hnear : ¬self.Broken state (u ++ w) := fun hbroken => by
          refine whole ?_
          rw [← List.append_assoc]
          exact broken_append hvalid hu v hbroken
        have htoken := token_append hvalid hu whole
        have htoken' := token_append hvalid hu hnear
        have hbounds := token_bounds hvalid state hu.ne_nil
        have hne' : u ++ w ≠ [] := List.append_ne_nil_of_left_ne_nil hu.ne_nil _
        rw [htoken] at after
        rw [List.drop_append_of_le_length hbounds.2] at after
        by_cases hall : (self.token state u).length = u.length
        · rw [hall, List.drop_length, List.nil_append] at after
          have hfront : self.Pass state u [self.token state u] (self.token state u).next := by
            refine .step hu.ne_nil ?_
            rw [hall, List.drop_length]
            exact .done _
          have hplace : ∀ x, self.token state (u ++ x) = self.token state u → u ++ x ≠ [] →
              self.Reaches state (u ++ x) u.length (self.token state u).next := fun x hx hnx => by
            have := Reaches.later hnx (.here (self.token state (u ++ x)).next _)
            rw [hx, hall] at this
            exact this
          refine ⟨_, _, hfront, hplace _ htoken' hne', hplace _ htoken hne, after,
            fun us last hrest => ?_⟩
          have hjoined : self.Pass state (u ++ (w ++ v))
              (self.token state (u ++ (w ++ v)) :: us) last := .step hne (by
            rw [htoken, hall, List.drop_left]
            exact hrest)
          rw [htoken] at hjoined
          exact hjoined
        · have hlt : (self.token state u).length < u.length := by omega
          have hshort : (u.drop (self.token state u).length).length < n := by
            rw [List.length_drop]
            omega
          obtain ⟨middle, ts, hcut⟩ := ih _ hshort (hu.drop hlt) after rfl
          have hplace : ∀ x, self.token state (u ++ x) = self.token state u → u ++ x ≠ [] →
              self.Reaches (self.token state u).next (u.drop (self.token state u).length ++ x)
                (u.drop (self.token state u).length).length middle →
              self.Reaches state (u ++ x) u.length middle := fun x hx hnx hrest => by
            have hlen : u.length = (self.token state (u ++ x)).length +
                (u.drop (self.token state u).length).length := by
              rw [hx, List.length_drop]
              omega
            rw [hlen]
            refine .later hnx ?_
            rw [hx, List.drop_append_of_le_length hbounds.2]
            exact hrest
          refine ⟨middle, self.token state u :: ts, .step hu.ne_nil hcut.front,
            hplace _ htoken' hne' hcut.near, hplace _ htoken hne hcut.far, hcut.rest,
            fun us last hrest => ?_⟩
          have hjoined : self.Pass state (u ++ (w ++ v))
              (self.token state (u ++ (w ++ v)) :: (ts ++ us)) last := .step hne (by
            rw [htoken, List.drop_append_of_le_length hbounds.2]
            exact hcut.joined us last hrest)
          rw [htoken] at hjoined
          exact hjoined

end Lexer

end BareLine.Syntax
