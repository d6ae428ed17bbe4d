import BareLine.Macros.Shell

/-!
# Argument boundaries in expanded commands

An expanded command is its template with values put in, some of them with quotes around them and
some with backslashes added.  So it is split like the template, with each value unchanged inside
its argument, just if those marks are kept.
-/

namespace BareLine.Macros

open Lib.Argv

variable {env : Surroundings}

/-! ## §1 Templates -/

/-- The tokens of a template, with what its placeholders stand for. -/
def tokensOf (env : Surroundings) (rest : Text) : Except String (List Token) :=
  match _hfound : findPlaceholder rest with
  | none => .ok (rest.map .char)
  | some (before, behind) =>
    match _hclose : findClose behind with
    | none => .error "Unclosed external command placeholder"
    | some (name, rest') => do
      let value ← env.placeholderValue name
      let tokens ← tokensOf env rest'
      pure (before.map .char ++ .value (value.getD []) :: tokens)
termination_by rest.length
decreasing_by exact length_behind_lt _hfound _hclose

/-- How a value is put in. -/
def placedValue (text : Text) (quoted : Bool) (next : Option Char) : List Item :=
  placed text (!isPlain text && !quoted) (if isPlain text && !quoted then 0
    else if !quoted || next == some '"' then trailing text else 0)

/-- The expanded template by its marks. -/
def marksOf (env : Surroundings) (s : QuoteState) (rest : Text) : Except String (List Item) :=
  match _hfound : findPlaceholder rest with
  | none => .ok (rest.map .lit)
  | some (before, behind) =>
    match _hclose : findClose behind with
    | none => .error "Unclosed external command placeholder"
    | some (name, rest') => do
      let value ← env.placeholderValue name
      let (_, s') ← quoteValue env value (s.scan env before) rest'.head?
      let items ← marksOf env s' rest'
      pure (before.map .lit ++
        (placedValue (value.getD []) (s.scan env before).quote.isSome rest'.head? ++ items))
termination_by rest.length
decreasing_by exact length_behind_lt _hfound _hclose

section Unfolding

variable {rest before behind name rest' : Text} {s : QuoteState}

theorem tokensOf_none (h : findPlaceholder rest = none) :
    tokensOf env rest = .ok (rest.map .char) := by
  rw [tokensOf]
  split <;> rename_i hfound <;> cases h.symm.trans hfound
  rfl

theorem marksOf_none (h : findPlaceholder rest = none) :
    marksOf env s rest = .ok (rest.map .lit) := by
  rw [marksOf]
  split <;> rename_i hfound <;> cases h.symm.trans hfound
  rfl

theorem tokensOf_some (hfound : findPlaceholder rest = some (before, behind))
    (hclose : findClose behind = some (name, rest')) : tokensOf env rest =
      (env.placeholderValue name).bind fun value => (tokensOf env rest').bind fun tokens =>
        .ok (before.map .char ++ .value (value.getD []) :: tokens) := by
  rw [tokensOf]
  split <;> rename_i hfound' <;> cases hfound.symm.trans hfound'
  split <;> rename_i hclose' <;> cases hclose.symm.trans hclose'
  rfl

theorem tokensOf_open (hfound : findPlaceholder rest = some (before, behind))
    (hclose : findClose behind = none) (tokens : List Token) : tokensOf env rest ≠ .ok tokens := by
  rw [tokensOf]
  split <;> rename_i hfound' <;> cases hfound.symm.trans hfound'
  split <;> rename_i hclose' <;> cases hclose.symm.trans hclose'
  exact nofun

theorem marksOf_open (hfound : findPlaceholder rest = some (before, behind))
    (hclose : findClose behind = none) (items : List Item) : marksOf env s rest ≠ .ok items := by
  rw [marksOf]
  split <;> rename_i hfound' <;> cases hfound.symm.trans hfound'
  split <;> rename_i hclose' <;> cases hclose.symm.trans hclose'
  exact nofun

theorem marksOf_some (hfound : findPlaceholder rest = some (before, behind))
    (hclose : findClose behind = some (name, rest')) : marksOf env s rest =
      (env.placeholderValue name).bind fun value =>
        (quoteValue env value (s.scan env before) rest'.head?).bind fun quoted =>
          (marksOf env quoted.2 rest').bind fun items => .ok (before.map .lit ++
            (placedValue (value.getD []) (s.scan env before).quote.isSome rest'.head? ++ items)) := by
  rw [marksOf]
  split <;> rename_i hfound' <;> cases hfound.symm.trans hfound'
  split <;> rename_i hclose' <;> cases hclose.symm.trans hclose'
  rfl

end Unfolding

/-- Whatever the placeholders stand for, a template has the same tokens up to the values. -/
theorem tokensOf_alike {env' : Surroundings} {rest : Text} {tokens tokens' : List Token}
    (h : tokensOf env rest = .ok tokens) (h' : tokensOf env' rest = .ok tokens') :
    List.Forall₂ Alike tokens tokens' := by
  have hchars : ∀ text : Text, List.Forall₂ Alike (text.map .char) (text.map .char) := fun text =>
    List.forall₂_same.mpr fun t ht => by
      obtain ⟨c, -, rfl⟩ := List.mem_map.mp ht
      exact .char c
  induction rest using tokensOf.induct generalizing tokens tokens' with
  | case1 rest hnone =>
    obtain rfl := Except.ok.inj ((tokensOf_none hnone).symm.trans h)
    obtain rfl := Except.ok.inj ((tokensOf_none hnone).symm.trans h')
    exact hchars rest
  | case2 rest before behind hfound hclose =>
    exact absurd h (tokensOf_open hfound hclose tokens)
  | case3 rest before behind hfound name rest' hclose ih =>
    rw [tokensOf_some hfound hclose] at h h'
    obtain ⟨value, -, h⟩ := bind_ok.mp h
    obtain ⟨more, hmore, h⟩ := bind_ok.mp h
    obtain ⟨value', -, h'⟩ := bind_ok.mp h'
    obtain ⟨more', hmore', h'⟩ := bind_ok.mp h'
    obtain rfl := Except.ok.inj h
    obtain rfl := Except.ok.inj h'
    exact List.rel_append (hchars before) (.cons (.value _ _) (ih hmore hmore'))

/-! ## §2 An expansion and its marks -/

/-- A value that is put in holds no quote, and is put in by its marks. -/
theorem commandShellValue_spec {text output : Text} {quoted : Bool} {next : Option Char}
    (h : commandShellValue text quoted (!quoted || next == some '"') = .ok output) :
    '"' ∉ text ∧ output = lineOf (placedValue text quoted next) := by
  rw [commandShellValue] at h
  by_cases hrefused : (text.any fun c => c == '"' || c == '%' || c == '!' || isControl c) = true
  · rw [if_pos hrefused] at h
    exact nomatch h
  · rw [if_neg hrefused] at h
    refine ⟨fun hmem => hrefused (List.any_eq_true.mpr ⟨'"', hmem, rfl⟩), ?_⟩
    rw [placedValue, lineOf_placed]
    by_cases hplain : (isPlain text && !quoted) = true
    · rw [if_pos hplain] at h
      obtain rfl := Except.ok.inj h
      rw [if_pos hplain, (Bool.and_eq_true_iff.mp hplain).1]
      simp
    · rw [if_neg hplain] at h
      obtain rfl := Except.ok.inj h
      rw [if_neg hplain]
      cases quoted with
      | true => simp
      | false =>
        have hplain : isPlain text = false := by simpa using hplain
        rw [hplain]
        simp

theorem quoteValue_spec {value : Option Text} {s s' : QuoteState} {next : Option Char}
    {output : Text} (h : quoteValue env value s next = .ok (output, s')) :
    '"' ∉ value.getD [] ∧ output = lineOf (placedValue (value.getD []) s.quote.isSome next) := by
  cases value with
  | none => exact nomatch h
  | some text =>
    rw [quoteValue] at h
    split_ifs at h
    obtain ⟨found, hfound, h⟩ := bind_ok.mp h
    obtain ⟨rfl, -⟩ := Prod.mk.inj (Except.ok.inj h)
    exact commandShellValue_spec hfound

theorem append_spec {output value output' : Text} (h : append output value = .ok output') :
    output' = output ++ value := by
  rw [append] at h
  split_ifs at h
  exact (Except.ok.inj h).symm

/-- What starts with a quote has marks that do. -/
theorem marksOf_head {s : QuoteState} {rest : Text} {items : List Item}
    (h : marksOf env s rest = .ok items) (hhead : rest.head? = some '"') :
    items.head? = some (.lit '"') := by
  obtain ⟨text, rfl⟩ := List.head?_eq_some_iff.mp hhead
  cases hfound : findPlaceholder ('"' :: text) with
  | none =>
    obtain rfl := Except.ok.inj ((marksOf_none hfound).symm.trans h)
    rfl
  | some found =>
    obtain ⟨before, behind⟩ := found
    cases hclose : findClose behind with
    | none => exact absurd h (marksOf_open hfound hclose items)
    | some found =>
      obtain ⟨name, rest'⟩ := found
      rw [marksOf_some hfound hclose] at h
      obtain ⟨value, -, h⟩ := bind_ok.mp h
      obtain ⟨quoted, -, h⟩ := bind_ok.mp h
      obtain ⟨more, -, h⟩ := bind_ok.mp h
      obtain rfl := Except.ok.inj h
      have htext := findPlaceholder_eq hfound
      cases before with
      | nil => exact absurd (List.cons.inj htext).1 (by decide)
      | cons c before =>
        obtain ⟨rfl, -⟩ := List.cons.inj htext
        rfl

theorem marked_placedValue {text : Text} {quoted : Bool} {next : Option Char}
    {tokens : List Token} {items : List Item} (hquiet : '"' ∉ text)
    (hnext : next = some '"' → items.head? = some (.lit '"')) (h : Marked tokens items) :
    Marked (.value text :: tokens) (placedValue text quoted next ++ items) := by
  refine .value text _ _ hquiet ?_ (fun hpos => ?_) h
  · split_ifs
    · exact Nat.zero_le _
    · exact Nat.le_refl _
    · exact Nat.zero_le _
  · split_ifs at hpos with hplain hclosing
    · exact absurd hpos (Nat.lt_irrefl 0)
    · cases quoted with
      | false => exact .inl (by simpa using hplain)
      | true => exact .inr (hnext (by simpa using hclosing))
    · exact absurd hpos (Nat.lt_irrefl 0)

/-- What is expanded is the line of some marks. -/
theorem expandFrom_marks {output output' : Text} {s s' : QuoteState} {rest : Text}
    (h : expandFrom env output s rest = .ok (output', s')) :
    ∃ tokens items, tokensOf env rest = .ok tokens ∧ marksOf env s rest = .ok items ∧
      Marked tokens items ∧ output' = output ++ lineOf items := by
  induction output, s, rest using expandFrom.induct with
  | case1 output s rest hnone =>
    rw [expandFrom] at h
    split at h
    · obtain ⟨output'', happend, h⟩ := bind_ok.mp h
      obtain ⟨rfl, -⟩ := Prod.mk.inj (Except.ok.inj h)
      have hmarked := Marked.nil.chars rest
      rw [List.append_nil, List.append_nil] at hmarked
      exact ⟨_, _, tokensOf_none hnone, marksOf_none hnone, hmarked, by
        rw [append_spec happend, lineOf_lit]⟩
    · rename_i hfound
      exact nomatch hnone.symm.trans hfound
  | case2 output s rest before behind hfound ih =>
    rw [expandFrom] at h
    split at h
    · rename_i hnone
      exact nomatch hfound.symm.trans hnone
    · rename_i hfound'
      obtain ⟨rfl, rfl⟩ := Prod.mk.inj (Option.some.inj (hfound.symm.trans hfound'))
      obtain ⟨output₁, hbefore, h⟩ := bind_ok.mp h
      dsimp only at h
      split at h
      · exact nomatch h
      · rename_i name rest' hclose
        obtain ⟨value, hvalue, h⟩ := bind_ok.mp h
        obtain ⟨⟨text, s₁⟩, hquoted, h⟩ := bind_ok.mp h
        obtain ⟨output₂, happend, h⟩ := bind_ok.mp h
        obtain ⟨tokens, items, htokens, hitems, hmarked, houtput⟩ := ih name rest' hclose s₁ output₂ h
        obtain ⟨hquiet, rfl⟩ := quoteValue_spec hquoted
        have hhere := @marked_placedValue _ (s.scan env before).quote.isSome _ _ _ hquiet
          (marksOf_head hitems) hmarked
        refine ⟨_, _, ?_, ?_, hhere.chars before, ?_⟩
        · rw [tokensOf_some hfound hclose, hvalue, Except.bind, htokens]
          rfl
        · rw [marksOf_some hfound hclose, hvalue, Except.bind, hquoted, Except.bind, hitems]
          rfl
        · rw [houtput, append_spec happend, append_spec hbefore]
          simp

/-! ## §3 Argument boundaries -/

/-- A command that is expanded is split like its template, each value unchanged inside its
argument, just if its marks are kept; and whatever the placeholders stand for, the template has as
many arguments, those without a placeholder the same. -/
theorem expanded_split_iff {template line : Text} (h : expandArgumentFor env template = .ok line) :
    ∃ tokens items, tokensOf env template = .ok tokens ∧
      marksOf env .default template = .ok items ∧
      (split line = (splitTokens tokens).map render ↔
        kept false false 0 0 0 false false items = true) ∧
      ∀ env' tokens', tokensOf env' template = .ok tokens' →
        List.Forall₂ (List.Forall₂ Alike) (splitTokens tokens) (splitTokens tokens') := by
  obtain ⟨⟨output, s⟩, hexpand, h⟩ := bind_ok.mp h
  obtain ⟨-, -, h⟩ := bind_ok.mp h
  obtain rfl := Except.ok.inj h
  obtain ⟨tokens, items, htokens, hitems, hmarked, rfl⟩ := expandFrom_marks hexpand
  refine ⟨tokens, items, htokens, hitems, ?_, fun env' tokens' h' => ?_⟩
  · rw [List.nil_append]
    exact split_eq_iff hmarked
  · exact splitTokens_alike (tokensOf_alike htokens h')

/-- Surroundings in which no word runs code and `s` and `w` stand for two values. -/
def twoValues (s w : Text) : Surroundings where
  shellWordRunsCode _ _ := false
  placeholderValue name := if name = ['s'] then .ok (some s) else .ok (some w)

/-- A folder inside quotes and a name with a blank are two arguments. -/
theorem folder_and_name_split :
    ∃ line, expandArgumentFor (twoValues ['C', ':', '\\'] ['x', ' ', 'y']) ['t', ' ', '"', '$',
        '\x7b', 's', '\x7d', '"', ' ', '$', '\x7b', 'w', '\x7d'] = .ok line ∧
      split line = [['t'], ['C', ':', '\\'], ['x', ' ', 'y']] := by
  have hexpand : expandArgumentFor (twoValues ['C', ':', '\\'] ['x', ' ', 'y']) ['t', ' ', '"',
      '$', '\x7b', 's', '\x7d', '"', ' ', '$', '\x7b', 'w', '\x7d'] =
        .ok ['t', ' ', '"', 'C', ':', '\\', '\\', '"', ' ', '"', 'x', ' ', 'y', '"'] := by
    decide +kernel
  refine ⟨_, hexpand, ?_⟩
  obtain ⟨tokens, items, htokens, hitems, hsplit, -⟩ := expanded_split_iff hexpand
  have htokens' : tokensOf (twoValues ['C', ':', '\\'] ['x', ' ', 'y']) ['t', ' ', '"', '$',
      '\x7b', 's', '\x7d', '"', ' ', '$', '\x7b', 'w', '\x7d'] =
        .ok [.char 't', .char ' ', .char '"', .value ['C', ':', '\\'], .char '"', .char ' ',
          .value ['x', ' ', 'y']] := by decide +kernel
  have hitems' : marksOf (twoValues ['C', ':', '\\'] ['x', ' ', 'y']) .default ['t', ' ', '"', '$',
      '\x7b', 's', '\x7d', '"', ' ', '$', '\x7b', 'w', '\x7d'] =
        .ok [.lit 't', .lit ' ', .lit '"', .mark, .val 'C', .val ':', .val '\\', .extra, .lit '"',
          .lit ' ', .mark, .wrap, .val 'x', .val ' ', .val 'y', .wrap] := by decide +kernel
  obtain rfl := Except.ok.inj (htokens.symm.trans htokens')
  obtain rfl := Except.ok.inj (hitems.symm.trans hitems')
  rw [hsplit.mpr (by decide)]
  decide

/-- An empty placeholder between a backslash and the closing quote takes an argument away. -/
theorem empty_value_joins_arguments :
    let template := ['t', ' ', '"', '$', '\x7b', 's', '\x7d', '$', '\x7b', 'w', '\x7d', '"', ' ',
      'x']
    (∃ line, expandArgumentFor (twoValues ['a'] []) template = .ok line ∧
      split line = [['t'], ['a'], ['x']]) ∧
    ∃ line, expandArgumentFor (twoValues ['a', '\\'] []) template = .ok line ∧
      split line = [['t'], ['a', '"', ' ', 'x']] :=
  ⟨⟨['t', ' ', '"', 'a', '"', ' ', 'x'], by decide +kernel, by decide⟩,
    ⟨['t', ' ', '"', 'a', '\\', '"', ' ', 'x'], by decide +kernel, by decide⟩⟩

end BareLine.Macros
