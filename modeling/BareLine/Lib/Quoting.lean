import BareLine.Lib.Argv

/-!
# Values put into command lines

A line that values were put into, some with quotes around them and some with backslashes added, is
split like its template, with each value as one atom, just if the marks of the line are kept.  The
two splits are compared piece by piece; once they are out of step, they stay so.
-/

namespace BareLine.Lib.Argv

/-! ## §1 Marked lines -/

/-- The characters of a line that values were put into: those of the template, the place where a
value starts, its characters, backslashes added behind it, and quotes put around it. -/
inductive Item where
  | lit (c : Char)
  | mark
  | val (c : Char)
  | extra
  | wrap
  deriving DecidableEq, Repr

def Item.text : Item → List Char
  | .lit c => [c]
  | .mark => []
  | .val c => [c]
  | .extra => ['\\']
  | .wrap => ['"']

/-- The plain line. -/
def lineOf (items : List Item) : List Char := items.flatMap Item.text

/-- How many backslashes a text ends with. -/
def trailing (v : List Char) : Nat := (v.rtakeWhile (· == '\\')).length

/-- A value put into a line. -/
def placed (v : List Char) (wrapped : Bool) (extra : Nat) : List Item :=
  .mark :: ((if wrapped then [.wrap] else []) ++ (v.map .val ++ (List.replicate extra .extra ++
    if wrapped then [.wrap] else [])))

@[simp] theorem lineOf_append (a b : List Item) : lineOf (a ++ b) = lineOf a ++ lineOf b :=
  List.flatMap_append

@[simp] theorem lineOf_lit (text : List Char) : lineOf (text.map .lit) = text := by
  induction text with
  | nil => rfl
  | cons c text ih => exact congrArg (c :: ·) ih

@[simp] theorem lineOf_val (text : List Char) : lineOf (text.map .val) = text := by
  induction text with
  | nil => rfl
  | cons c text ih => exact congrArg (c :: ·) ih

@[simp] theorem lineOf_extra (n : Nat) :
    lineOf (List.replicate n .extra) = List.replicate n '\\' := by
  induction n with
  | zero => rfl
  | succ n ih => exact congrArg ('\\' :: ·) ih

theorem lineOf_placed (v : List Char) (wrapped : Bool) (extra : Nat) :
    lineOf (placed v wrapped extra) = (if wrapped then ['"'] else []) ++ (v ++
      (List.replicate extra '\\' ++ if wrapped then ['"'] else [])) := by
  have hwrap : lineOf (if wrapped then [.wrap] else []) = if wrapped then ['"'] else [] := by
    cases wrapped <;> rfl
  show lineOf (_ ++ (v.map .val ++ (List.replicate extra .extra ++ _))) = _
  rw [lineOf_append, lineOf_append, lineOf_append, lineOf_val, lineOf_extra, hwrap]

/-- The marks of a line and the tokens they stand for.  Backslashes are added only behind those a
value ends with, and in front of a quote. -/
inductive Marked : List Token → List Item → Prop
  | nil : Marked [] []
  | char {tokens : List Token} {items : List Item} (c : Char) (more : Marked tokens items) :
    Marked (.char c :: tokens) (.lit c :: items)
  | value {tokens : List Token} {items : List Item} (v : List Char) (wrapped : Bool) (extra : Nat)
    (quiet : '"' ∉ v) (few : extra ≤ trailing v)
    (closed : 0 < extra → wrapped = true ∨ items.head? = some (.lit '"'))
    (more : Marked tokens items) : Marked (.value v :: tokens) (placed v wrapped extra ++ items)

theorem Marked.chars {tokens : List Token} {items : List Item} (text : List Char)
    (h : Marked tokens items) : Marked (text.map .char ++ tokens) (text.map .lit ++ items) := by
  induction text with
  | nil => exact h
  | cons c text ih => exact .char c ih

/-- The characters that pieces of arguments make up. -/
def textOf (pieces : List (Option Token)) : List (Option Char) :=
  pieces.flatMap fun piece => match piece with
    | none => [none]
    | some token => token.text.map some

def slashes (n : Nat) : List (Option Char) := List.replicate n (some '\\')

theorem slashes_add (m n : Nat) : slashes (m + n) = slashes m ++ slashes n :=
  List.replicate_add ..

theorem slashes_append (m n : Nat) (pieces : List (Option Char)) :
    slashes m ++ (slashes n ++ pieces) = slashes (m + n) ++ pieces := by
  rw [slashes_add, List.append_assoc]

theorem slashes_concat (n : Nat) (pieces : List (Option Char)) :
    slashes (n + 1) ++ pieces = slashes n ++ some '\\' :: pieces := by
  rw [slashes_add, List.append_assoc]
  rfl

/-- What a run of backslashes in front of a quote stands for. -/
def quoteRun (run : Nat) : List (Option Char) :=
  slashes (run / 2) ++ if run % 2 = 1 then [some '"'] else []

/-- Whether quotes are open behind a run of backslashes and a quote. -/
def toggled (quoted : Bool) (run : Nat) : Bool := if run % 2 = 1 then quoted else !quoted

/-- The characters of the arguments in the rest of a plain line. -/
def scanFrom (quoted : Bool) (run : Nat) (begun : Bool) (line : List Char) : List (Option Char) :=
  textOf (splitFrom quoted run begun (line.map .char))

/-- The characters of the arguments in the rest of a line with each value as an atom; what was put
in with the values is passed over. -/
def atomsFrom (quoted : Bool) (run : Nat) (begun : Bool) : List Item → List (Option Char)
  | [] => slashes run ++ finish begun
  | .lit c :: line =>
    if c = '\\' then atomsFrom quoted (run + 1) true line
    else if c = '"' then quoteRun run ++ atomsFrom (toggled quoted run) 0 true line
    else if isBlank c && !quoted then
      slashes run ++ (finish begun ++ atomsFrom false 0 false line)
    else slashes run ++ some c :: atomsFrom quoted 0 true line
  | .mark :: line => slashes run ++ atomsFrom quoted 0 true line
  | .val c :: line => slashes run ++ some c :: atomsFrom quoted 0 true line
  | .extra :: line => atomsFrom quoted run begun line
  | .wrap :: line => slashes run ++ atomsFrom quoted 0 true line

@[simp] theorem textOf_append (a b : List (Option Token)) : textOf (a ++ b) = textOf a ++ textOf b :=
  List.flatMap_append

@[simp] theorem textOf_finish (begun : Bool) : textOf (finish begun) = finish begun := by
  cases begun <;> rfl

@[simp] theorem textOf_slashes (n : Nat) :
    textOf (List.replicate n (some (.char '\\'))) = slashes n := by
  induction n with
  | zero => rfl
  | succ n ih =>
    rw [List.replicate_succ]
    exact congrArg (some '\\' :: ·) ih

theorem textOf_char (c : Char) (pieces : List (Option Token)) :
    textOf (some (.char c) :: pieces) = some c :: textOf pieces := rfl

/-- One turn over a character is the same for tokens as for a line. -/
theorem textOf_splitFrom_char (quoted : Bool) (run : Nat) (begun : Bool) (c : Char)
    (line : List Token) : textOf (splitFrom quoted run begun (.char c :: line)) =
      if c = '\\' then textOf (splitFrom quoted (run + 1) true line)
      else if c = '"' then quoteRun run ++ textOf (splitFrom (toggled quoted run) 0 true line)
      else if isBlank c && !quoted then
        slashes run ++ (finish begun ++ textOf (splitFrom false 0 false line))
      else slashes run ++ some c :: textOf (splitFrom quoted 0 true line) := by
  rw [splitFrom]
  split_ifs with hslash hquote hodd hblank
  · rfl
  · simp [quoteRun, toggled, hodd, textOf_char]
  · simp [quoteRun, toggled, hodd]
  · simp
  · simp [textOf_char]

@[simp] theorem scanFrom_nil (quoted : Bool) (run : Nat) (begun : Bool) :
    scanFrom quoted run begun [] = slashes run ++ finish begun := by
  simp [scanFrom, splitFrom]

theorem scanFrom_cons (quoted : Bool) (run : Nat) (begun : Bool) (c : Char) (line : List Char) :
    scanFrom quoted run begun (c :: line) =
      if c = '\\' then scanFrom quoted (run + 1) true line
      else if c = '"' then quoteRun run ++ scanFrom (toggled quoted run) 0 true line
      else if isBlank c && !quoted then
        slashes run ++ (finish begun ++ scanFrom false 0 false line)
      else slashes run ++ some c :: scanFrom quoted 0 true line :=
  textOf_splitFrom_char quoted run begun c _

theorem scanFrom_slash (quoted : Bool) (run : Nat) (begun : Bool) (line : List Char) :
    scanFrom quoted run begun ('\\' :: line) = scanFrom quoted (run + 1) true line := by
  rw [scanFrom_cons, if_pos rfl]

theorem scanFrom_quote (quoted : Bool) (run : Nat) (begun : Bool) (line : List Char) :
    scanFrom quoted run begun ('"' :: line) =
      quoteRun run ++ scanFrom (toggled quoted run) 0 true line := by
  rw [scanFrom_cons, if_neg (by decide), if_pos rfl]

theorem atomsFrom_quote (quoted : Bool) (run : Nat) (begun : Bool) (line : List Item) :
    atomsFrom quoted run begun (.lit '"' :: line) =
      quoteRun run ++ atomsFrom (toggled quoted run) 0 true line := by
  rw [atomsFrom, if_neg (by decide), if_pos rfl]

theorem atomsFrom_placed (quoted : Bool) (run : Nat) (begun : Bool) (v : List Char)
    (wrapped : Bool) (extra : Nat) (items : List Item) :
    atomsFrom quoted run begun (placed v wrapped extra ++ items) =
      slashes run ++ (v.map some ++ atomsFrom quoted 0 true items) := by
  have hextra : ∀ begun, atomsFrom quoted 0 begun (List.replicate extra .extra ++
      ((if wrapped then [.wrap] else []) ++ items)) =
        atomsFrom quoted 0 (begun || wrapped) items := by
    intro begun
    induction extra with
    | zero => cases wrapped <;> cases begun <;> rfl
    | succ extra ih => exact ih
  have hvalue : atomsFrom quoted 0 true (v.map .val ++ (List.replicate extra .extra ++
      ((if wrapped then [.wrap] else []) ++ items))) =
        v.map some ++ atomsFrom quoted 0 true items := by
    induction v with
    | nil => exact hextra true
    | cons c v ih => exact congrArg (some c :: ·) ih
  simp only [placed, List.cons_append, List.append_assoc]
  rw [atomsFrom]
  cases wrapped with
  | false => exact congrArg (slashes run ++ ·) hvalue
  | true => exact congrArg (slashes run ++ ·) hvalue

/-- The tokens' pieces are those of the marked line. -/
theorem Marked.atoms {tokens : List Token} {items : List Item} (h : Marked tokens items)
    (quoted : Bool) (run : Nat) (begun : Bool) :
    textOf (splitFrom quoted run begun tokens) = atomsFrom quoted run begun items := by
  induction h generalizing quoted run begun with
  | nil => simp [splitFrom, atomsFrom]
  | char c _ ih =>
    rw [textOf_splitFrom_char, atomsFrom]
    simp only [ih]
  | value v wrapped extra _ _ _ _ ih =>
    rw [atomsFrom_placed, ← ih, splitFrom, textOf_append, textOf_slashes]
    rfl

/-- What the marks of a line obey: inside quotes put around a value stands nothing else, and
backslashes are added only in front of a quote, no more than the value ends with.  The state is
whether such quotes are open, a number of backslashes just read that come from a value, and of
those added. -/
def Fits (inside : Bool) (owed extra : Nat) : List Item → Prop
  | [] => inside = false ∧ extra = 0
  | .lit c :: line =>
    inside = false ∧ if c = '"' then Fits false 0 0 line else extra = 0 ∧ Fits false 0 0 line
  | .mark :: line => inside = false ∧ extra = 0 ∧ Fits false 0 0 line
  | .val c :: line =>
    c ≠ '"' ∧ extra = 0 ∧ if c = '\\' then Fits inside (owed + 1) 0 line else Fits inside 0 0 line
  | .extra :: line => extra < owed ∧ Fits inside owed (extra + 1) line
  | .wrap :: line => Fits (!inside) 0 0 line

/-- How many backslashes a text ends with, behind some others. -/
theorem trailing_concat (v : List Char) (c : Char) :
    trailing (v ++ [c]) = if c = '\\' then trailing v + 1 else 0 := by
  rw [trailing, trailing]
  split_ifs with hslash
  · rw [List.rtakeWhile_concat_pos _ _ _ (by rw [hslash]; rfl), List.length_append]
    rfl
  · rw [List.rtakeWhile_concat_neg _ _ _ (by simpa using hslash)]
    rfl

theorem Fits.mono {items : List Item} {inside : Bool} {owed owed' extra : Nat}
    (h : Fits inside owed extra items) (hle : owed ≤ owed') : Fits inside owed' extra items := by
  induction items generalizing owed owed' extra with
  | nil => exact h
  | cons item items ih =>
    cases item with
    | lit c => exact h
    | mark => exact h
    | val c =>
      obtain ⟨hquote, hextra, h⟩ := h
      refine ⟨hquote, hextra, ?_⟩
      split_ifs at h ⊢ with hslash
      · exact ih h (Nat.succ_le_succ hle)
      · exact h
    | extra => exact ⟨Nat.lt_of_lt_of_le h.1 hle, ih h.2 hle⟩
    | wrap => exact h

theorem fits_value {v : List Char} (hquiet : '"' ∉ v) {inside : Bool} {items : List Item}
    (h : Fits inside (trailing v) 0 items) : Fits inside 0 0 (v.map .val ++ items) := by
  induction v using List.reverseRecOn generalizing items with
  | nil => exact h
  | append_singleton v c ih =>
    rw [List.map_append, List.append_assoc]
    rw [trailing_concat] at h
    refine ih (fun hmem => hquiet (List.mem_append_left _ hmem)) ⟨?_, rfl, ?_⟩
    · rintro rfl
      exact hquiet (List.mem_append_right _ (List.mem_singleton_self _))
    · split_ifs at h ⊢
      · exact h
      · exact h

theorem fits_extra {inside : Bool} {owed extra n : Nat} {items : List Item}
    (hle : extra + n ≤ owed) (h : Fits inside owed (extra + n) items) :
    Fits inside owed extra (List.replicate n .extra ++ items) := by
  induction n generalizing extra with
  | zero => exact h
  | succ n ih => exact ⟨by omega, ih (by omega) (by rwa [Nat.add_right_comm])⟩

theorem Marked.fits {tokens : List Token} {items : List Item} (h : Marked tokens items) :
    Fits false 0 0 items := by
  induction h with
  | nil => exact ⟨rfl, rfl⟩
  | char c _ ih =>
    refine ⟨rfl, ?_⟩
    split_ifs
    · exact ih
    · exact ⟨rfl, ih⟩
  | @value _ items v wrapped extra hquiet hfew hclosed _ ih =>
    have hextra : ∀ inside, Fits inside (trailing v) extra
        ((if wrapped then [.wrap] else []) ++ items) → Fits inside 0 0 (v.map .val ++
          (List.replicate extra .extra ++ ((if wrapped then [.wrap] else []) ++ items))) :=
      fun inside h => fits_value hquiet
        (fits_extra (by rwa [Nat.zero_add]) (by rwa [Nat.zero_add]))
    simp only [placed, List.cons_append, List.append_assoc]
    refine ⟨rfl, rfl, ?_⟩
    cases wrapped with
    | true => exact hextra true ih
    | false =>
      refine hextra false ?_
      rcases Nat.eq_zero_or_pos extra with rfl | hpos
      · exact ih.mono (Nat.zero_le _)
      · rcases hclosed hpos with hwrapped | hhead
        · exact nomatch hwrapped
        · obtain ⟨rest, rfl⟩ := List.head?_eq_some_iff.mp hhead
          exact ih

/-! ## §2 Runs in front of a quote -/

theorem length_slashes (n : Nat) : (slashes n).length = n := List.length_replicate

theorem length_quoteRun (run : Nat) : (quoteRun run).length = run / 2 + run % 2 := by
  rw [quoteRun, List.length_append, length_slashes]
  split_ifs with hodd
  · rw [hodd]
    rfl
  · rw [Nat.mod_two_ne_one.mp hodd]
    rfl

/-- A backslash or a quote. -/
def IsMark (x : Option Char) : Prop := x = some '\\' ∨ x = some '"'

theorem isMark_of_mem_slashes {n : Nat} {x : Option Char} (h : x ∈ slashes n) : IsMark x :=
  .inl (List.eq_of_mem_replicate h)

theorem isMark_of_mem_quoteRun {n : Nat} {x : Option Char} (h : x ∈ quoteRun n) : IsMark x := by
  rw [quoteRun, List.mem_append] at h
  rcases h with h | h
  · exact isMark_of_mem_slashes h
  · split_ifs at h with hodd
    · exact .inr (List.mem_singleton.mp h)
    · exact nomatch h

/-- Backslashes that are doubled stand for themselves. -/
theorem quoteRun_double (n run : Nat) : quoteRun (n + n + run) = slashes n ++ quoteRun run := by
  have hhalf : (n + n + run) / 2 = n + run / 2 := by omega
  have hrest : (n + n + run) % 2 = run % 2 := by omega
  rw [quoteRun, quoteRun, hhalf, hrest, slashes_add, List.append_assoc]

theorem toggled_double (quoted : Bool) (n run : Nat) :
    toggled quoted (n + n + run) = toggled quoted run := by
  have hrest : (n + n + run) % 2 = run % 2 := by omega
  rw [toggled, toggled, hrest]

/-- Of two fronts of a list the shorter is the front of the longer. -/
theorem append_longer {α : Type*} {a b x y : List α} (h : a ++ x = b ++ y)
    (hlt : a.length < b.length) : ∃ c, c ≠ [] ∧ b = a ++ c ∧ x = c ++ y := by
  rcases List.append_eq_append_iff.mp h with ⟨c, rfl, rfl⟩ | ⟨c, rfl, rfl⟩
  · refine ⟨c, ?_, rfl, rfl⟩
    rintro rfl
    rw [List.append_nil] at hlt
    exact Nat.lt_irrefl _ hlt
  · rw [List.length_append] at hlt
    omega

/-! ## §3 Splits out of step -/

/-- Behind as many backslashes, a list that is behind by some marks does not go on with another
piece. -/
theorem slashes_cons_ne {n : Nat} {x : Option Char} {lead a b : List (Option Char)}
    (hx : ¬IsMark x) (hlead : lead ≠ []) (hmarks : ∀ y ∈ lead, IsMark y) :
    slashes n ++ x :: a ≠ lead ++ (slashes n ++ b) := by
  intro h
  have hpos := List.length_pos_iff.mpr hlead
  rw [← List.append_assoc] at h
  have hlt : (slashes n).length < (lead ++ slashes n).length := by
    rw [List.length_append]
    omega
  obtain ⟨c, hc, hsplit, hrest⟩ := append_longer h hlt
  obtain ⟨y, c, rfl⟩ := List.exists_cons_of_ne_nil hc
  obtain ⟨rfl, -⟩ := List.cons.inj hrest
  have hmem : x ∈ lead ++ slashes n := hsplit ▸ List.mem_append_right _ (List.mem_cons_self ..)
  rcases List.mem_append.mp hmem with hmem | hmem
  · exact hx (hmarks x hmem)
  · exact hx (isMark_of_mem_slashes hmem)

/-- A front no longer than what the list goes on with leaves it behind. -/
theorem behind_of_append {α : Type*} {P : α → Prop} {front lead more a b : List α}
    (h : front ++ a = lead ++ (more ++ b)) (hlead : ∀ y ∈ lead, P y) (hmore : ∀ y ∈ more, P y)
    (hlt : front.length < lead.length + more.length) :
    ∃ lead', lead' ≠ [] ∧ (∀ y ∈ lead', P y) ∧ a = lead' ++ b := by
  rw [← List.append_assoc] at h
  rw [← List.length_append] at hlt
  obtain ⟨c, hc, hsplit, hrest⟩ := append_longer h hlt
  refine ⟨c, hc, fun y hy => ?_, hrest⟩
  have hmem : y ∈ lead ++ more := hsplit ▸ List.mem_append_right _ hy
  exact (List.mem_append.mp hmem).elim (hlead y) (hmore y)

theorem not_isMark_char {c : Char} (hslash : c ≠ '\\') (hquote : c ≠ '"') : ¬IsMark (some c) := by
  rintro (h | h)
  · exact hslash (Option.some.inj h)
  · exact hquote (Option.some.inj h)

theorem not_isMark_none : ¬IsMark none := fun h => h.elim nofun nofun

/-- What is behind by some marks stays behind. -/
theorem scanFrom_behind {items : List Item} {inside : Bool} {owed extra read run total : Nat}
    (hfits : Fits inside owed extra items) (hextra : extra ≤ owed) (howed : owed ≤ read)
    (htotal : total = read + extra + run) {lead : List (Option Char)} (hlead : lead ≠ [])
    (hmarks : ∀ y ∈ lead, IsMark y) (quoted quoted' : Bool) :
    scanFrom quoted total true (lineOf items) ≠
      lead ++ (slashes read ++ atomsFrom quoted' run true items) := by
  have hpos := List.length_pos_iff.mpr hlead
  induction items generalizing inside owed extra read run total lead quoted quoted' with
  | nil =>
    obtain ⟨-, rfl⟩ := hfits
    rw [atomsFrom, slashes_append, show read + run = total by omega]
    show scanFrom quoted total true [] ≠ _
    rw [scanFrom_nil]
    exact slashes_cons_ne not_isMark_none hlead hmarks
  | cons item items ih =>
    cases item with
    | lit c =>
      obtain ⟨-, hfits⟩ := hfits
      show scanFrom quoted total true (c :: lineOf items) ≠ _
      by_cases hquote : c = '"'
      · -- what the run stands for takes from the lead no more than the atoms add to it
        rw [if_pos hquote] at hfits
        subst hquote
        rw [scanFrom_quote, atomsFrom_quote, ← List.append_assoc (slashes read)]
        intro h
        obtain ⟨lead', hlead', hmarks', h⟩ := behind_of_append h hmarks
          (List.forall_mem_append.mpr ⟨fun _ => isMark_of_mem_slashes,
            fun _ => isMark_of_mem_quoteRun⟩)
          (by rw [List.length_append, length_slashes, length_quoteRun, length_quoteRun]; omega)
        exact @ih false 0 0 0 0 0 hfits (Nat.le_refl 0) (Nat.le_refl 0) rfl lead' hlead' hmarks'
          _ _ (List.length_pos_iff.mpr hlead') h
      · rw [if_neg hquote] at hfits
        obtain ⟨rfl, hfits⟩ := hfits
        rw [scanFrom_cons, atomsFrom, if_neg hquote, if_neg hquote]
        by_cases hslash : c = '\\'
        · rw [if_pos hslash, if_pos hslash]
          exact ih hfits (Nat.le_refl 0) (Nat.zero_le read) (by omega) hlead hmarks _ _ hpos
        · rw [if_neg hslash, if_neg hslash]
          -- the next piece comes behind as many backslashes in both
          obtain ⟨rest, hrest⟩ : ∃ rest, slashes run ++ rest = if isBlank c && !quoted' then
              slashes run ++ (finish true ++ atomsFrom false 0 false items)
              else slashes run ++ some c :: atomsFrom quoted' 0 true items := by
            split_ifs <;> exact ⟨_, rfl⟩
          rw [← hrest, slashes_append, show read + run = total by omega]
          split_ifs
          · exact slashes_cons_ne not_isMark_none hlead hmarks
          · exact slashes_cons_ne (not_isMark_char hslash hquote) hlead hmarks
    | mark =>
      obtain ⟨-, rfl, hfits⟩ := hfits
      rw [atomsFrom, slashes_append]
      exact ih hfits (Nat.le_refl 0) (Nat.zero_le _) (by omega) hlead hmarks _ _ hpos
    | val c =>
      obtain ⟨hquote, rfl, hfits⟩ := hfits
      show scanFrom quoted total true (c :: lineOf items) ≠ _
      rw [scanFrom_cons, atomsFrom, if_neg hquote, slashes_append]
      split_ifs at hfits ⊢ with hslash hblank
      · subst hslash
        rw [← slashes_concat]
        exact ih hfits (Nat.zero_le _) (by omega) (by omega) hlead hmarks _ _ hpos
      · rw [show read + run = total by omega]
        exact slashes_cons_ne not_isMark_none hlead hmarks
      · rw [show read + run = total by omega]
        exact slashes_cons_ne (not_isMark_char hslash hquote) hlead hmarks
    | extra =>
      obtain ⟨hlt, hfits⟩ := hfits
      show scanFrom quoted total true ('\\' :: lineOf items) ≠ _
      rw [scanFrom_slash, atomsFrom]
      exact ih hfits hlt howed (by omega) hlead hmarks _ _ hpos
    | wrap =>
      show scanFrom quoted total true ('"' :: lineOf items) ≠ _
      rw [scanFrom_quote, atomsFrom, slashes_append]
      intro h
      obtain ⟨lead', hlead', hmarks', h⟩ := behind_of_append h hmarks
        (fun _ => isMark_of_mem_slashes) (by rw [length_slashes, length_quoteRun]; omega)
      exact @ih (!inside) 0 0 0 0 0 hfits (Nat.le_refl 0) (Nat.le_refl 0) rfl lead' hlead' hmarks'
        _ _ (List.length_pos_iff.mpr hlead') h

/-- A blank, or the end of an argument. -/
def IsGap (x : Option Char) : Prop := ∀ c, x = some c → isBlank c = true

theorem isGap_none : IsGap none := nofun

theorem isGap_some {c : Char} (h : isBlank c = true) : IsGap (some c) := by
  rintro d hd
  rwa [← Option.some.inj hd]

theorem IsMark.not_isGap {x : Option Char} (h : IsMark x) : ¬IsGap x := by
  intro hgap
  rcases h with rfl | rfl
  · exact absurd (hgap _ rfl) (by decide)
  · exact absurd (hgap _ rfl) (by decide)

/-- Marks do not go on where gaps are ahead. -/
theorem marks_append_ne {front lead a b : List (Option Char)} (hfront : front ≠ [])
    (hmarks : ∀ y ∈ front, IsMark y) (hlead : lead ≠ []) (hgaps : ∀ y ∈ lead, IsGap y) :
    front ++ a ≠ lead ++ b := by
  obtain ⟨x, front, rfl⟩ := List.exists_cons_of_ne_nil hfront
  obtain ⟨y, lead, rfl⟩ := List.exists_cons_of_ne_nil hlead
  intro h
  obtain ⟨rfl, -⟩ := List.cons.inj h
  exact (hmarks x (List.mem_cons_self ..)).not_isGap (hgaps x (List.mem_cons_self ..))

theorem append_ne_of_head {α : Type*} {P : α → Prop} {x : α} {lead a b : List α} (hx : ¬P x)
    (hlead : lead ≠ []) (h : ∀ y ∈ lead, P y) : x :: a ≠ lead ++ b := by
  obtain ⟨y, lead, rfl⟩ := List.exists_cons_of_ne_nil hlead
  intro heq
  obtain ⟨rfl, -⟩ := List.cons.inj heq
  exact hx (h x (List.mem_cons_self ..))

theorem length_finish {α : Type*} (begun : Bool) :
    (finish begun : List (Option α)).length = if begun then 1 else 0 := by
  cases begun <;> rfl

theorem finish_gaps (begun : Bool) : ∀ y ∈ finish begun, IsGap y := by
  cases begun with
  | false => exact nofun
  | true => exact List.forall_mem_singleton.mpr isGap_none

theorem slashes_ne_nil {n : Nat} (h : 0 < n) : slashes n ≠ [] :=
  List.ne_nil_of_length_pos (by rwa [length_slashes])

theorem quoteRun_ne_nil {n : Nat} (h : 0 < n) : quoteRun n ≠ [] :=
  List.ne_nil_of_length_pos (by rw [length_quoteRun]; omega)

/-- What is behind by some gaps stays behind. -/
theorem scanFrom_behind_gap {items : List Item} {inside : Bool}
    {owed extra read run total : Nat} {begun started : Bool} (hfits : Fits inside owed extra items)
    (hextra : extra ≤ owed) (howed : owed ≤ read) (htotal : total = read + extra + run)
    (hbegun : begun = true → started = true) (hrun : 0 < total → begun = true)
    {lead : List (Option Char)} (hlead : lead ≠ []) (hgaps : ∀ y ∈ lead, IsGap y)
    (quoted : Bool) :
    scanFrom (quoted ^^ inside) total begun (lineOf items) ≠
      lead ++ (slashes read ++ atomsFrom quoted run started items) := by
  have hpos := List.length_pos_iff.mpr hlead
  have hfinish : (finish begun : List (Option Char)).length ≤
      (finish started : List (Option Char)).length := by
    rw [length_finish, length_finish]
    cases begun with
    | false => exact Nat.zero_le _
    | true =>
      rw [hbegun rfl]
  induction items generalizing inside owed extra read run total begun started lead quoted with
  | nil =>
    obtain ⟨rfl, rfl⟩ := hfits
    show scanFrom _ total begun [] ≠ _
    rw [scanFrom_nil, atomsFrom]
    rcases Nat.eq_zero_or_pos total with rfl | hsome
    · obtain ⟨rfl, rfl⟩ : read = 0 ∧ run = 0 := by omega
      intro h
      have hlength := congrArg List.length h
      simp only [slashes, List.replicate_zero, List.nil_append, List.length_append] at hlength
      omega
    · exact marks_append_ne (slashes_ne_nil hsome) (fun _ => isMark_of_mem_slashes) hlead hgaps
  | cons item items ih =>
    -- where backslashes were read, what they stand for is no gap
    have hquiet : 0 < total → ∀ a b, slashes total ++ a ≠ lead ++ b := fun hsome _ _ =>
      marks_append_ne (slashes_ne_nil hsome) (fun _ => isMark_of_mem_slashes) hlead hgaps
    have hquoteless : 0 < total → ∀ a b, quoteRun total ++ a ≠ lead ++ b := fun hsome _ _ =>
      marks_append_ne (quoteRun_ne_nil hsome) (fun _ => isMark_of_mem_quoteRun) hlead hgaps
    -- a blank leaves the split behind, in an argument as between two
    have hblank : ∀ (c : Char) (inside : Bool), isBlank c = true → Fits inside 0 0 items →
        some c :: scanFrom (quoted ^^ inside) 0 true (lineOf items) ≠
          lead ++ some c :: atomsFrom quoted 0 true items := by
      intro c inside hc hfits h
      obtain ⟨lead', hlead', hgaps', h⟩ := @behind_of_append _ IsGap [some c] lead [some c] _ _ h
        hgaps (List.forall_mem_singleton.mpr (isGap_some hc)) (Nat.lt_add_of_pos_left hpos)
      exact @ih inside 0 0 0 0 0 true true hfits (Nat.le_refl 0) (Nat.le_refl 0) rfl id
        (fun _ => rfl) lead' hlead' hgaps' quoted (List.length_pos_iff.mpr hlead') (Nat.le_refl _) h
    cases item with
    | lit c =>
      obtain ⟨rfl, hfits⟩ := hfits
      show scanFrom _ total begun (c :: lineOf items) ≠ _
      by_cases hquote : c = '"'
      · rw [if_pos hquote] at hfits
        subst hquote
        rw [scanFrom_quote, atomsFrom_quote]
        rcases Nat.eq_zero_or_pos total with rfl | hsome
        · obtain ⟨rfl, rfl, rfl⟩ : read = 0 ∧ run = 0 ∧ extra = 0 := by omega
          have := @ih false 0 0 0 0 0 true true hfits (Nat.le_refl 0) (Nat.le_refl 0) rfl id
            (fun _ => rfl) lead hlead hgaps (!quoted) hpos (Nat.le_refl _)
          rwa [Bool.xor_false] at this ⊢
        · exact hquoteless hsome _ _
      · rw [if_neg hquote] at hfits
        obtain ⟨rfl, hfits⟩ := hfits
        rw [scanFrom_cons, atomsFrom, if_neg hquote, if_neg hquote, Bool.xor_false]
        split_ifs with hslash hgap
        · have := @ih false 0 0 read (run + 1) (total + 1) true true hfits (Nat.le_refl 0)
            (Nat.zero_le _) (by omega) id (fun _ => rfl) lead hlead hgaps quoted hpos
            (Nat.le_refl _)
          rwa [Bool.xor_false] at this
        · rcases Nat.eq_zero_or_pos total with rfl | hsome
          · obtain ⟨rfl, rfl⟩ : read = 0 ∧ run = 0 := by omega
            intro h
            obtain ⟨lead', hlead', hgaps', h⟩ := @behind_of_append _ IsGap (finish begun) lead
              (finish started) _ _ h hgaps (finish_gaps _) (by omega)
            exact @ih false 0 0 0 0 0 false false hfits (Nat.le_refl 0) (Nat.le_refl 0) rfl id
              nofun lead' hlead' hgaps' false (List.length_pos_iff.mpr hlead') (Nat.le_refl _) h
          · exact hquiet hsome _ _
        · rcases Nat.eq_zero_or_pos total with rfl | hsome
          · obtain ⟨rfl, rfl⟩ : read = 0 ∧ run = 0 := by omega
            by_cases hc : isBlank c = true
            · have := hblank c false hc hfits
              rwa [Bool.xor_false] at this
            · exact append_ne_of_head (fun h => hc (h c rfl)) hlead hgaps
          · exact hquiet hsome _ _
    | mark =>
      obtain ⟨rfl, rfl, hfits⟩ := hfits
      rw [atomsFrom, slashes_append]
      exact @ih false 0 0 (read + run) 0 total begun true hfits (Nat.le_refl 0) (Nat.zero_le _)
        (by omega) (fun _ => rfl) hrun lead hlead hgaps quoted hpos
        (by cases begun <;> exact Nat.le_of_ble_eq_true rfl)
    | val c =>
      obtain ⟨hquote, rfl, hfits⟩ := hfits
      show scanFrom _ total begun (c :: lineOf items) ≠ _
      rw [scanFrom_cons, atomsFrom, if_neg hquote, slashes_append]
      split_ifs at hfits ⊢ with hslash hgap
      · subst hslash
        rw [← slashes_concat]
        exact ih hfits (Nat.zero_le _) (by omega) (by omega) id (fun _ => rfl) hlead hgaps quoted
          hpos (Nat.le_refl _)
      · rcases Nat.eq_zero_or_pos total with rfl | hsome
        · obtain ⟨rfl, rfl⟩ : read = 0 ∧ run = 0 := by omega
          rw [Bool.and_eq_true, Bool.not_eq_true'] at hgap
          intro h
          obtain ⟨lead', hlead', hgaps', h⟩ := @behind_of_append _ IsGap (finish begun) lead
            [some c] _ _ h hgaps (List.forall_mem_singleton.mpr (isGap_some hgap.1))
            (by rw [length_finish]; split_ifs <;> simp [hpos])
          have := @ih inside 0 0 0 0 0 false true hfits (Nat.le_refl 0) (Nat.le_refl 0) rfl nofun
            nofun lead' hlead' hgaps' quoted (List.length_pos_iff.mpr hlead') (Nat.zero_le _)
          rw [hgap.2] at this
          exact this h
        · exact hquiet hsome _ _
      · rcases Nat.eq_zero_or_pos total with rfl | hsome
        · obtain ⟨rfl, rfl⟩ : read = 0 ∧ run = 0 := by omega
          by_cases hc : isBlank c = true
          · exact hblank c inside hc hfits
          · exact append_ne_of_head (fun h => hc (h c rfl)) hlead hgaps
        · exact hquiet hsome _ _
    | extra =>
      obtain ⟨hlt, hfits⟩ := hfits
      show scanFrom _ total begun ('\\' :: lineOf items) ≠ _
      obtain rfl : begun = true := hrun (by omega)
      obtain rfl : started = true := hbegun rfl
      rw [scanFrom_slash, atomsFrom]
      exact ih hfits hlt howed (by omega) id (fun _ => rfl) hlead hgaps quoted hpos (Nat.le_refl _)
    | wrap =>
      show scanFrom _ total begun ('"' :: lineOf items) ≠ _
      rw [scanFrom_quote, atomsFrom, slashes_append]
      rcases Nat.eq_zero_or_pos total with rfl | hsome
      · obtain ⟨rfl, rfl⟩ : read = 0 ∧ run = 0 := by omega
        have := @ih (!inside) 0 0 0 0 0 true true hfits (Nat.le_refl 0) (Nat.le_refl 0) rfl id
          (fun _ => rfl) lead hlead hgaps quoted hpos (Nat.le_refl _)
        rwa [Bool.xor_not] at this
      · exact hquoteless hsome _ _

/-! ## §4 When a split is kept -/

/-- Whether the values of a line stay inside their arguments: the backslashes of a value in front
of a quote are the doubled ones, a blank of a value stands inside quotes, and an empty value is
not an argument of its own outside quotes.  The state is whether the template's quotes are open
and those put around a value, the backslashes just read (of values, added, of the template), and
whether an argument has begun in the line and in its template. -/
def kept (quoted inside : Bool) (read extra run : Nat) (begun started : Bool) : List Item → Bool
  | [] => begun == started
  | .lit c :: line =>
    if c = '\\' then kept quoted inside read extra (run + 1) true true line
    else if c = '"' then read == extra && kept (toggled quoted run) inside 0 0 0 true true line
    else if isBlank c && !quoted then
      begun == started && kept false inside 0 0 0 false false line
    else kept quoted inside 0 0 0 true true line
  | .mark :: line => kept quoted inside (read + run) extra 0 begun true line
  | .val c :: line =>
    if c = '\\' then kept quoted inside (read + run + 1) extra 0 true true line
    else if isBlank c && !(quoted ^^ inside) then false
    else kept quoted inside 0 0 0 true true line
  | .extra :: line => kept quoted inside read (extra + 1) run true started line
  | .wrap :: line => read + run == extra && kept quoted (!inside) 0 0 0 true true line

/-- Where fewer backslashes were added than a value ends with, the quote behind them does not
stand for what it stands for in the template. -/
theorem quoteRun_ne {items : List Item} {inside : Bool} {read extra run total : Nat}
    (hfits : Fits inside 0 0 items) (hlt : extra < read) (htotal : total = read + extra + run)
    (quoted quoted' : Bool) : quoteRun total ++ scanFrom quoted 0 true (lineOf items) ≠
      slashes read ++ (quoteRun run ++ atomsFrom quoted' 0 true items) := by
  intro h
  rw [← List.append_assoc] at h
  have hmarks : ∀ y ∈ slashes read ++ quoteRun run, IsMark y :=
    List.forall_mem_append.mpr ⟨fun _ => isMark_of_mem_slashes, fun _ => isMark_of_mem_quoteRun⟩
  have hlength : (slashes read ++ quoteRun run).length = read + (run / 2 + run % 2) := by
    rw [List.length_append, length_slashes, length_quoteRun]
  rcases Nat.lt_or_ge (quoteRun total).length (slashes read ++ quoteRun run).length with hless | hge
  · obtain ⟨lead, hlead, hmarks', h⟩ := @behind_of_append _ IsMark _ [] _ _ _ h nofun hmarks
      (by rwa [List.length_nil, Nat.zero_add])
    exact @scanFrom_behind items inside 0 0 0 0 0 hfits (Nat.le_refl 0) (Nat.le_refl 0) rfl lead
      hlead hmarks' quoted quoted' h
  · -- one of the backslashes stands against the escaped quote
    rw [hlength, length_quoteRun] at hge
    obtain ⟨hfront, -⟩ := List.append_inj h (by rw [hlength, length_quoteRun]; omega)
    have hodd : total % 2 = 1 := by omega
    have heven : ¬run % 2 = 1 := by omega
    have hmem : some '"' ∈ quoteRun total := by
      rw [quoteRun, if_pos hodd]
      exact List.mem_append_right _ (List.mem_singleton_self _)
    rw [hfront, quoteRun, if_neg heven, List.append_nil, ← slashes_add] at hmem
    exact absurd (List.eq_of_mem_replicate hmem) (by decide)

/-- Only the template's argument has begun. -/
theorem starts_late {begun started : Bool} (hbegun : begun = true → started = true)
    (h : begun ≠ started) : begun = false ∧ started = true := by
  cases begun with
  | true => exact absurd (hbegun rfl).symm h
  | false => exact ⟨rfl, eq_true_of_ne_false fun hs => h hs.symm⟩

/-- A line is split like its template just if its marks are kept. -/
theorem scanFrom_eq_iff {items : List Item} {inside : Bool}
    {owed extra read run total : Nat} {begun started : Bool} (hfits : Fits inside owed extra items)
    (hextra : extra ≤ owed) (howed : owed ≤ read) (htotal : total = read + extra + run)
    (hbegun : begun = true → started = true) (hrun : 0 < total → begun = true) (quoted : Bool) :
    scanFrom (quoted ^^ inside) total begun (lineOf items) =
      slashes read ++ atomsFrom quoted run started items ↔
        kept quoted inside read extra run begun started items = true := by
  induction items generalizing inside owed extra read run total begun started quoted with
  | nil =>
    obtain ⟨rfl, rfl⟩ := hfits
    show scanFrom _ total begun [] = _ ↔ _
    rw [scanFrom_nil, atomsFrom, slashes_append, show read + run = total by omega,
      List.append_cancel_left_eq, kept, beq_iff_eq]
    cases begun <;> cases started <;> decide
  | cons item items ih =>
    cases item with
    | lit c =>
      obtain ⟨rfl, hfits⟩ := hfits
      show scanFrom _ total begun (c :: lineOf items) = _ ↔ _
      by_cases hquote : c = '"'
      · rw [if_pos hquote] at hfits
        subst hquote
        rw [scanFrom_quote, atomsFrom_quote, kept, if_neg (by decide), if_pos rfl,
          Bool.and_eq_true, beq_iff_eq, Bool.xor_false]
        by_cases hsame : read = extra
        · subst hsame
          subst htotal
          rw [quoteRun_double, toggled_double, List.append_assoc, List.append_cancel_left_eq,
            List.append_cancel_left_eq, and_iff_right rfl]
          have := @ih false 0 0 0 0 0 true true hfits (Nat.le_refl 0) (Nat.le_refl 0) rfl id
            (fun _ => rfl) (toggled quoted run)
          rwa [Bool.xor_false] at this
        · exact iff_of_false (quoteRun_ne hfits (by omega) htotal _ _) fun h => hsame h.1
      · rw [if_neg hquote] at hfits
        obtain ⟨rfl, hfits⟩ := hfits
        obtain rfl : total = read + run := by omega
        rw [scanFrom_cons, atomsFrom, kept, if_neg hquote, if_neg hquote, if_neg hquote,
          Bool.xor_false]
        split_ifs with hslash hgap
        · have := @ih false 0 0 read (run + 1) (read + run + 1) true true hfits (Nat.le_refl 0)
            (Nat.zero_le _) (by omega) id (fun _ => rfl) quoted
          rwa [Bool.xor_false] at this
        · rw [slashes_append, List.append_cancel_left_eq, Bool.and_eq_true, beq_iff_eq]
          by_cases hsame : begun = started
          · rw [hsame, List.append_cancel_left_eq, and_iff_right rfl]
            exact @ih false 0 0 0 0 0 false false hfits (Nat.le_refl 0) (Nat.le_refl 0) rfl id
              nofun false
          · -- The template has begun an argument here, and the line has not.
            obtain ⟨rfl, rfl⟩ := starts_late hbegun hsame
            refine iff_of_false ?_ fun h => hsame h.1
            exact @scanFrom_behind_gap items false 0 0 0 0 0 false false hfits (Nat.le_refl 0)
              (Nat.le_refl 0) rfl id nofun [none] nofun (finish_gaps true) false
        · rw [slashes_append, List.append_cancel_left_eq, List.cons_inj_right]
          have := @ih false 0 0 0 0 0 true true hfits (Nat.le_refl 0) (Nat.le_refl 0) rfl id
            (fun _ => rfl) quoted
          rwa [Bool.xor_false] at this
    | mark =>
      obtain ⟨rfl, rfl, hfits⟩ := hfits
      rw [atomsFrom, slashes_append, kept]
      exact ih hfits (Nat.le_refl 0) (Nat.zero_le _) (by omega) (fun _ => rfl) hrun quoted
    | val c =>
      obtain ⟨hquote, rfl, hfits⟩ := hfits
      obtain rfl : total = read + run := by omega
      show scanFrom _ (read + run) begun (c :: lineOf items) = _ ↔ _
      rw [scanFrom_cons, atomsFrom, if_neg hquote, slashes_append, kept]
      split_ifs at hfits ⊢ with hslash hgap
      · subst hslash
        rw [← slashes_concat]
        exact ih hfits (Nat.zero_le _) (by omega) (by omega) id (fun _ => rfl) quoted
      · -- A blank of a value outside of quotes ends the argument that holds it.
        refine iff_of_false ?_ nofun
        rw [List.append_cancel_left_eq]
        rw [Bool.and_eq_true, Bool.not_eq_true'] at hgap
        cases begun with
        | true => exact fun h => nomatch (List.cons.inj h).1
        | false =>
          have := @scanFrom_behind_gap items inside 0 0 0 0 0 false true hfits (Nat.le_refl 0)
            (Nat.le_refl 0) rfl nofun nofun [some c] nofun
            (List.forall_mem_singleton.mpr (isGap_some hgap.1)) quoted
          rwa [hgap.2] at this
      · rw [List.append_cancel_left_eq, List.cons_inj_right]
        exact @ih inside 0 0 0 0 0 true true hfits (Nat.le_refl 0) (Nat.le_refl 0) rfl id
          (fun _ => rfl) quoted
    | extra =>
      obtain ⟨hlt, hfits⟩ := hfits
      show scanFrom _ total begun ('\\' :: lineOf items) = _ ↔ _
      obtain rfl : begun = true := hrun (by omega)
      obtain rfl : started = true := hbegun rfl
      rw [scanFrom_slash, atomsFrom, kept]
      exact ih hfits hlt howed (by omega) id (fun _ => rfl) quoted
    | wrap =>
      show scanFrom _ total begun ('"' :: lineOf items) = _ ↔ _
      rw [scanFrom_quote, atomsFrom, slashes_append, kept, Bool.and_eq_true, beq_iff_eq]
      by_cases hsame : read + run = extra
      · obtain rfl : total = extra + extra + 0 := by omega
        rw [hsame, quoteRun_double, toggled_double, and_iff_right rfl, List.append_assoc,
          List.append_cancel_left_eq]
        have := @ih (!inside) 0 0 0 0 0 true true hfits (Nat.le_refl 0) (Nat.le_refl 0) rfl id
          (fun _ => rfl) quoted
        rwa [Bool.xor_not] at this
      · exact iff_of_false (@quoteRun_ne items (!inside) (read + run) extra 0 total hfits
          (by omega) (by omega) _ quoted) fun h => hsame h.1

theorem textOf_piecesOf (args : List (List Token)) :
    textOf (piecesOf args) = piecesOf (args.map render) := by
  induction args with
  | nil => rfl
  | cons argument args ih =>
    have htext : textOf (argument.map some) = (render argument).map some := by
      rw [textOf, List.flatMap_map, render, List.map_flatMap]
    rw [piecesOf, List.flatMap_cons, List.map_cons, piecesOf, List.flatMap_cons, textOf_append,
      textOf_append, htext]
    exact congrArg (_ ++ ·) ih

/-- A line that values were put into is split like its template, with each value as one atom,
just if its marks are kept. -/
theorem split_eq_iff {tokens : List Token} {items : List Item} (h : Marked tokens items) :
    split (lineOf items) = (splitTokens tokens).map render ↔
      kept false false 0 0 0 false false items = true := by
  rw [← @scanFrom_eq_iff items false 0 0 0 0 0 false false h.fits (Nat.le_refl 0) (Nat.le_refl 0)
    rfl id nofun, Bool.xor_false, scanFrom, slashes, List.replicate_zero, List.nil_append,
    ← h.atoms, split, splitTokens, splitTokens]
  obtain ⟨args, hargs, -⟩ :=
    (@splitFrom_ended ((lineOf items).map .char) false 0 false nofun).pieces
  obtain ⟨args', hargs', -⟩ := (@splitFrom_ended tokens false 0 false nofun).pieces
  rw [hargs, hargs', arguments_piecesOf, arguments_piecesOf, textOf_piecesOf, textOf_piecesOf]
  refine ⟨congrArg piecesOf, fun heq => ?_⟩
  have := congrArg arguments heq
  rwa [arguments_piecesOf, arguments_piecesOf] at this

end BareLine.Lib.Argv
