import BareLine.Lib.Images
import BareLine.Lib.LineBreaks
import BareLine.Lib.Splice

/-!
# The lines of a text

A text is cut into its lines, each with its terminator, the last one without.  Where a line starts
in the bytes of the text is the length of the lines in front of it.
-/

namespace BareLine.Lib

open String (utf8Len utf8EncodeChar)

/-! ## §1 Lines -/

/-- No terminator, nor a part of one. -/
def NoBreak (text : List Char) : Prop := ∀ c ∈ text, c ≠ '\r' ∧ c ≠ '\n'

instance NoBreak.decidable (text : List Char) : Decidable (NoBreak text) :=
  List.decidableBAll (fun c => c ≠ '\r' ∧ c ≠ '\n') text

/-- A terminator in front of a text; CR is one unless LF follows. -/
def IsTerminator (ending rest : List Char) : Prop :=
  ending = ['\r', '\n'] ∨ ending = ['\n'] ∨ ending = ['\r'] ∧ rest.head? ≠ some '\n'

/-- The lines of a text. -/
inductive LinesOf : List Char → List (List Char) → Prop where
  | last {body : List Char} (quiet : NoBreak body) : LinesOf body [body]
  | ended {body ending rest : List Char} {ls : List (List Char)} (quiet : NoBreak body)
      (terminator : IsTerminator ending rest) (behind : LinesOf rest ls) :
      LinesOf (body ++ (ending ++ rest)) ((body ++ ending) :: ls)

theorem LinesOf.flatten {text : List Char} {ls : List (List Char)} (h : LinesOf text ls) :
    ls.flatten = text := by
  induction h with
  | last quiet => exact List.flatten_singleton
  | ended quiet terminator behind ih => rw [List.flatten_cons, ih, List.append_assoc]

/-! ## §2 Every text has lines -/

theorem IsTerminator.pos {ending rest : List Char} (h : IsTerminator ending rest) :
    0 < ending.length := by
  rcases h with rfl | rfl | ⟨rfl, -⟩ <;> decide

theorem IsTerminator.breaks {ending rest : List Char} (h : IsTerminator ending rest) :
    ∀ c ∈ ending, c = '\r' ∨ c = '\n' := by
  rcases h with rfl | rfl | ⟨rfl, -⟩ <;> simp

/-- Every line but the last holds its terminator. -/
theorem LinesOf.exists_break {text : List Char} {ls : List (List Char)} (h : LinesOf text ls)
    {n : Nat} {l : List Char} (hl : ls[n]? = some l) (hn : n + 1 ≠ ls.length) :
    ∃ c ∈ l, c = '\r' ∨ c = '\n' := by
  induction h generalizing n with
  | last quiet =>
    have hlt := (List.getElem?_eq_some_iff.mp hl).1
    rw [List.length_singleton] at hlt hn
    omega
  | ended quiet terminator behind ih =>
    cases n with
    | zero =>
      obtain rfl := Option.some.inj hl
      obtain ⟨c, tail, rfl⟩ := List.exists_cons_of_length_pos terminator.pos
      exact ⟨c, by simp, terminator.breaks c (by simp)⟩
    | succ n => exact ih hl (by simpa using hn)

/-! ## §3 Where lines start -/

/-- The bytes hold no terminator. -/
theorem NoBreak.bytes {text : List Char} (h : NoBreak text) :
    ∀ b ∈ encode text, b ≠ CR ∧ b ≠ LF := by
  refine fun b hb => ⟨fun hcr => ?_, fun hlf => ?_⟩ <;> obtain ⟨i, hi⟩ := List.mem_iff_getElem?.mp hb
  · rw [hcr] at hi
    obtain ⟨x, y, rfl, -⟩ := (getElem?_encode (show utf8EncodeChar '\r' = [CR] by decide)).mp hi
    exact (h '\r' (by simp)).1 rfl
  · rw [hlf] at hi
    obtain ⟨x, y, rfl, -⟩ := (getElem?_encode (show utf8EncodeChar '\n' = [LF] by decide)).mp hi
    exact (h '\n' (by simp)).2 rfl

/-- A line ends between two scalars. -/
theorem isScalarBoundary_of_endsLine {text : List Char} {q : Nat}
    (h : endsLine (encode text) q = true) : isScalarBoundary text q = true := by
  cases q with
  | zero => exact isScalarBoundary_zero _
  | succ q =>
    have hbyte : (encode text)[q]? = some LF ∨ (encode text)[q]? = some CR := by
      rw [endsLine, Bool.or_eq_true, Bool.and_eq_true, beq_iff_eq, beq_iff_eq] at h
      exact h.imp_right And.left
    rcases hbyte with hbyte | hbyte
    · obtain ⟨x, y, rfl, hx⟩ :=
        (getElem?_encode (show utf8EncodeChar '\n' = [LF] by decide)).mp hbyte
      exact isScalarBoundary_iff.mpr ⟨x ++ ['\n'], y, by simp, by rw [String.utf8Len_append, hx]; rfl⟩
    · obtain ⟨x, y, rfl, hx⟩ :=
        (getElem?_encode (show utf8EncodeChar '\r' = [CR] by decide)).mp hbyte
      exact isScalarBoundary_iff.mpr ⟨x ++ ['\r'], y, by simp, by rw [String.utf8Len_append, hx]; rfl⟩

/-- Some bytes that are a line in front of others. -/
structure LineInFront (k t : Bytes) : Prop where
  pos : 0 < k.length
  ends : endsLine (k ++ t) k.length = true
  inside : ∀ p, p < k.length → endsLine (k ++ t) p = false

theorem endsLine_behind (k t : Bytes) {q : Nat} (hq : 0 < q) :
    endsLine (k ++ t) (k.length + q) = endsLine t q := by
  obtain ⟨q, rfl⟩ := Nat.exists_eq_add_of_le' hq
  rw [← Nat.add_assoc, endsLine, endsLine, List.getElem?_append_right (Nat.le_add_right _ _),
    List.getElem?_append_right (by omega), Nat.add_sub_cancel_left, Nat.add_assoc,
    Nat.add_sub_cancel_left]

namespace LineInFront

variable {k t : Bytes}

theorem lineAt_inside (h : LineInFront k t) {p : Nat} (hp : p < k.length) :
    lineAt (k ++ t) p = 0 := by
  induction p with
  | zero => rfl
  | succ p ih => rw [lineAt, h.inside _ hp, ih (by omega)]; rfl

theorem lineAt_behind (h : LineInFront k t) (q : Nat) :
    lineAt (k ++ t) (k.length + q) = lineAt t q + 1 := by
  induction q with
  | zero =>
    obtain ⟨n, hn⟩ : ∃ n, k.length = n + 1 := Nat.exists_eq_add_of_le' h.pos
    have hends := h.ends
    have hinside := h.lineAt_inside (show n < k.length by omega)
    rw [Nat.add_zero, hn]
    rw [hn] at hends
    show lineAt (k ++ t) n + (if endsLine (k ++ t) (n + 1) = true then 1 else 0) = _
    rw [hends, hinside]
    rfl
  | succ q ih =>
    rw [← Nat.add_assoc, lineAt, ih, lineAt, Nat.add_assoc k.length, endsLine_behind k t (by omega)]
    omega

/-- The lines behind the first one are those of what is behind it. -/
theorem startsAt (h : LineInFront k t) {n p : Nat} : StartsAt (k ++ t) n p ↔
    n = 0 ∧ p = 0 ∨ ∃ m q, n = m + 1 ∧ p = k.length + q ∧ StartsAt t m q := by
  refine or_congr Iff.rfl ⟨?_, ?_⟩
  · rintro ⟨hends, rfl⟩
    have hle : k.length ≤ p := by
      by_contra hlt
      rw [h.inside p (by omega)] at hends
      exact nomatch hends
    obtain ⟨q, rfl⟩ := Nat.exists_eq_add_of_le hle
    refine ⟨_, q, h.lineAt_behind q, rfl, ?_⟩
    cases q with
    | zero => exact .inl ⟨rfl, rfl⟩
    | succ q =>
      rw [endsLine_behind k t (by omega)] at hends
      exact .inr ⟨hends, rfl⟩
  · rintro ⟨m, q, rfl, rfl, hstarts⟩
    refine ⟨?_, by rw [h.lineAt_behind, hstarts.lineAt_eq]⟩
    rcases hstarts with ⟨-, rfl⟩ | ⟨hends, -⟩
    · exact h.ends
    · cases q with
      | zero => exact nomatch hends
      | succ q =>
        rw [endsLine_behind k t (by omega)]
        exact hends

end LineInFront

/-- A line with its terminator is one in front of what follows. -/
theorem lineInFront {body ending rest : List Char} (hbody : NoBreak body)
    (hending : IsTerminator ending rest) :
    LineInFront (encode (body ++ ending)) (encode rest) := by
  have htext : encode (body ++ ending) ++ encode rest =
      encode body ++ (encode ending ++ encode rest) := by
    rw [encode_append, List.append_assoc]
  have hlength : (encode (body ++ ending)).length =
      (encode body).length + (encode ending).length := by
    rw [encode_append, List.length_append]
  have hinside : ∀ (x : Bytes) p, p ≤ (encode body).length →
      endsLine (encode body ++ x) p = false := by
    intro x p hp
    cases p with
    | zero => rfl
    | succ p =>
      have hget : (encode body ++ x)[p]? = (encode body)[p]? := List.getElem?_append_left hp
      rw [endsLine, hget, List.getElem?_eq_getElem hp]
      obtain ⟨hcr, hlf⟩ := hbody.bytes _ (List.getElem_mem hp)
      simp [hcr, hlf]
  -- behind the body the bytes of the terminator decide
  have hbehind : ∀ (x : Bytes) q, endsLine (encode body ++ x) ((encode body).length + (q + 1)) =
      endsLine x (q + 1) := fun x q => endsLine_behind _ x (Nat.succ_pos q)
  have hends : endsLine (encode ending ++ encode rest) (encode ending).length = true ∧
      ∀ q, q < (encode ending).length → endsLine (encode ending ++ encode rest) q = false := by
    rcases hending with rfl | rfl | ⟨rfl, hhead⟩
    · have hbytes : encode ['\r', '\n'] = [CR, LF] := by decide
      rw [hbytes]
      refine ⟨rfl, fun q hq => ?_⟩
      obtain rfl | rfl : q = 0 ∨ q = 1 := by
        rw [List.length_cons, List.length_singleton] at hq
        omega
      · rfl
      · rfl
    · have hbytes : encode ['\n'] = [LF] := by decide
      rw [hbytes]
      refine ⟨rfl, fun q hq => ?_⟩
      rw [Nat.lt_one_iff.mp hq]
      rfl
    · have hbytes : encode ['\r'] = [CR] := by decide
      rw [hbytes]
      refine ⟨?_, fun q hq => ?_⟩
      · have hnext : (encode rest)[0]? ≠ some LF := by
          intro hlf
          obtain ⟨x, y, rfl, hx⟩ :=
            (getElem?_encode (show utf8EncodeChar '\n' = [LF] by decide)).mp hlf
          cases x with
          | nil => exact hhead rfl
          | cons c x =>
            have := Char.utf8Size_pos c
            rw [String.utf8Len_cons] at hx
            omega
        simp [endsLine, hnext]
      · rw [Nat.lt_one_iff.mp hq]
        rfl
  have hpos : 0 < (encode ending).length := by
    rcases hending with rfl | rfl | ⟨rfl, -⟩ <;> decide
  refine ⟨by omega, ?_, fun p hp => ?_⟩
  · rw [htext, hlength]
    obtain ⟨n, hn⟩ := Nat.exists_eq_add_of_le' hpos
    rw [hn, hbehind, ← hn]
    exact hends.1
  · rw [htext]
    rcases Nat.lt_or_ge (encode body).length p with hlt | hge
    · obtain ⟨q, rfl⟩ := Nat.exists_eq_add_of_lt hlt
      rw [Nat.add_assoc, hbehind]
      exact hends.2 _ (by omega)
    · exact hinside _ p hge

/-- Where the lines of a text start. -/
theorem LinesOf.startsAt {text : List Char} {ls : List (List Char)} (h : LinesOf text ls)
    {n p : Nat} : StartsAt (encode text) n p ↔ n < ls.length ∧ p = utf8Len (ls.take n).flatten := by
  induction h generalizing n p with
  | @last body quiet =>
    have hquiet : ∀ q, endsLine (encode body) q = false := by
      intro q
      cases q with
      | zero => rfl
      | succ q =>
        cases hget : (encode body)[q]? with
        | none => simp [endsLine, hget]
        | some b =>
          obtain ⟨hcr, hlf⟩ := quiet.bytes b (List.mem_of_getElem? hget)
          simp [endsLine, hget, hcr, hlf]
    rw [StartsAt, hquiet p, List.length_singleton, Nat.lt_one_iff]
    refine ⟨fun hstarts => ?_, fun hat => .inl ⟨hat.1, by rw [hat.2, hat.1]; rfl⟩⟩
    obtain ⟨rfl, rfl⟩ := hstarts.resolve_right fun hends => (by cases hends.1)
    exact ⟨rfl, rfl⟩
  | @ended body ending rest ls quiet terminator behind ih =>
    rw [← List.append_assoc, encode_append, (lineInFront quiet terminator).startsAt]
    simp only [ih, List.length_cons, length_encode]
    constructor
    · rintro (⟨rfl, rfl⟩ | ⟨m, q, rfl, rfl, hm, rfl⟩)
      · exact ⟨Nat.succ_pos _, rfl⟩
      · refine ⟨by omega, ?_⟩
        simp only [List.take_succ_cons, List.flatten_cons, String.utf8Len_append]
    · rintro ⟨hn, rfl⟩
      cases n with
      | zero => exact .inl ⟨rfl, rfl⟩
      | succ m =>
        refine .inr ⟨m, _, rfl, ?_, by omega, rfl⟩
        simp only [List.take_succ_cons, List.flatten_cons, String.utf8Len_append]

/-! ## §4 Rewriting lines -/

/-- A line is rewritten in front of its terminator, and not to nothing. -/
def KeepsLine (l l' : List Char) : Prop :=
  ∀ body ending, l = body ++ ending → NoBreak body → (∀ c ∈ ending, c = '\r' ∨ c = '\n') →
    ∃ body', NoBreak body' ∧ l' = body' ++ ending ∧ (body' = [] → body = [])

theorem KeepsLine.refl (l : List Char) : KeepsLine l l :=
  fun body _ hl hbody _ => ⟨body, hbody, hl, id⟩

/-- A text in front of its terminator starts with LF just if it is empty. -/
theorem NoBreak.head {body ending : List Char} (h : NoBreak body) (rest : List Char)
    (hhead : (body ++ ending ++ rest).head? = some '\n') : body = [] := by
  cases body with
  | nil => rfl
  | cons c body => exact absurd (Option.some.inj hhead) (h c (List.mem_cons_self ..)).2

/-- The rewritten lines are lines, and start with LF only where the lines did. -/
theorem LinesOf.rewritten {text : List Char} {ls : List (List Char)} (h : LinesOf text ls)
    {f : Nat → List Char → List Char} (hf : ∀ n l, ls[n]? = some l → KeepsLine l (f n l)) :
    LinesOf (ls.mapIdx f).flatten (ls.mapIdx f) ∧
      ((ls.mapIdx f).flatten.head? = some '\n' → text.head? = some '\n') := by
  induction h generalizing f with
  | @last body quiet =>
    obtain ⟨body', hquiet, hbody, -⟩ := hf 0 body rfl body [] (List.append_nil _).symm quiet nofun
    rw [List.append_nil] at hbody
    rw [List.mapIdx_cons, List.mapIdx_nil, List.flatten_singleton, hbody]
    refine ⟨.last hquiet, fun hhead => ?_⟩
    have hnil := @NoBreak.head body' [] hquiet [] (by simpa using hhead)
    rw [hnil] at hhead
    exact nomatch hhead
  | @ended body ending rest ls quiet terminator behind ih =>
    obtain ⟨body', hquiet, hbody, hempty⟩ := hf 0 _ rfl body ending rfl quiet terminator.breaks
    obtain ⟨hlines, hrest⟩ := @ih (fun n => f (n + 1)) fun n l hl => hf (n + 1) l hl
    have hterminator : IsTerminator ending (ls.mapIdx fun n => f (n + 1)).flatten :=
      terminator.imp_right fun h => h.imp_right fun h => ⟨h.1, fun hhead => h.2 (hrest hhead)⟩
    rw [List.mapIdx_cons, List.flatten_cons, hbody, List.append_assoc]
    refine ⟨.ended hquiet hterminator hlines, fun hhead => ?_⟩
    rw [← List.append_assoc] at hhead
    obtain rfl := hquiet.head _ hhead
    obtain rfl := hempty rfl
    obtain ⟨c, tail, rfl⟩ := List.exists_cons_of_length_pos terminator.pos
    exact hhead

/-- The changes of some lines, the first of which starts at an offset. -/
def changesFrom (E : Nat → Nat → List Char → List (Change UInt8)) :
    Nat → List (List Char) → List (Change UInt8)
  | _, [] => []
  | offset, l :: ls =>
    E 0 offset l ++ changesFrom (fun n => E (n + 1)) (offset + utf8Len l) ls

/-- Lines changed each for itself are changed together. -/
theorem patch_changesFrom {E : Nat → Nat → List Char → List (Change UInt8)}
    {f : Nat → List Char → List Char} {offset : Nat} {ls : List (List Char)}
    (h : ∀ n c l, ls[n]? = some l → Patch c (E n c l) (encode l) (encode (f n l))) :
    Patch offset (changesFrom E offset ls) (encode ls.flatten) (encode (ls.mapIdx f).flatten) := by
  induction ls generalizing E f offset with
  | nil => exact rfl
  | cons l ls ih =>
    have hrest := @ih (fun n => E (n + 1)) (fun n => f (n + 1)) (offset + utf8Len l)
      fun n c l' hl' => h (n + 1) c l' hl'
    rw [changesFrom, List.mapIdx_cons, List.flatten_cons, List.flatten_cons, encode_append,
      encode_append]
    exact (h 0 offset l rfl).append (by rwa [length_encode])

/-- The changes of the lines, each where its line starts. -/
theorem changesFrom_eq (E : Nat → Nat → List Char → List (Change UInt8)) (offset : Nat)
    (ls : List (List Char)) : changesFrom E offset ls = (List.range ls.length).flatMap
      fun n => E n (offset + utf8Len (ls.take n).flatten) (ls.getD n []) := by
  induction ls generalizing E offset with
  | nil => rfl
  | cons l ls ih =>
    rw [changesFrom, ih, List.length_cons, List.range_succ_eq_map, List.flatMap_cons,
      List.flatMap_map]
    simp [Nat.add_assoc]

/-- Where only some lines change, those are the changes. -/
theorem changesFrom_selected {E : Nat → Nat → List Char → List (Change UInt8)}
    {selected : List Nat} {ls : List (List Char)} (offset : Nat)
    (hsorted : selected.Pairwise (· < ·)) (hlt : ∀ n ∈ selected, n < ls.length)
    (hidle : ∀ n c l, n ∉ selected → E n c l = []) : changesFrom E offset ls =
      selected.flatMap fun n => E n (offset + utf8Len (ls.take n).flatten) (ls.getD n []) := by
  have hfilter : (List.range ls.length).filter (fun n => decide (n ∈ selected)) = selected := by
    refine List.Perm.eq_of_pairwise (fun a b _ _ hab hba => absurd hab (Nat.lt_asymm hba))
      (List.pairwise_lt_range.filter _) hsorted ?_
    refine (List.perm_ext_iff_of_nodup (List.nodup_range.filter _)
      (hsorted.imp Nat.ne_of_lt)).mpr fun n => ?_
    rw [List.mem_filter, List.mem_range, decide_eq_true_iff]
    exact ⟨And.right, fun hn => ⟨hlt n hn, hn⟩⟩
  have hskip : ∀ (g : Nat → List (Change UInt8)) (ns : List Nat),
      (∀ n, n ∉ selected → g n = []) →
      ns.flatMap g = (ns.filter fun n => decide (n ∈ selected)).flatMap g := by
    intro g ns hg
    induction ns with
    | nil => rfl
    | cons n ns ih =>
      rw [List.flatMap_cons, List.filter_cons, ih]
      split_ifs with hn
      · rw [List.flatMap_cons]
      · rw [hg n (by simpa using hn), List.nil_append]
  rw [changesFrom_eq, hskip _ _ fun n hn => hidle n _ _ hn, hfilter]

end BareLine.Lib
