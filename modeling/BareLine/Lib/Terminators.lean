import BareLine.Lib.LineBreaks
import BareLine.Lib.Splice

/-!
# Lines and their terminators

A text read as bytes and terminators, each terminator with its offset, and the lines that the
terminators end.  Rewriting some of the terminators is a batch of splices.  It keeps the lines
apart unless a CR comes to stand in front of an LF.
-/

namespace BareLine.Lib.Terminators

/-! ## §1 Marks -/

inductive Eol where
  | lf
  | crlf
  | cr
  deriving DecidableEq, Repr

namespace Eol

def bytes : Eol → Bytes
  | lf => [LF]
  | crlf => [CR, LF]
  | cr => [CR]

def len (e : Eol) : Nat := e.bytes.length

theorem len_pos (e : Eol) : 0 < e.len := by
  cases e <;> decide

/-- The terminator stays what it is in front of the text. -/
def Splits (e : Eol) (t : Bytes) : Prop := e = cr → t.head? ≠ some LF

theorem splits_of_ne {e : Eol} {t : Bytes} (h : e ≠ cr) : e.Splits t := fun he => absurd he h

end Eol

/-- A byte of a line, or a terminator and where it starts. -/
inductive Mark where
  | byte (b : UInt8)
  | eol (start : Nat) (e : Eol)
  deriving DecidableEq, Repr

def Mark.bytes : Mark → Bytes
  | byte b => [b]
  | eol _ e => e.bytes

/-- The marks of a text that starts at an offset. -/
def marks : Nat → Bytes → List Mark
  | _, [] => []
  | off, [b] =>
    if b = CR then [.eol off .cr] else if b = LF then [.eol off .lf] else [.byte b]
  | off, b :: c :: t =>
    if b = CR then
      if c = LF then .eol off .crlf :: marks (off + 2) t
      else .eol off .cr :: marks (off + 1) (c :: t)
    else if b = LF then .eol off .lf :: marks (off + 1) (c :: t)
    else .byte b :: marks (off + 1) (c :: t)

def render (ms : List Mark) : Bytes := ms.flatMap Mark.bytes

@[simp] theorem render_nil : render [] = [] := rfl

@[simp] theorem render_cons (m : Mark) (ms : List Mark) :
    render (m :: ms) = m.bytes ++ render ms := rfl

/-! ## §2 One mark after the other -/

@[simp] theorem marks_nil (off : Nat) : marks off [] = [] := rfl

theorem marks_eol {e : Eol} {t : Bytes} (h : e.Splits t) (off : Nat) :
    marks off (e.bytes ++ t) = .eol off e :: marks (off + e.len) t := by
  cases e with
  | lf => cases t <;> rfl
  | crlf => rfl
  | cr =>
    cases t with
    | nil => rfl
    | cons c t =>
      have hc : c ≠ LF := fun hc => h rfl (congrArg some hc)
      show marks off (CR :: c :: t) = _
      rw [marks, if_pos rfl, if_neg hc]
      rfl

theorem marks_byte {b : UInt8} (hcr : b ≠ CR) (hlf : b ≠ LF) (off : Nat) (t : Bytes) :
    marks off (b :: t) = .byte b :: marks (off + 1) t := by
  cases t with
  | nil => exact (if_neg hcr).trans (if_neg hlf)
  | cons c t => rw [marks, if_neg hcr, if_neg hlf]

/-- A text is empty, or starts with a terminator or with a byte of a line. -/
theorem text_induction {motive : Bytes → Prop} (nil : motive [])
    (eol : ∀ (e : Eol) t, e.Splits t → motive t → motive (e.bytes ++ t))
    (byte : ∀ b t, b ≠ CR → b ≠ LF → motive t → motive (b :: t)) (t : Bytes) : motive t := by
  induction hn : t.length using Nat.strongRecOn generalizing t with
  | ind n ih =>
    cases t with
    | nil => exact nil
    | cons b t =>
      rw [List.length_cons] at hn
      have htail := ih t.length (by omega) t rfl
      by_cases hcr : b = CR
      · subst hcr
        by_cases hlf : t.head? = some LF
        · obtain ⟨t', rfl⟩ : ∃ t', t = LF :: t' := by
            cases t with
            | nil => cases hlf
            | cons c t' => exact ⟨t', by rw [Option.some.inj hlf]⟩
          rw [List.length_cons] at hn
          exact eol .crlf t' (Eol.splits_of_ne (by decide)) (ih t'.length (by omega) t' rfl)
        · exact eol .cr t (fun _ => hlf) htail
      · by_cases hlf : b = LF
        · subst hlf
          exact eol .lf t (Eol.splits_of_ne (by decide)) htail
        · exact byte b t hcr hlf htail

theorem render_marks (off : Nat) (t : Bytes) : render (marks off t) = t := by
  induction t using text_induction generalizing off with
  | nil => rfl
  | eol e t h ih => rw [marks_eol h, render_cons, ih, Mark.bytes]
  | byte b t hcr hlf ih =>
    rw [marks_byte hcr hlf, render_cons, ih, Mark.bytes, List.singleton_append]

/-- No CR LF lies across the seam of two texts. -/
def Seam (t u : Bytes) : Prop := ¬ (t.getLast? = some CR ∧ u.head? = some LF)

theorem marks_append {t u : Bytes} (h : Seam t u) (off : Nat) :
    marks off (t ++ u) = marks off t ++ marks (off + t.length) u := by
  induction t using text_induction generalizing off with
  | nil => rfl
  | eol e t hsplits ih =>
    have hnext : e.Splits (t ++ u) := by
      rintro rfl hhead
      cases t with
      | nil => exact h ⟨rfl, hhead⟩
      | cons c t => exact hsplits rfl hhead
    have htail : Seam t u := by
      rintro ⟨hlast, hhead⟩
      exact h ⟨List.mem_getLast?_append_of_mem_getLast? hlast, hhead⟩
    rw [List.append_assoc, marks_eol hnext, marks_eol hsplits, ih htail, List.cons_append,
      List.length_append, Eol.len, Nat.add_assoc]
  | byte b t hcr hlf ih =>
    have htail : Seam t u := by
      rintro ⟨hlast, hhead⟩
      exact h ⟨List.mem_getLast?_cons hlast, hhead⟩
    rw [List.cons_append, marks_byte hcr hlf, marks_byte hcr hlf, ih htail, List.cons_append,
      List.length_cons, Nat.add_assoc, Nat.add_comm 1]

/-! ## §3 Where terminators stand -/

/-- The terminator stands at the place. -/
def EolAt (t : Bytes) (p : Nat) : Eol → Prop
  | .crlf => t[p]? = some CR ∧ t[p + 1]? = some LF
  | .cr => t[p]? = some CR ∧ t[p + 1]? ≠ some LF
  | .lf => t[p]? = some LF ∧ ∀ q, p = q + 1 → t[q]? ≠ some CR

/-- A terminator behind the first one of a text. -/
theorem eolAt_behind {e e' : Eol} {t : Bytes} {p : Nat} (h : e.Splits t) (hp : e.len ≤ p) :
    EolAt (e.bytes ++ t) p e' ↔ EolAt t (p - e.len) e' := by
  obtain ⟨q, rfl⟩ := Nat.exists_eq_add_of_le hp
  have hget : ∀ i, (e.bytes ++ t)[e.len + i]? = t[i]? := fun i => by
    rw [Eol.len, List.getElem?_append_right (Nat.le_add_right _ _), Nat.add_sub_cancel_left]
  rw [Nat.add_sub_cancel_left]
  cases e' with
  | crlf => rw [EolAt, EolAt, hget, Nat.add_assoc, hget]
  | cr => rw [EolAt, EolAt, hget, Nat.add_assoc, hget]
  | lf =>
    rw [EolAt, EolAt, hget]
    refine and_congr_right fun hlf => ⟨fun hbefore i hi => ?_, fun hbefore i hi => ?_⟩
    · have := hbefore (e.len + i) (by omega)
      rwa [hget] at this
    · cases q with
      | succ q =>
        have := hbefore q rfl
        rw [show i = e.len + q by omega, hget]
        exact this
      | zero =>
        -- The last byte of the first terminator is a CR just if that one is no pair.
        cases e with
        | lf =>
          obtain rfl : i = 0 := by simp only [Eol.len, Eol.bytes] at hi; simpa using hi.symm
          exact fun h => cr_ne_lf (Option.some.inj h).symm
        | crlf =>
          obtain rfl : i = 1 := by simp only [Eol.len, Eol.bytes] at hi; simpa using hi.symm
          exact fun h => cr_ne_lf (Option.some.inj h).symm
        | cr =>
          rw [← List.head?_eq_getElem?] at hlf
          exact absurd hlf (h rfl)

theorem eolAt_head {e e' : Eol} {t : Bytes} (h : e.Splits t) :
    EolAt (e.bytes ++ t) 0 e' ↔ e' = e := by
  have hcr : e = .cr → t[0]? ≠ some LF := fun he => List.head?_eq_getElem? ▸ h he
  cases e <;> cases e' <;>
    simp_all [EolAt, Eol.bytes, cr_ne_lf, cr_ne_lf.symm]

/-- No terminator starts inside another one. -/
theorem not_eolAt_inside {e e' : Eol} {t : Bytes} {p : Nat} (hp : 0 < p) (hlt : p < e.len) :
    ¬ EolAt (e.bytes ++ t) p e' := by
  cases e with
  | lf | cr => exact absurd hlt (Nat.not_lt.mpr hp)
  | crlf =>
    obtain rfl : p = 1 := Nat.le_antisymm (Nat.le_of_lt_succ hlt) hp
    cases e' with
    | lf => exact fun h => h.2 0 rfl rfl
    | crlf | cr => exact fun h => cr_ne_lf (Option.some.inj h.1).symm

theorem eolAt_byte {e : Eol} {b : UInt8} {t : Bytes} {p : Nat} (hcr : b ≠ CR) (hlf : b ≠ LF) :
    EolAt (b :: t) p e ↔ 0 < p ∧ EolAt t (p - 1) e := by
  cases p with
  | zero =>
    refine ⟨fun h => ?_, fun h => absurd h.1 (Nat.lt_irrefl 0)⟩
    cases e with
    | lf => exact absurd (Option.some.inj h.1) hlf
    | crlf | cr => exact absurd (Option.some.inj h.1) hcr
  | succ q =>
    rw [Nat.add_sub_cancel, and_iff_right (Nat.succ_pos q)]
    cases e with
    | crlf | cr => rw [EolAt, EolAt, List.getElem?_cons_succ, List.getElem?_cons_succ]
    | lf =>
      rw [EolAt, EolAt, List.getElem?_cons_succ]
      refine and_congr_right fun _ => ⟨fun h i hi => ?_, fun h i hi => ?_⟩
      · subst hi
        exact h (i + 1) rfl
      · obtain rfl := Nat.succ.inj hi
        cases q with
        | zero => exact fun h => hcr (Option.some.inj h)
        | succ q => exact h q rfl

/-- Marks of terminators are the places where terminators stand. -/
theorem mem_marks {t : Bytes} {off p : Nat} {e : Eol} :
    .eol p e ∈ marks off t ↔ off ≤ p ∧ EolAt t (p - off) e := by
  induction t using text_induction generalizing off with
  | nil =>
    rw [marks_nil]
    refine ⟨fun h => (nomatch h), fun ⟨_, h⟩ => ?_⟩
    cases e <;> exact nomatch h.1
  | eol e₀ t hsplits ih =>
    rw [marks_eol hsplits, List.mem_cons, ih, Mark.eol.injEq]
    have hlen := e₀.len_pos
    rcases Nat.lt_or_ge p (off + e₀.len) with hlt | hge
    · constructor
      · rintro (⟨rfl, rfl⟩ | ⟨hle, -⟩)
        · rw [Nat.sub_self, eolAt_head hsplits]
          exact ⟨Nat.le_refl _, rfl⟩
        · omega
      · rintro ⟨hle, h⟩
        rcases Nat.eq_or_lt_of_le hle with rfl | hoff
        · rw [Nat.sub_self, eolAt_head hsplits] at h
          exact Or.inl ⟨rfl, h⟩
        · exact absurd h (not_eolAt_inside (by omega) (by omega))
    · have hp : EolAt (e₀.bytes ++ t) (p - off) e ↔ EolAt t (p - off - e₀.len) e :=
        eolAt_behind hsplits (by omega)
      rw [hp, Nat.sub_sub]
      constructor
      · rintro (⟨rfl, -⟩ | ⟨-, h⟩)
        · omega
        · exact ⟨by omega, h⟩
      · rintro ⟨-, h⟩
        exact Or.inr ⟨hge, h⟩
  | byte b t hcr hlf ih =>
    rw [marks_byte hcr hlf, List.mem_cons, ih, eolAt_byte hcr hlf, Nat.sub_sub]
    constructor
    · rintro (h | ⟨hle, h⟩)
      · cases h
      · exact ⟨by omega, by omega, h⟩
    · rintro ⟨-, hpos, h⟩
      exact Or.inr ⟨by omega, h⟩

theorem EolAt.le {t : Bytes} {p : Nat} {e : Eol} (h : EolAt t p e) : p + e.len ≤ t.length := by
  cases e with
  | crlf => exact (List.getElem?_eq_some_iff.mp h.2).1
  | cr | lf => exact (List.getElem?_eq_some_iff.mp h.1).1

theorem EolAt.unique {t : Bytes} {p : Nat} {e e' : Eol} (h : EolAt t p e) (h' : EolAt t p e') :
    e = e' := by
  cases e with
  | lf =>
    cases e' with
    | lf => rfl
    | crlf | cr => exact absurd (Option.some.inj (h'.1.symm.trans h.1)) cr_ne_lf
  | crlf =>
    cases e' with
    | lf => exact absurd (Option.some.inj (h.1.symm.trans h'.1)) cr_ne_lf
    | crlf => rfl
    | cr => exact absurd h.2 h'.2
  | cr =>
    cases e' with
    | lf => exact absurd (Option.some.inj (h.1.symm.trans h'.1)) cr_ne_lf
    | crlf => exact absurd h'.2 h.2
    | cr => rfl

/-- A terminator starts at every CR. -/
theorem exists_eolAt {t : Bytes} {p : Nat} (h : t[p]? = some CR) : ∃ e, EolAt t p e := by
  by_cases hlf : t[p + 1]? = some LF
  · exact ⟨.crlf, h, hlf⟩
  · exact ⟨.cr, h, hlf⟩

/-- A terminator ends behind every LF. -/
theorem exists_eolAt_behind {t : Bytes} {q : Nat} (h : t[q]? = some LF) :
    ∃ p e, EolAt t p e ∧ p + e.len = q + 1 := by
  cases q with
  | zero => exact ⟨0, .lf, ⟨h, fun _ hq => (nomatch hq)⟩, rfl⟩
  | succ q =>
    by_cases hcr : t[q]? = some CR
    · exact ⟨q, .crlf, ⟨hcr, h⟩, rfl⟩
    · exact ⟨q + 1, .lf, ⟨h, fun i hi => Nat.succ.inj hi ▸ hcr⟩, rfl⟩

/-- No terminator starts before another one has ended. -/
theorem EolAt.not_inside {t : Bytes} {p q : Nat} {e e' : Eol} (h : EolAt t p e)
    (h' : EolAt t q e') (hlt : p < q) : p + e.len ≤ q := by
  cases e with
  | lf | cr => exact hlt
  | crlf =>
    by_contra hin
    obtain rfl : q = p + 1 := by
      simp only [Eol.len, Eol.bytes, List.length_cons, List.length_nil] at hin
      omega
    cases e' with
    | lf => exact h'.2 p rfl h.1
    | crlf | cr => exact absurd (Option.some.inj (h'.1.symm.trans h.2)) cr_ne_lf

/-- A text may be cut in front of a terminator. -/
theorem EolAt.seam_before {t : Bytes} {p : Nat} {e : Eol} (h : EolAt t p e) :
    Seam (t.take p) (t.drop p) := by
  rintro ⟨hlast, hhead⟩
  rw [List.head?_drop] at hhead
  cases e with
  | crlf | cr => exact cr_ne_lf (Option.some.inj (h.1.symm.trans hhead))
  | lf =>
    cases p with
    | zero => cases hlast
    | succ q =>
      have hle := h.le
      rw [List.getLast?_eq_getElem?, List.length_take, Nat.min_eq_left (by omega),
        Nat.add_sub_cancel, List.getElem?_take_of_lt (Nat.lt_succ_self q)] at hlast
      exact h.2 q rfl hlast

/-- A text may be cut behind a terminator. -/
theorem EolAt.seam_behind {t : Bytes} {p : Nat} {e : Eol} (h : EolAt t p e) :
    Seam (t.take (p + e.len)) (t.drop (p + e.len)) := by
  rintro ⟨hlast, hhead⟩
  have hle := h.le
  have hpos := e.len_pos
  rw [List.head?_drop] at hhead
  rw [List.getLast?_eq_getElem?, List.length_take, Nat.min_eq_left hle,
    List.getElem?_take_of_lt (by omega)] at hlast
  cases e with
  | cr => exact h.2 hhead
  | lf => exact cr_ne_lf (Option.some.inj (hlast.symm.trans h.1))
  | crlf => exact cr_ne_lf (Option.some.inj (hlast.symm.trans h.2))

theorem mem_marks_le {t : Bytes} {off p : Nat} {e : Eol} (h : .eol p e ∈ marks off t) :
    off ≤ p ∧ p + e.len ≤ off + t.length := by
  obtain ⟨hle, hat⟩ := mem_marks.mp h
  have := hat.le
  exact ⟨hle, by omega⟩

/-! ## §4 Rewriting terminators -/

/-- Splices behind a front leave it alone. -/
theorem spliceFrom_append {α : Type*} {c n : Nat} {k t : List α} {es : List (Splice α)}
    (h : Ordered (c + k.length) es n) :
    spliceFrom c es (k ++ t) = k ++ spliceFrom (c + k.length) es t := by
  cases es with
  | nil => rfl
  | cons e es =>
    obtain ⟨hc, hle, -⟩ := h
    obtain ⟨i, hi⟩ := Nat.exists_eq_add_of_le hc
    obtain ⟨j, hj⟩ := Nat.exists_eq_add_of_le (Nat.le_trans hc hle)
    rw [spliceFrom, spliceFrom, hi, hj, Nat.add_assoc, Nat.add_assoc, Nat.add_sub_cancel_left,
      Nat.add_sub_cancel_left, List.take_length_add_append, List.drop_length_add_append,
      ← Nat.add_assoc, ← Nat.add_assoc, Nat.add_sub_cancel_left, Nat.add_sub_cancel_left]
    simp only [List.append_assoc]

section Rewriting

variable (chosen : Nat → Eol → Bool) (target : Eol)

/-- The terminator that stands there afterwards. -/
def renewed (p : Nat) (e : Eol) : Eol := if chosen p e then target else e

def Mark.renew : Mark → Mark
  | byte b => byte b
  | eol p e => eol p (renewed chosen target p e)

/-- The text with each chosen terminator rewritten to the target. -/
def rewriteEols (off : Nat) (t : Bytes) : Bytes :=
  render ((marks off t).map (Mark.renew chosen target))

def Mark.change : Mark → Option (Splice UInt8)
  | byte _ => none
  | eol p e => if chosen p e ∧ e ≠ target then some ⟨p, p + e.len, target.bytes⟩ else none

/-- One splice for each chosen terminator that is not the target yet. -/
def eolChanges (off : Nat) (t : Bytes) : List (Splice UInt8) :=
  (marks off t).filterMap (Mark.change chosen target)

variable {chosen target} {off : Nat} {t : Bytes}

theorem eolChanges_eol {e : Eol} (h : e.Splits t) :
    eolChanges chosen target off (e.bytes ++ t) =
      if chosen off e ∧ e ≠ target then
        ⟨off, off + e.len, target.bytes⟩ :: eolChanges chosen target (off + e.len) t
      else eolChanges chosen target (off + e.len) t := by
  rw [eolChanges, marks_eol h, List.filterMap_cons, Mark.change]
  split_ifs <;> rfl

theorem eolChanges_byte {b : UInt8} (hcr : b ≠ CR) (hlf : b ≠ LF) :
    eolChanges chosen target off (b :: t) = eolChanges chosen target (off + 1) t := by
  rw [eolChanges, marks_byte hcr hlf, List.filterMap_cons, Mark.change]
  rfl

theorem rewriteEols_eol {e : Eol} (h : e.Splits t) :
    rewriteEols chosen target off (e.bytes ++ t) =
      (renewed chosen target off e).bytes ++ rewriteEols chosen target (off + e.len) t := by
  rw [rewriteEols, marks_eol h, List.map_cons, render_cons]
  rfl

theorem rewriteEols_byte {b : UInt8} (hcr : b ≠ CR) (hlf : b ≠ LF) :
    rewriteEols chosen target off (b :: t) = b :: rewriteEols chosen target (off + 1) t := by
  rw [rewriteEols, marks_byte hcr hlf, List.map_cons, render_cons]
  rfl

/-- Only what is done with terminators other than the target counts. -/
theorem rewriteEols_congr (chosen' : Nat → Eol → Bool)
    (h : ∀ p e, .eol p e ∈ marks off t → e ≠ target → chosen p e = chosen' p e) :
    rewriteEols chosen target off t = rewriteEols chosen' target off t := by
  rw [rewriteEols, rewriteEols]
  congr 1
  refine List.map_congr_left fun m hm => ?_
  cases m with
  | byte b => rfl
  | eol p e =>
    rw [Mark.renew, Mark.renew, renewed, renewed]
    by_cases he : e = target
    · subst he
      rw [ite_self, ite_self]
    · rw [h p e hm he]

theorem rewriteEols_none {t : Bytes} : rewriteEols (fun _ _ => false) target off t = t := by
  rw [rewriteEols]
  have hid : ∀ m, Mark.renew (fun _ _ => false) target m = m := fun m => by cases m <;> rfl
  rw [List.map_id'' hid, render_marks]

/-- Rewriting every terminator does not look at offsets. -/
theorem rewriteEols_all (off : Nat) :
    rewriteEols (fun _ _ => true) target off t = rewriteEols (fun _ _ => true) target 0 t := by
  induction t using text_induction generalizing off with
  | nil => rfl
  | eol e t h ih => rw [rewriteEols_eol h, rewriteEols_eol h, ih, ih (0 + e.len)]; rfl
  | byte b t hcr hlf ih => rw [rewriteEols_byte hcr hlf, rewriteEols_byte hcr hlf, ih, ih (0 + 1)]

theorem eolChanges_ordered :
    Ordered off (eolChanges chosen target off t) (off + t.length) := by
  induction t using text_induction generalizing off with
  | nil => exact Nat.le_refl _
  | eol e t h ih =>
    have htail : Ordered (off + e.len) (eolChanges chosen target (off + e.len) t)
        (off + (e.bytes ++ t).length) := by
      rw [List.length_append, ← Nat.add_assoc]
      exact ih
    rw [eolChanges_eol h]
    split_ifs
    · exact ⟨Nat.le_refl _, Nat.le_add_right _ _, htail⟩
    · exact htail.mono (Nat.le_add_right _ _)
  | byte b t hcr hlf ih =>
    rw [eolChanges_byte hcr hlf, List.length_cons, Nat.add_comm t.length, ← Nat.add_assoc]
    exact Ordered.mono ih (Nat.le_add_right _ _)

/-- The splices of a rewriting, and where they come from. -/
theorem mem_eolChanges {c : Splice UInt8} :
    c ∈ eolChanges chosen target off t ↔
      ∃ p e, .eol p e ∈ marks off t ∧ chosen p e = true ∧ e ≠ target ∧
        c = ⟨p, p + e.len, target.bytes⟩ := by
  rw [eolChanges, List.mem_filterMap]
  constructor
  · rintro ⟨m, hm, hc⟩
    cases m with
    | byte b => cases hc
    | eol p e =>
      rw [Mark.change, Option.ite_none_right_eq_some] at hc
      exact ⟨p, e, hm, hc.1.1, hc.1.2, (Option.some.inj hc.2).symm⟩
  · rintro ⟨p, e, hm, hchosen, hne, rfl⟩
    exact ⟨.eol p e, hm, if_pos ⟨hchosen, hne⟩⟩

theorem eolChanges_sorted :
    (eolChanges chosen target off t).Pairwise fun a b => a.start < b.start := by
  have hordered : Ordered off (eolChanges chosen target off t) _ := eolChanges_ordered
  refine hordered.pairwise.imp_of_mem fun {a b} ha _ hle => ?_
  obtain ⟨p, e, -, -, -, rfl⟩ := mem_eolChanges.mp ha
  have := e.len_pos
  exact Nat.lt_of_lt_of_le (Nat.lt_add_of_pos_right this) hle

/-- Two rewritings with the same splices in some order are the same. -/
theorem eolChanges_eq {chosen' : Nat → Eol → Bool} {off' : Nat} {t' : Bytes}
    (h : ∀ c, c ∈ eolChanges chosen target off t ↔ c ∈ eolChanges chosen' target off' t') :
    eolChanges chosen target off t = eolChanges chosen' target off' t' := by
  have : Std.Irrefl fun a b : Splice UInt8 => a.start < b.start :=
    ⟨fun a => Nat.lt_irrefl a.start⟩
  have : Std.Asymm fun a b : Splice UInt8 => a.start < b.start :=
    ⟨fun a b hab hba => Nat.lt_asymm hab hba⟩
  exact List.Pairwise.eq_of_mem_iff eolChanges_sorted eolChanges_sorted h

/-- The splices rewrite the chosen terminators. -/
theorem splice_eolChanges :
    spliceFrom off (eolChanges chosen target off t) t = rewriteEols chosen target off t := by
  induction t using text_induction generalizing off with
  | nil => rfl
  | eol e t h ih =>
    rw [eolChanges_eol h, rewriteEols_eol h, renewed]
    split_ifs with hchange hchosen hchosen
    · rw [spliceFrom, Nat.sub_self, List.take_zero, List.nil_append, Nat.add_sub_cancel_left,
        Eol.len, List.drop_left, ← Eol.len, ih]
    · exact absurd hchange.1 hchosen
    · obtain rfl : e = target := by
        by_contra hne
        exact hchange ⟨hchosen, hne⟩
      rw [Eol.len, spliceFrom_append (eolChanges_ordered.mono (Nat.le_refl _)), ← Eol.len, ih]
    · rw [Eol.len, spliceFrom_append (eolChanges_ordered.mono (Nat.le_refl _)), ← Eol.len, ih]
  | byte b t hcr hlf ih =>
    rw [eolChanges_byte hcr hlf, rewriteEols_byte hcr hlf, ← ih]
    exact spliceFrom_append (k := [b]) eolChanges_ordered

/-! ## §5 Lines -/

/-- The lines that terminators end, each with its terminator, and what stands behind the last
one. -/
structure Lined where
  ended : List (Bytes × Eol)
  rest : Bytes
  deriving DecidableEq, Repr

namespace Lined

/-- A byte in front of the first line. -/
def push (b : UInt8) : Lined → Lined
  | ⟨[], rest⟩ => ⟨[], b :: rest⟩
  | ⟨(content, e) :: ended, rest⟩ => ⟨(b :: content, e) :: ended, rest⟩

/-- An empty line in front. -/
def cut (e : Eol) (l : Lined) : Lined := ⟨([], e) :: l.ended, l.rest⟩

end Lined

def linesOf : List Mark → Lined
  | [] => ⟨[], []⟩
  | .byte b :: ms => (linesOf ms).push b
  | .eol _ e :: ms => (linesOf ms).cut e

/-- The lines of a text. -/
def lines (t : Bytes) : Lined := linesOf (marks 0 t)

/-- Where the marks start makes no difference to the lines. -/
theorem linesOf_marks (off : Nat) (t : Bytes) : linesOf (marks off t) = lines t := by
  induction t using text_induction generalizing off with
  | nil => rfl
  | eol e t h ih => rw [lines, marks_eol h, marks_eol h, linesOf, linesOf, ih, ih]
  | byte b t hcr hlf ih =>
    rw [lines, marks_byte hcr hlf, marks_byte hcr hlf, linesOf, linesOf, ih, ih]

theorem lines_eol {e : Eol} {t : Bytes} (h : e.Splits t) :
    lines (e.bytes ++ t) = (lines t).cut e := by
  rw [lines, marks_eol h, linesOf, linesOf_marks]

theorem lines_byte {b : UInt8} (hcr : b ≠ CR) (hlf : b ≠ LF) (t : Bytes) :
    lines (b :: t) = (lines t).push b := by
  rw [lines, marks_byte hcr hlf, linesOf, linesOf_marks]

/-! ## §6 Rewritten lines -/

/-- The same lines, the first of which starts at an offset, with each chosen terminator the
target. -/
def renewEnded (chosen : Nat → Eol → Bool) (target : Eol) :
    Nat → List (Bytes × Eol) → List (Bytes × Eol)
  | _, [] => []
  | off, (content, e) :: ended =>
    (content, renewed chosen target (off + content.length) e) ::
      renewEnded chosen target (off + content.length + e.len) ended

def Lined.renew (chosen : Nat → Eol → Bool) (target : Eol) (off : Nat) (l : Lined) : Lined :=
  ⟨renewEnded chosen target off l.ended, l.rest⟩

theorem Lined.renew_push (b : UInt8) (l : Lined) :
    (l.push b).renew chosen target off = (l.renew chosen target (off + 1)).push b := by
  obtain ⟨ended, rest⟩ := l
  cases ended with
  | nil => rfl
  | cons line ended =>
    simp only [Lined.push, Lined.renew, renewEnded, List.length_cons]
    rw [Nat.add_comm line.1.length, ← Nat.add_assoc]

theorem Lined.renew_cut (e : Eol) (l : Lined) :
    (l.cut e).renew chosen target off =
      (l.renew chosen target (off + e.len)).cut (renewed chosen target off e) := rfl

/-- After the rewriting no CR stands in front of an LF that was a terminator of its own. -/
def Apart (chosen : Nat → Eol → Bool) (target : Eol) (off : Nat) (t : Bytes) : Prop :=
  ∀ p e e', .eol p e ∈ marks off t → .eol (p + e.len) e' ∈ marks off t →
    renewed chosen target p e = .cr → renewed chosen target (p + e.len) e' ≠ .lf

theorem rewriteEols_head :
    (rewriteEols chosen target off t).head? = some LF ↔
      ∃ e, .eol off e ∈ marks off t ∧ renewed chosen target off e = .lf := by
  induction t using text_induction with
  | nil => exact ⟨fun h => (nomatch h), fun ⟨_, h, _⟩ => (nomatch h)⟩
  | eol e t h _ =>
    rw [rewriteEols_eol h, marks_eol h]
    constructor
    · intro hhead
      refine ⟨e, List.mem_cons_self, ?_⟩
      cases hnew : renewed chosen target off e with
      | lf => rfl
      | crlf | cr =>
        rw [hnew] at hhead
        exact absurd (Option.some.inj hhead) cr_ne_lf
    · rintro ⟨e', hmem, hnew⟩
      rcases List.mem_cons.mp hmem with heq | hmem
      · obtain ⟨-, rfl⟩ := Mark.eol.inj heq
        rw [hnew]
        rfl
      · have := (mem_marks_le hmem).1
        have := e.len_pos
        omega
  | byte b t hcr hlf _ =>
    rw [rewriteEols_byte hcr hlf, marks_byte hcr hlf]
    constructor
    · exact fun h => absurd (Option.some.inj h) hlf
    · rintro ⟨e, hmem, -⟩
      rcases List.mem_cons.mp hmem with heq | hmem
      · cases heq
      · have := (mem_marks_le hmem).1
        omega

theorem apart_eol {e : Eol} (h : e.Splits t) :
    Apart chosen target off (e.bytes ++ t) ↔
      (renewed chosen target off e).Splits (rewriteEols chosen target (off + e.len) t) ∧
        Apart chosen target (off + e.len) t := by
  have hlen := e.len_pos
  rw [Apart, Apart, Eol.Splits, marks_eol h]
  constructor
  · intro hall
    refine ⟨fun hcr hhead => ?_, fun p e₁ e₂ h₁ h₂ => hall p e₁ e₂ (List.mem_cons_of_mem _ h₁)
      (List.mem_cons_of_mem _ h₂)⟩
    obtain ⟨e', hmem, hlf⟩ := rewriteEols_head.mp hhead
    exact hall off e e' List.mem_cons_self (List.mem_cons_of_mem _ hmem) hcr hlf
  · rintro ⟨hhead, hall⟩ p e₁ e₂ h₁ h₂ hcr hlf
    have htail : .eol (p + e₁.len) e₂ ∈ marks (off + e.len) t := by
      rcases List.mem_cons.mp h₂ with heq | hmem
      · have hp := (Mark.eol.inj heq).1
        rcases List.mem_cons.mp h₁ with heq | hmem
        · have := (Mark.eol.inj heq).1
          have := e₁.len_pos
          omega
        · have := (mem_marks_le hmem).1
          omega
      · exact hmem
    rcases List.mem_cons.mp h₁ with heq | hmem
    · obtain ⟨rfl, rfl⟩ := Mark.eol.inj heq
      exact hhead hcr (rewriteEols_head.mpr ⟨e₂, htail, hlf⟩)
    · exact hall p e₁ e₂ hmem htail hcr hlf

theorem apart_byte {b : UInt8} (hcr : b ≠ CR) (hlf : b ≠ LF) :
    Apart chosen target off (b :: t) ↔ Apart chosen target (off + 1) t := by
  rw [Apart, Apart, marks_byte hcr hlf]
  constructor
  · exact fun hall p e₁ e₂ h₁ h₂ => hall p e₁ e₂ (List.mem_cons_of_mem _ h₁)
      (List.mem_cons_of_mem _ h₂)
  · intro hall p e₁ e₂ h₁ h₂
    refine hall p e₁ e₂ ?_ ?_
    · exact (List.mem_cons.mp h₁).resolve_left fun heq => nomatch heq
    · exact (List.mem_cons.mp h₂).resolve_left fun heq => nomatch heq

theorem Lined.cut_inj {e e' : Eol} {l l' : Lined} (h : l.cut e = l'.cut e') : e = e' ∧ l = l' := by
  obtain ⟨ended, rest⟩ := l
  obtain ⟨ended', rest'⟩ := l'
  simpa [Lined.cut, and_assoc] using h

theorem Lined.push_inj {b : UInt8} {l l' : Lined} (h : l.push b = l'.push b) : l = l' := by
  obtain ⟨ended, rest⟩ := l
  obtain ⟨ended', rest'⟩ := l'
  cases ended <;> cases ended' <;> simp_all [Lined.push, Prod.ext_iff]

/-- A terminator that the text behind it does not change ends the first line. -/
theorem Eol.splits_of_lines {e : Eol} {u : Bytes} {l : Lined}
    (h : lines (e.bytes ++ u) = l.cut e) : e.Splits u := by
  rintro rfl hhead
  obtain ⟨u, rfl⟩ : ∃ u', u = LF :: u' := by
    cases u with
    | nil => cases hhead
    | cons c u => exact ⟨u, by rw [Option.some.inj hhead]⟩
  have hpair : lines (Eol.crlf.bytes ++ u) = (lines u).cut .crlf :=
    lines_eol (Eol.splits_of_ne (by decide))
  have := (Lined.cut_inj (hpair.symm.trans h)).1
  cases this

/-- The text reads as the rewritten lines just if the rewriting keeps the terminators apart. -/
theorem lines_rewriteEols :
    lines (rewriteEols chosen target off t) = (lines t).renew chosen target off ↔
      Apart chosen target off t := by
  induction t using text_induction generalizing off with
  | nil => exact ⟨fun _ _ _ _ h => (nomatch h), fun _ => rfl⟩
  | eol e t h ih =>
    rw [rewriteEols_eol h, lines_eol h, Lined.renew_cut, apart_eol h, ← ih]
    constructor
    · intro heq
      have hsplits := Eol.splits_of_lines heq
      rw [lines_eol hsplits] at heq
      exact ⟨hsplits, (Lined.cut_inj heq).2⟩
    · rintro ⟨hsplits, heq⟩
      rw [lines_eol hsplits, heq]
  | byte b t hcr hlf ih =>
    rw [rewriteEols_byte hcr hlf, lines_byte hcr hlf, lines_byte hcr hlf, Lined.renew_push,
      apart_byte hcr hlf, ← ih]
    exact ⟨Lined.push_inj, fun heq => by rw [heq]⟩

end Rewriting

end BareLine.Lib.Terminators
