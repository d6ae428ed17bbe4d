import BareLine.Power.Steps

/-!
# Runs of selections

A case command, and one that duplicates the selections, works on each maximal run of touching
selections as if it were alone: the runs may be worked on one at a time, in any order, each in
the text the others have left.
-/

namespace BareLine.Power

open Lib
open Search (Text)
open String (utf8Len)

/-! ## §1 Runs replaced in a text -/

/-- Each range's part of the old text, from an offset on, is replaced by its image. -/
def Replaced (f : Text → Text) : Nat → List Range → Text → Text → Prop
  | _, [], old, new => old = new
  | c, run :: runs, old, new => ∃ gap part rest rest',
      old = gap ++ (part ++ rest) ∧ new = gap ++ (f part ++ rest') ∧
      run = ⟨c + utf8Len gap, c + utf8Len gap + utf8Len part⟩ ∧
      Replaced f run.stop runs rest rest'

/-- A range where it lies once the text in front of it went from one length to another. -/
def Range.shift (before after : Nat) (r : Range) : Range :=
  ⟨r.start + after - before, r.stop + after - before⟩

section Replacing

variable {f : Text → Text}

theorem Replaced.start_le {c : Nat} {runs : List Range} {old new : Text}
    (h : Replaced f c runs old new) : ∀ run ∈ runs, c ≤ run.start ∧ run.start ≤ run.stop := by
  induction runs generalizing c old new with
  | nil => exact nofun
  | cons run runs ih =>
    obtain ⟨gap, part, rest, rest', -, -, rfl, hrest⟩ := h
    refine List.forall_mem_cons.mpr ⟨?_, fun r hr => ⟨?_, (ih hrest r hr).2⟩⟩
    · constructor <;> dsimp only <;> omega
    · have hle := (ih hrest r hr).1
      dsimp only at hle
      omega

/-- Text in front is kept. -/
theorem Replaced.prepend {c : Nat} {runs : List Range} {old new : Text} (k : Text)
    (h : Replaced f (c + utf8Len k) runs old new) : Replaced f c runs (k ++ old) (k ++ new) := by
  cases runs with
  | nil => exact congrArg (k ++ ·) h
  | cons run runs =>
    obtain ⟨gap, part, rest, rest', rfl, rfl, rfl, hrest⟩ := h
    exact ⟨k ++ gap, part, rest, rest', by simp, by simp, by simp [Nat.add_assoc], hrest⟩

/-- Ranges move with the text. -/
theorem Replaced.shift {c c' x y : Nat} {runs : List Range} {old new : Text}
    (h : Replaced f c runs old new) (hmoved : c + y = c' + x) :
    Replaced f c' (runs.map (Range.shift x y)) old new := by
  induction runs generalizing c c' old new with
  | nil => exact h
  | cons run runs ih =>
    obtain ⟨gap, part, rest, rest', rfl, rfl, rfl, hrest⟩ := h
    have hrun : Range.shift x y ⟨c + utf8Len gap, c + utf8Len gap + utf8Len part⟩ =
        ⟨c' + utf8Len gap, c' + utf8Len gap + utf8Len part⟩ := by
      simp only [Range.shift, Range.mk.injEq]
      omega
    refine ⟨gap, part, rest, rest', rfl, rfl, hrun, ?_⟩
    rw [hrun]
    exact ih hrest (by dsimp only; omega)

/-- One of the runs may be replaced first. -/
theorem Replaced.step {c : Nat} {front behind : List Range} {run : Range} {a part b new : Text}
    (h : Replaced f c (front ++ run :: behind) (a ++ (part ++ b)) new)
    (hrun : run = ⟨c + utf8Len a, c + utf8Len a + utf8Len part⟩) {x y : Nat}
    (hlen : utf8Len part + y = utf8Len (f part) + x) :
    Replaced f c (front ++ behind.map (Range.shift x y)) (a ++ (f part ++ b)) new := by
  induction front generalizing c a new with
  | nil =>
    obtain ⟨gap, part', rest, rest', hold, rfl, hhere, hrest⟩ := h
    obtain ⟨hstart, hstop⟩ := Range.mk.inj (hrun.symm.trans hhere)
    obtain ⟨rfl, hparts⟩ := append_inj_of_utf8Len hold (by omega)
    obtain ⟨rfl, rfl⟩ := append_inj_of_utf8Len hparts (by omega)
    rw [List.nil_append]
    refine Replaced.prepend a (Replaced.prepend (f part) (hrest.shift ?_))
    rw [hhere]
    dsimp only
    omega
  | cons r front ih =>
    obtain ⟨gap, part', rest, rest', hold, rfl, rfl, hrest⟩ := h
    -- the run lies behind the first one
    have hbehind := (hrest.start_le run (by simp)).1
    rw [hrun] at hbehind
    have hle : utf8Len (gap ++ part') ≤ utf8Len a := by
      rw [String.utf8Len_append]
      dsimp only at hbehind
      omega
    rw [← List.append_assoc gap] at hold
    obtain ⟨a', rfl, rfl⟩ := append_of_utf8Len_le hold.symm hle
    refine ⟨gap, part', a' ++ (f part ++ b), rest', by simp, rfl, rfl, ih hrest ?_⟩
    rw [hrun]
    simp [Nat.add_assoc]

end Replacing

/-! ## §2 One run at a time -/

variable {u : Unicode} {snapshot : DocumentSnapshot} {action : Transform} {limits : Limits}

/-- A command works on the runs one at a time, in any order: each on its own, as the one
selection of the text the ones before it have left, and on the cluster boundaries of that text;
the runs behind it move. -/
inductive OneByOne (u : Unicode) (action : Transform) (limits : Limits) :
    DocumentSnapshot → List Range → Text → Prop
  | done (snapshot : DocumentSnapshot) : OneByOne u action limits snapshot [] snapshot.text
  | step {snapshot next : DocumentSnapshot} {front behind : List Range} {run : Range}
      {prepared : PowerEdit} {final : Text}
      (start : snap u snapshot run.start limits = .ok run.start)
      (stop : snap u snapshot run.stop limits = .ok run.stop)
      (alone : transform u snapshot ⟨[⟨run.start, run.stop⟩], 0⟩ action limits = .ok prepared)
      (applied : prepared.applied snapshot = encode next.text)
      (others : OneByOne u action limits next
        (front ++ behind.map (Range.shift snapshot.len next.len)) final) :
      OneByOne u action limits snapshot (front ++ run :: behind) final

/-! ## §3 A command on one run -/

/-- What a command writes for the text of a run. -/
def selectedText (u : Unicode) (action : Transform) (source : Text) : Text :=
  match action with
  | .duplicateSelections => source ++ source
  | _ => mapCase u action source

theorem rewrite_selected {range : Range} {source : Text} {w : Rewrite}
    (haction : action.linewise = false)
    (h : rewrite u snapshot action limits range source = .ok w) :
    w.range = range ∧ w.source = source ∧ w.result = selectedText u action source := by
  cases action with
  | uppercase | lowercase | titlecase | invertCase =>
    obtain rfl := Except.ok.inj h
    exact ⟨rfl, rfl, rfl⟩
  | duplicateSelections =>
    rw [rewrite] at h
    split_ifs at h
    obtain rfl := Except.ok.inj h
    exact ⟨rfl, rfl, rfl⟩
  | _ => cases haction

/-- The maximal runs of touching selections. -/
def runs (selections : List Selection) : List Range :=
  (gather (selections.map fun s => (s.range, s))).map Target.range

/-- A command that is not on lines takes the selections' own ranges. -/
theorem zip_own {selections : List Selection} {ranges : List Range}
    (haction : action.linewise = false)
    (h : List.Forall₂ (fun s r => targetRange u snapshot action limits s = .ok r)
      selections ranges) :
    ranges.zip selections = selections.map fun s => (s.range, s) := by
  induction h with
  | nil => rfl
  | cons hr _ ih =>
    rw [targetRange, haction] at hr
    rw [List.zip_cons_cons, ih, List.map_cons, ← Except.ok.inj hr]

theorem targets_own {selections : List Selection} {ts : List Target}
    (haction : action.linewise = false)
    (h : targets u snapshot action limits selections = .ok ts) :
    ts = gather (selections.map fun s => (s.range, s)) := by
  obtain ⟨ranges, hranges, h⟩ := bind_ok.mp h
  rw [← zip_own haction (mapM_ok hranges)]
  exact (Except.ok.inj h).symm

/-- The steps of such a command replace the runs. -/
theorem Laid.replaced {steps : List Step} {c c' : Nat} {old new : Text}
    (haction : action.linewise = false)
    (hsteps : ∀ step ∈ steps, StepOf u snapshot action limits step) (h : Laid c c' steps old new) :
    Replaced (selectedText u action) c ((steps.map Step.target).map Target.range) old new := by
  induction steps generalizing c c' old new with
  | nil => exact h
  | cons step steps ih =>
    obtain ⟨⟨source, hread, hwrote⟩, hsteps⟩ := List.forall_mem_cons.mp hsteps
    obtain ⟨hrange, hsource, hresult⟩ := rewrite_selected haction hwrote
    obtain ⟨gap, rest, rest', rfl, rfl, hplace, -, hlaid⟩ := h
    refine ⟨gap, step.rewrite.source, rest, rest', rfl, ?_, ?_, ?_⟩
    · rw [hresult, hsource]
    · rw [← hrange, hplace]
    · rw [← hrange]
      exact ih hsteps hlaid

/-- A command on one run replaces its text. -/
theorem transform_alone {run : Range} {prepared : PowerEdit} (haction : action.linewise = false)
    (hrun : run.start ≤ run.stop) (hstart : snap u snapshot run.start limits = .ok run.start)
    (hstop : snap u snapshot run.stop limits = .ok run.stop)
    (h : transform u snapshot ⟨[⟨run.start, run.stop⟩], 0⟩ action limits = .ok prepared) :
    ∃ a part b, snapshot.text = a ++ (part ++ b) ∧
      run = ⟨utf8Len a, utf8Len a + utf8Len part⟩ ∧
      prepared.applied snapshot = encode (a ++ (selectedText u action part ++ b)) := by
  obtain ⟨normalized, steps, new, hdone⟩ := transform_spec h
  obtain ⟨-, snapped, hsnapped, rfl⟩ := normalizeDirected_spec hdone.normalize
  obtain rfl : snapped = [⟨run.start, run.stop⟩] := by
    cases hsnapped with
    | cons hs hrest =>
      cases hrest
      rw [snapSelection, hstart, hstop] at hs
      rw [← Except.ok.inj hs]
  have hself : mergeDirected [⟨run.start, run.stop⟩] 0 = ⟨[⟨run.start, run.stop⟩], 0⟩ :=
    mergeDirected_self (List.pairwise_singleton ..) (.inr rfl)
  have hts := targets_own haction hdone.gathered
  have hrange : (⟨run.start, run.stop⟩ : Selection).range = run := by
    simp only [Selection.range, Nat.min_eq_left hrun, Nat.max_eq_right hrun]
  have hreplaced := Laid.replaced haction hdone.stepped hdone.laid
  rw [hts, hself] at hreplaced
  obtain ⟨a, part, b, rest', hold, rfl, hplace, hrest⟩ := hreplaced
  obtain rfl : b = rest' := hrest
  refine ⟨a, part, b, hold, ?_, hdone.applied⟩
  rw [Nat.zero_add] at hplace
  exact hrange.symm.trans hplace

/-! ## §4 A command on all of them -/

/-- The text the runs leave, one at a time, is the one they leave together. -/
theorem OneByOne.eq {rs : List Range} {final new : Text} (haction : action.linewise = false)
    (h : OneByOne u action limits snapshot rs final)
    (hnew : Replaced (selectedText u action) 0 rs snapshot.text new) : final = new := by
  induction h with
  | done => exact hnew
  | @step snapshot next front behind run prepared final hstart hstop halone happlied _ ih =>
    have hrun := (hnew.start_le run (by simp)).2
    obtain ⟨a, part, b, htext, hplace, hgives⟩ := transform_alone haction hrun hstart hstop halone
    have hnext := encode_injective (happlied.symm.trans hgives)
    refine ih ?_
    rw [htext] at hnew
    rw [hnext]
    refine hnew.step (by rw [hplace]; simp) ?_
    simp only [Search.DocumentSnapshot.len, htext, hnext, String.utf8Len_append]
    omega

/-- Ranges that do not touch are gathered one by one. -/
theorem gatherFrom_apart {last : Target} {pairs : List (Range × Selection)}
    (hlast : ∀ p ∈ pairs, last.range.stop < p.1.start)
    (hapart : pairs.Pairwise fun a b => a.1.stop < b.1.start) :
    gatherFrom last pairs = last :: pairs.map fun p => ⟨p.1, [p.2]⟩ := by
  induction pairs generalizing last with
  | nil => rfl
  | cons pair pairs ih =>
    obtain ⟨hpair, hrest⟩ := List.pairwise_cons.mp hapart
    have hgap : ¬pair.1.start ≤ last.range.stop := Nat.not_le.mpr (hlast pair (by simp))
    rw [gatherFrom, if_neg hgap, ih hpair hrest, List.map_cons]

/-- Selections that do not touch are runs of their own. -/
theorem runs_apart {selections : List Selection}
    (h : selections.Pairwise fun a b => a.range.stop < b.range.start) :
    runs selections = selections.map Selection.range := by
  cases selections with
  | nil => rfl
  | cons s rest =>
    obtain ⟨hs, hrest⟩ := List.pairwise_cons.mp h
    rw [runs, List.map_cons, gather, gatherFrom_apart]
    · simp
    · exact List.forall_mem_map.mpr hs
    · exact List.pairwise_map.mpr hrest

/-- The runs of a normalized set: in order, with text between them; each selection lies in one,
and every offset of one in a selection. -/
structure RunsOf (selections : List Selection) (rs : List Range) : Prop where
  apart : rs.Pairwise fun a b => a.stop < b.start
  holds : ∀ s ∈ selections, ∃ r ∈ rs, Holds r s.range
  covered : ∀ r ∈ rs, ∀ x, r.start ≤ x → x ≤ r.stop →
    ∃ s ∈ selections, s.range.start ≤ x ∧ x ≤ s.range.stop

theorem runs_spec {selections : List Selection}
    (h : selections.Pairwise fun a b => Before a.range b.range) :
    RunsOf selections (runs selections) := by
  have hsorted : (selections.map fun s => (s.range, s)).Pairwise
      fun a b => a.1.start ≤ b.1.start :=
    List.pairwise_map.mpr (h.imp fun hab => Nat.le_of_lt hab.2)
  obtain ⟨⟨groups, hflat, hgroups⟩, hapart⟩ := gather_spec hsorted
  have hpair : ∀ p, p ∈ groups.flatten ↔ ∃ s ∈ selections, (s.range, s) = p := by
    intro p
    rw [hflat, List.mem_map]
  refine ⟨List.pairwise_map.mpr hapart, fun s hs => ?_, fun r hr x hlo hhi => ?_⟩
  · obtain ⟨group, hgroup, hp⟩ := List.mem_flatten.mp ((hpair (s.range, s)).mpr ⟨s, hs, rfl⟩)
    obtain ⟨t, ht, htarget⟩ := exists_of_forall₂ hgroups group hgroup
    exact ⟨t.range, List.mem_map_of_mem ht, htarget.holds _ hp⟩
  · obtain ⟨t, ht, rfl⟩ := List.mem_map.mp hr
    obtain ⟨group, hgroup, htarget⟩ := exists_of_forall₂ hgroups.flip t ht
    obtain ⟨p, hp, hx⟩ := htarget.covered x hlo hhi
    obtain ⟨s, hs, rfl⟩ := (hpair p).mp (List.mem_flatten.mpr ⟨group, hgroup, hp⟩)
    exact ⟨s, hs, hx⟩

/-- A command on selections that is not on lines replaces the text of each maximal run of
touching selections, and gives the same text as working on the runs one at a time, in any
order. -/
theorem selection_command_on_runs {set normalized : SelectionSet} {prepared : PowerEdit}
    (haction : action.linewise = false)
    (hnormalized : normalizeDirected u snapshot set limits = .ok normalized)
    (h : transform u snapshot set action limits = .ok prepared) :
    RunsOf normalized.selections (runs normalized.selections) ∧
      (normalized.selections.Pairwise (fun a b => a.range.stop < b.range.start) →
        runs normalized.selections = normalized.selections.map Selection.range) ∧
      (∃ new, Replaced (selectedText u action) 0 (runs normalized.selections) snapshot.text new ∧
        prepared.applied snapshot = encode new) ∧
      ∀ final, OneByOne u action limits snapshot (runs normalized.selections) final →
        prepared.applied snapshot = encode final := by
  obtain ⟨normalized', steps, new, hdone⟩ := transform_spec h
  obtain rfl := Except.ok.inj (hnormalized.symm.trans hdone.normalize)
  have hreplaced := Laid.replaced haction hdone.stepped hdone.laid
  rw [targets_own haction hdone.gathered] at hreplaced
  refine ⟨runs_spec hdone.valid.apart, runs_apart, ⟨new, hreplaced, hdone.applied⟩,
    fun final hfinal => ?_⟩
  rw [hfinal.eq haction hreplaced, hdone.applied]

/-- Three selections in two runs: together, and one run at a time from the last one. -/
theorem selection_command_on_runs_two :
    let snapshot := opened ['a', 'b', ' ', 'c', 'd'] (by decide)
    let selections : List Selection := [⟨0, 1⟩, ⟨1, 2⟩, ⟨5, 3⟩]
    let prepared : PowerEdit :=
      ⟨1, [⟨⟨0, 2⟩, ['a', 'b', 'a', 'b']⟩, ⟨⟨3, 5⟩, ['c', 'd', 'c', 'd']⟩],
        ⟨[⟨0, 1⟩, ⟨1, 2⟩, ⟨7, 5⟩], 1⟩⟩
    (RunsOf selections (runs selections) ∧
      (selections.Pairwise (fun a b => a.range.stop < b.range.start) →
        runs selections = selections.map Selection.range) ∧
      (∃ new, Replaced (selectedText ascii .duplicateSelections) 0 (runs selections)
        snapshot.text new ∧ prepared.applied snapshot = encode new) ∧
      ∀ final, OneByOne ascii .duplicateSelections roomy snapshot (runs selections) final →
        prepared.applied snapshot = encode final) ∧
    OneByOne ascii .duplicateSelections roomy snapshot (runs selections)
      ['a', 'b', 'a', 'b', ' ', 'c', 'd', 'c', 'd'] := by
  intro snapshot selections prepared
  have hnormalized : normalizeDirected ascii snapshot ⟨[⟨1, 2⟩, ⟨5, 3⟩, ⟨0, 1⟩], 0⟩ roomy =
      .ok ⟨selections, 1⟩ := by decide +kernel
  have htransform : transform ascii snapshot ⟨[⟨1, 2⟩, ⟨5, 3⟩, ⟨0, 1⟩], 0⟩ .duplicateSelections
      roomy = .ok prepared := by decide +kernel
  refine ⟨selection_command_on_runs rfl hnormalized htransform, ?_⟩
  have hlast := @OneByOne.step ascii .duplicateSelections roomy
    (opened ['a', 'b', ' ', 'c', 'd', 'c', 'd'] (by decide))
    (opened ['a', 'b', 'a', 'b', ' ', 'c', 'd', 'c', 'd'] (by decide)) [] [] ⟨0, 2⟩
    ⟨1, [⟨⟨0, 2⟩, ['a', 'b', 'a', 'b']⟩], ⟨[⟨0, 2⟩], 0⟩⟩ _ rfl rfl
    (by decide +kernel) (by decide +kernel)
    (.done _)
  exact @OneByOne.step ascii .duplicateSelections roomy
    (opened ['a', 'b', ' ', 'c', 'd'] (by decide))
    (opened ['a', 'b', ' ', 'c', 'd', 'c', 'd'] (by decide)) [⟨0, 2⟩] [] ⟨3, 5⟩
    ⟨1, [⟨⟨3, 5⟩, ['c', 'd', 'c', 'd']⟩], ⟨[⟨3, 5⟩], 0⟩⟩ _ rfl rfl
    (by decide +kernel) (by decide +kernel) hlast

/-- Selections that touch are duplicated as one, not each on its own. -/
theorem touching_selections_are_one :
    let snapshot := opened ['a', 'b', 'c', 'd'] (by decide)
    (∃ prepared, transform ascii snapshot ⟨[⟨0, 2⟩, ⟨2, 4⟩], 0⟩ .duplicateSelections roomy =
        .ok prepared ∧
      prepared.applied snapshot = encode ['a', 'b', 'c', 'd', 'a', 'b', 'c', 'd']) ∧
    OneByOne ascii .duplicateSelections roomy snapshot [⟨0, 2⟩, ⟨2, 4⟩]
      ['a', 'b', 'a', 'b', 'c', 'd', 'c', 'd'] := by
  intro snapshot
  refine ⟨⟨⟨1, [⟨⟨0, 4⟩, ['a', 'b', 'c', 'd', 'a', 'b', 'c', 'd']⟩],
    ⟨[⟨0, 2⟩, ⟨2, 4⟩], 0⟩⟩, by decide +kernel, by decide +kernel⟩, ?_⟩
  have hlast := @OneByOne.step ascii .duplicateSelections roomy
    (opened ['a', 'b', 'a', 'b', 'c', 'd'] (by decide))
    (opened ['a', 'b', 'a', 'b', 'c', 'd', 'c', 'd'] (by decide)) [] [] ⟨4, 6⟩
    ⟨1, [⟨⟨4, 6⟩, ['c', 'd', 'c', 'd']⟩], ⟨[⟨4, 6⟩], 0⟩⟩ _ rfl rfl
    (by decide +kernel) (by decide +kernel)
    (.done _)
  exact @OneByOne.step ascii .duplicateSelections roomy (opened ['a', 'b', 'c', 'd'] (by decide))
    (opened ['a', 'b', 'a', 'b', 'c', 'd'] (by decide)) [] [⟨2, 4⟩] ⟨0, 2⟩
    ⟨1, [⟨⟨0, 2⟩, ['a', 'b', 'a', 'b']⟩], ⟨[⟨0, 2⟩], 0⟩⟩ _ rfl rfl
    (by decide +kernel) (by decide +kernel) hlast

end BareLine.Power
