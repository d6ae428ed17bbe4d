import BareLine.Power.Occurrences
import BareLine.Power.Steps
import BareLine.Lib.Cover

/-!
# Which occurrences are visited

The windows make one scan over the document: it takes the next occurrence from where it stands,
visits it where it lies on cluster boundaries and skips it otherwise.  So the visits are the
leftmost choice just if no skipped match passes an occurrence that lies on boundaries.
-/

namespace BareLine.Power

open Lib
open Search (Text)
open String (utf8Len)

variable {u : Unicode} {snapshot : DocumentSnapshot} {limits : Limits} {B : Nat → Prop}

/-! ## §1 Segmentations -/

/-- The cluster boundaries of the document.  A text read from one of them has the same ones inside
it; its own end may cut a cluster. -/
structure Segments (u : Unicode) (snapshot : DocumentSnapshot) (limits : Limits) (B : Nat → Prop) :
    Prop where
  scalar : ∀ b, B b → snapshot.isBoundary b = true
  stop : B snapshot.len
  snapped : ∀ offset found, snap u snapshot offset limits = .ok found →
    B found ∧ found ≤ offset ∧ ∀ b, B b → b ≤ offset → b ≤ found
  inside : ∀ before part after, snapshot.text = before ++ (part ++ after) → B (utf8Len before) →
    ∀ q < utf8Len part, q ∈ clusterOffsets 0 (u.graphemes part) ↔ B (utf8Len before + q)

/-! ## §2 Matches -/

/-- A text occurs at an offset of another. -/
def OccursAt (text needle : Text) (q : Nat) : Prop :=
  ∃ before after, text = before ++ (needle ++ after) ∧ utf8Len before = q

theorem OccursAt.le {text needle : Text} {q : Nat} (h : OccursAt text needle q) :
    q + utf8Len needle ≤ utf8Len text := by
  obtain ⟨before, after, rfl, rfl⟩ := h
  rw [String.utf8Len_append, String.utf8Len_append]
  omega

/-- An occurrence in a part of a text is one in the text. -/
theorem OccursAt.out {before part after needle : Text} {p : Nat} (h : OccursAt part needle p) :
    OccursAt (before ++ (part ++ after)) needle (utf8Len before + p) := by
  obtain ⟨front, rest, rfl, rfl⟩ := h
  exact ⟨before ++ front, rest ++ after, by simp, String.utf8Len_append ..⟩

/-- An occurrence that lies in a part of a text is one in the part. -/
theorem OccursAt.into {before part after needle : Text} {q : Nat}
    (h : OccursAt (before ++ (part ++ after)) needle q) (hstart : utf8Len before ≤ q)
    (hstop : q + utf8Len needle ≤ utf8Len before + utf8Len part) :
    OccursAt part needle (q - utf8Len before) := by
  obtain ⟨front, rest, hsplit, rfl⟩ := h
  obtain ⟨mid, rfl, hmid⟩ := append_of_utf8Len_le hsplit hstart
  rw [String.utf8Len_append] at hstop ⊢
  rw [← List.append_assoc] at hmid
  obtain ⟨tail, rfl, -⟩ := append_of_utf8Len_le hmid.symm (by
    rw [String.utf8Len_append]
    omega)
  exact ⟨mid, tail, by simp, by omega⟩

/-- At the end of a front a text occurs just if what follows starts with it. -/
theorem occursAt_append {front rest needle : Text} :
    OccursAt (front ++ rest) needle (utf8Len front) ↔ needle <+: rest := by
  constructor
  · rintro ⟨before, after, hsplit, hlen⟩
    obtain ⟨rfl, rfl⟩ := append_inj_of_utf8Len hsplit.symm hlen
    exact List.prefix_append _ _
  · rintro ⟨after, rfl⟩
    exact ⟨front, after, rfl, rfl⟩

theorem utf8Len_take_of_isPrefix {needle text : Text} (h : needle <+: text) :
    text.take needle.length = needle := (List.prefix_iff_eq_take.mp h).symm

/-- The matches are the leftmost choice of the occurrences. -/
theorem matchesFrom_chosen {needle front rest : Text} (hne : needle ≠ []) (skip : Nat) :
    Leftmost.Chosen (OccursAt (front ++ rest) needle) id (fun q => q + utf8Len needle)
      (utf8Len front + utf8Len (rest.take skip)) (matchesFrom needle (utf8Len front) skip rest) := by
  have hpos : 0 < utf8Len needle := Nat.pos_of_ne_zero fun h => hne (String.utf8Len_eq_zero.mp h)
  induction rest generalizing front skip with
  | nil =>
    have hnone : matchesFrom needle (utf8Len front) skip [] = [] := by cases skip <;> rfl
    rw [hnone]
    refine ⟨_, .nil _, fun q hq => ?_⟩
    have := hq.le
    rw [List.append_nil] at this
    simp only [id_eq, List.take_nil, String.utf8Len_nil]
    omega
  | cons c rest ih =>
    have hcut : front ++ c :: rest = (front ++ [c]) ++ rest := by simp
    have hnext : utf8Len (front ++ [c]) = utf8Len front + c.utf8Size := by simp
    cases skip with
    | succ skip =>
      have h := @ih (front ++ [c]) skip
      rw [← hcut, hnext] at h
      rw [matchesFrom, List.take_succ_cons, String.utf8Len_cons, ← Nat.add_assoc,
        Nat.add_right_comm]
      exact h
    | zero =>
      rw [matchesFrom, List.take_zero, String.utf8Len_nil, Nat.add_zero]
      split_ifs with hprefix
      · have hprefix := List.isPrefixOf_iff_prefix.mp hprefix
        obtain ⟨there, hpicks, hlast⟩ := @ih (front ++ [c]) (needle.length - 1)
        have hlen : utf8Len (front ++ [c]) + utf8Len (rest.take (needle.length - 1)) =
            utf8Len front + utf8Len needle := by
          have hlength := List.length_pos_iff.mpr hne
          have htake := congrArg utf8Len (utf8Len_take_of_isPrefix hprefix)
          obtain ⟨n, hn⟩ := Nat.exists_eq_add_of_le' hlength
          rw [hn, List.take_succ_cons, String.utf8Len_cons] at htake
          rw [hn, Nat.add_sub_cancel, hnext]
          omega
        rw [hlen, ← hcut, hnext] at hpicks
        rw [← hcut] at hlast
        refine ⟨there, .cons (occursAt_append.mpr hprefix) (Nat.le_refl _) (fun q _ hq => ?_) hpicks,
          hlast⟩
        exact (Nat.eq_or_lt_of_le hq).imp_left Eq.symm
      · have h := @ih (front ++ [c]) 0
        rw [← hcut, hnext, List.take_zero, String.utf8Len_nil, Nat.add_zero] at h
        -- no occurrence stands here, and none inside the scalar
        have hquiet : ∀ q, OccursAt (front ++ c :: rest) needle q → utf8Len front ≤ q →
            utf8Len front + c.utf8Size ≤ q := by
          rintro q hq hge
          obtain ⟨before, after, hsplit, rfl⟩ := id hq
          obtain ⟨x, rfl, hx⟩ := append_of_utf8Len_le hsplit hge
          cases x with
          | nil =>
            rw [List.append_nil] at hq
            exact absurd (List.isPrefixOf_iff_prefix.mpr (occursAt_append.mp hq)) hprefix
          | cons d x =>
            obtain ⟨rfl, -⟩ := List.cons.inj hx
            rw [String.utf8Len_append, String.utf8Len_cons]
            omega
        exact h.back (Nat.le_add_right _ _) hquiet

/-! ## §3 Boundaries -/

theorem le_of_mem_clusterOffsets {offset : Nat} {clusters : List Text} :
    ∀ q ∈ clusterOffsets offset clusters, offset ≤ q ∧ q ≤ offset + utf8Len clusters.flatten := by
  induction clusters generalizing offset with
  | nil => exact nofun
  | cons g clusters ih =>
    rw [clusterOffsets, List.flatten_cons, String.utf8Len_append]
    refine List.forall_mem_cons.mpr ⟨⟨Nat.le_refl _, by omega⟩, fun q hq => ?_⟩
    have := ih q hq
    omega

theorem clusterOffsets_sorted (offset : Nat) (clusters : List Text) :
    (clusterOffsets offset clusters).Pairwise (· ≤ ·) := by
  induction clusters generalizing offset with
  | nil => exact .nil
  | cons g clusters ih =>
    refine .cons (fun q hq => ?_) (ih _)
    exact Nat.le_trans (Nat.le_add_right _ _) (le_of_mem_clusterOffsets q hq).1

theorem seekTo_head {boundaries : List Nat} (h : boundaries.Pairwise (· ≤ ·)) (t : Nat) :
    (seekTo boundaries t).head? = some t ↔ t ∈ boundaries := by
  have hsuffix : seekTo boundaries t <:+ boundaries := List.dropWhile_suffix _
  constructor
  · intro hhead
    exact hsuffix.mem (List.mem_of_mem_head? hhead)
  · intro hmem
    have hin : t ∈ seekTo boundaries t :=
      mem_dropWhile_of_neg hmem (by rw [decide_eq_true_iff]; exact Nat.lt_irrefl t)
    cases hseek : seekTo boundaries t with
    | nil =>
      rw [hseek] at hin
      exact nomatch hin
    | cons b rest =>
      have hnot := List.head?_dropWhile_not (fun b => decide (b < t)) boundaries
      have hsorted := h.sublist hsuffix.sublist
      rw [seekTo] at hseek
      rw [hseek] at hnot
      rw [seekTo, hseek] at hin hsorted
      simp only [List.head?_cons, decide_eq_false_iff_not, Nat.not_lt] at hnot
      refine congrArg some (Nat.le_antisymm ?_ hnot)
      rcases List.mem_cons.mp hin with rfl | hin
      · exact Nat.le_refl _
      · exact (List.pairwise_cons.mp hsorted).1 t hin

theorem seekTo_seekTo {boundaries : List Nat} {t t' : Nat} (hle : t ≤ t') :
    seekTo (seekTo boundaries t) t' = seekTo boundaries t' := by
  simp only [seekTo]
  induction boundaries with
  | nil => rfl
  | cons b boundaries ih =>
    by_cases hb : b < t
    · rw [List.dropWhile_cons_of_pos (by simpa using hb), ih,
        List.dropWhile_cons_of_pos (by simpa using Nat.lt_of_lt_of_le hb hle)]
    · rw [List.dropWhile_cons_of_neg (by simpa using hb)]

/-- The boundaries of a window's text, its end among them. -/
def windowBoundaries (u : Unicode) (text : Text) : List Nat :=
  clusterOffsets 0 (u.graphemes text) ++ [utf8Len text]

theorem windowBoundaries_sorted (text : Text) :
    (windowBoundaries u text).Pairwise (· ≤ ·) := by
  refine List.pairwise_append.mpr ⟨clusterOffsets_sorted _ _, List.pairwise_singleton _ _, ?_⟩
  intro q hq t ht
  have hle := (le_of_mem_clusterOffsets q hq).2
  rw [u.graphemes_flatten, Nat.zero_add] at hle
  rwa [List.mem_singleton.mp ht]

/-- Inside a window's text its boundaries are those of the document. -/
theorem mem_windowBoundaries (hseg : Segments u snapshot limits B) {before part after : Text}
    (htext : snapshot.text = before ++ (part ++ after)) (hbefore : B (utf8Len before)) {q : Nat}
    (hq : q < utf8Len part) : q ∈ windowBoundaries u part ↔ B (utf8Len before + q) := by
  rw [windowBoundaries, List.mem_append, hseg.inside before part after htext hbefore q hq,
    List.mem_singleton]
  exact or_iff_left (Nat.ne_of_lt hq)

/-- A match is aligned where it begins and ends on boundaries of the document. -/
theorem isAligned_spec (hseg : Segments u snapshot limits B) {before part after : Text}
    (htext : snapshot.text = before ++ (part ++ after)) (hbefore : B (utf8Len before))
    {split place length t : Nat} (ht : t ≤ place) (hlength : 0 < length)
    (hfits : place + length ≤ utf8Len part) {aligned : Bool}
    (h : isAligned u snapshot limits ⟨utf8Len before, split, utf8Len before + utf8Len part⟩
      ((seekTo (seekTo (windowBoundaries u part) t) place).head? == some place &&
        (seekTo (seekTo (seekTo (windowBoundaries u part) t) place) (place + length)).head? ==
          some (place + length)) (place + length) = .ok aligned) :
    aligned = true ↔ B (utf8Len before + place) ∧ B (utf8Len before + place + length) := by
  rw [seekTo_seekTo ht, seekTo_seekTo (Nat.le_add_right place length)] at h
  have hstart : ((seekTo (windowBoundaries u part) place).head? == some place) = true ↔
      B (utf8Len before + place) := by
    rw [beq_iff_eq, seekTo_head (windowBoundaries_sorted part),
      mem_windowBoundaries hseg htext hbefore (by omega)]
  have hfinish : ((seekTo (windowBoundaries u part) (place + length)).head? ==
      some (place + length)) = true ↔ place + length ∈ windowBoundaries u part := by
    rw [beq_iff_eq, seekTo_head (windowBoundaries_sorted part)]
  generalize hs : ((seekTo (windowBoundaries u part) place).head? == some place) = s at h hstart
  generalize hf : ((seekTo (windowBoundaries u part) (place + length)).head? ==
    some (place + length)) = f at h hfinish
  rw [Nat.add_assoc]
  rw [isAligned] at h
  split_ifs at h with hask
  · -- the window ends here, and the document goes on
    obtain ⟨hboth, hend, -⟩ := hask
    obtain ⟨found, hfound, h⟩ := bind_ok.mp h
    obtain rfl := Except.ok.inj h
    dsimp only at hend hfound ⊢
    obtain ⟨hB, hle, hlast⟩ := hseg.snapped _ _ hfound
    rw [Bool.and_eq_true] at hboth
    rw [beq_iff_eq, hend]
    constructor
    · intro heq
      rw [heq] at hB
      exact ⟨hstart.mp hboth.1, hB⟩
    · exact fun hB' => Nat.le_antisymm hle (hlast _ hB'.2 (Nat.le_refl _))
  · obtain rfl := Except.ok.inj h
    rw [Bool.and_eq_true, hstart, hfinish]
    refine and_congr_right fun hB => ?_
    rcases Nat.eq_or_lt_of_le hfits with heq | hlt
    · -- the window ends here with the document
      have hlen : snapshot.len = utf8Len before + (utf8Len part + utf8Len after) := by
        rw [← String.utf8Len_append, ← String.utf8Len_append, ← htext]
        rfl
      have hmem : place + length ∈ windowBoundaries u part := by
        rw [heq, windowBoundaries]
        exact List.mem_append_right _ (List.mem_singleton_self _)
      refine iff_of_true hmem ?_
      by_contra hnot
      refine hask ⟨?_, by dsimp only; omega, ?_⟩
      · rw [Bool.and_eq_true, hstart, hfinish]
        exact ⟨hB, hmem⟩
      · dsimp only
        by_contra hend
        have : utf8Len before + (place + length) = snapshot.len := by omega
        rw [this] at hnot
        exact hnot hseg.stop
    · exact mem_windowBoundaries hseg htext hbefore hlt

/-! ## §4 One window -/

/-- A visitor shown some occurrences in turn, until it stops. -/
def visitAll {σ : Type} (visit : σ → Range → Except Error (Bool × σ)) (length : Nat) :
    σ → List Nat → Except Error (Bool × σ)
  | s, [] => .ok (false, s)
  | s, q :: rest => do
    let (stopped, s) ← visit s ⟨q, q + length⟩
    if stopped then pure (true, s) else visitAll visit length s rest

theorem visitAll_append {σ : Type} (visit : σ → Range → Except Error (Bool × σ)) (length : Nat)
    (s : σ) (a b : List Nat) : visitAll visit length s (a ++ b) =
      (visitAll visit length s a).bind fun r =>
        if r.1 then .ok (true, r.2) else visitAll visit length r.2 b := by
  induction a generalizing s with
  | nil => rfl
  | cons q a ih =>
    rw [List.cons_append, visitAll, visitAll]
    cases visit s ⟨q, q + length⟩ with
    | error e => rfl
    | ok r =>
      obtain ⟨stopped, s'⟩ := r
      cases stopped with
      | true => rfl
      | false => exact ih s'

/-- What `occurrences_in` does with a match. -/
def onAligned {σ : Type} (visit : σ → Range → Except Error (Bool × σ)) (length : Nat) (s : σ)
    (place : Nat) (aligned : Bool) : Except Error (Bool × σ) :=
  if aligned then visit s ⟨place, place + length⟩ else .ok (false, s)

/-- The record of all matches that are tested; a skip goes on behind the match or, in the next
window, at its split. -/
def record (length split : Nat) (events : List ScanEvent) (place : Nat) (aligned : Bool) :
    Except Error (Bool × List ScanEvent) :=
  .ok (false, events ++
    [if aligned then .visit place else .skip place (min (place + length) split)])

/-- The visitor of a window sees what was recorded as visits. -/
theorem windowLoop_visits {length : Nat} {w : Window} {ms bs : List Nat} {next next' : Nat}
    {stopped : Bool} {before after : List ScanEvent}
    (h : windowLoop u snapshot limits length w (record length w.split) ms bs next before =
      .ok (stopped, next', after)) :
    stopped = false ∧ ∃ events, after = before ++ events ∧
      ∀ {σ : Type} (visit : σ → Range → Except Error (Bool × σ)) (s : σ),
        (windowLoop u snapshot limits length w (onAligned visit length) ms bs next s).map
          (fun r => (r.1, r.2.2)) = visitAll visit length s (visits events) ∧
        ∀ n s', windowLoop u snapshot limits length w (onAligned visit length) ms bs next s =
          .ok (false, n, s') → n = next' := by
  induction ms generalizing bs next before with
  | nil =>
    rw [windowLoop] at h
    obtain ⟨rfl, rfl, rfl⟩ : false = stopped ∧ next = next' ∧ before = after := by
      simpa using h
    refine ⟨rfl, [], (List.append_nil _).symm, fun visit s => ⟨rfl, fun n s' hn => ?_⟩⟩
    rw [windowLoop] at hn
    simp only [Except.ok.injEq, Prod.mk.injEq, true_and] at hn
    exact hn.1.symm
  | cons place ms ih =>
    rw [windowLoop] at h
    split_ifs at h with hsplit hbefore
    · obtain ⟨rfl, rfl, rfl⟩ : false = stopped ∧ next = next' ∧ before = after := by
        simpa using h
      refine ⟨rfl, [], (List.append_nil _).symm, fun visit s => ?_⟩
      rw [windowLoop, if_pos hsplit]
      refine ⟨rfl, fun n s' hn => ?_⟩
      simp only [Except.ok.injEq, Prod.mk.injEq, true_and] at hn
      exact hn.1.symm
    · obtain ⟨hstop, events, hafter, hvisit⟩ := ih h
      refine ⟨hstop, events, hafter, fun visit s => ?_⟩
      rw [windowLoop, if_neg hsplit, if_pos hbefore]
      exact hvisit visit s
    · obtain ⟨aligned, haligned, h⟩ := bind_ok.mp h
      obtain ⟨⟨stopped', events'⟩, hrecord, h⟩ := bind_ok.mp h
      obtain ⟨rfl, rfl⟩ := Prod.mk.inj (Except.ok.inj hrecord)
      obtain ⟨hstop, events, hafter, hvisit⟩ := ih h
      refine ⟨hstop, _ :: events, by rw [hafter, List.append_assoc]; rfl, fun {σ} visit s => ?_⟩
      have hloop : windowLoop u snapshot limits length w (onAligned visit length) (place :: ms) bs
          next s = (onAligned visit length s (w.start + place) aligned).bind fun r =>
            if r.1 then .ok (true, if aligned then w.start + place + length else next, r.2)
            else windowLoop u snapshot limits length w (onAligned visit length) ms
              (seekTo (seekTo bs place) (place + length))
              (if aligned then w.start + place + length else next) r.2 := by
        rw [windowLoop, if_neg hsplit, if_neg hbefore]
        dsimp only
        rw [haligned]
        rfl
      rw [hloop]
      cases aligned with
      | false => exact hvisit visit s
      | true =>
        show ((visit s ⟨w.start + place, w.start + place + length⟩).bind _).map _ =
          (visit s ⟨w.start + place, w.start + place + length⟩).bind _ ∧
          ∀ n s', (visit s ⟨w.start + place, w.start + place + length⟩).bind _ = _ → _
        cases hv : visit s ⟨w.start + place, w.start + place + length⟩ with
        | error e => exact ⟨rfl, fun n s' hn => nomatch hn⟩
        | ok r =>
          obtain ⟨stop, s'⟩ := r
          cases stop with
          | true => exact ⟨rfl, fun n s'' hn => by simp [Except.bind] at hn⟩
          | false => exact hvisit visit s'

/-- An occurrence that lies on cluster boundaries. -/
def Aligned (B : Nat → Prop) (length q : Nat) : Prop := B q ∧ B (q + length)

/-- The tests of a window are the scan of the document up to where the next window starts. -/
theorem windowLoop_scans (hseg : Segments u snapshot limits B) {before part after needle : Text}
    (hne : needle ≠ []) (htext : snapshot.text = before ++ (part ++ after))
    (hbefore : B (utf8Len before)) {split limit : Nat} (hlimit : split ≤ limit)
    (hfits : ∀ q, OccursAt snapshot.text needle q → q < split →
      q + utf8Len needle ≤ utf8Len before + utf8Len part)
    {ms : List Nat} {here t next next' : Nat} {stopped : Bool} {earlier later : List ScanEvent}
    (hchosen : Leftmost.Chosen (OccursAt part needle) id (fun q => q + utf8Len needle) here ms)
    (ht : t ≤ here) (hnext : next ≤ utf8Len before + here)
    (h : windowLoop u snapshot limits (utf8Len needle)
      ⟨utf8Len before, split, utf8Len before + utf8Len part⟩ (record (utf8Len needle) split) ms
      (seekTo (windowBoundaries u part) t) next earlier = .ok (stopped, next', later)) :
    (next' = next ∨ B next') ∧ ∃ events, later = earlier ++ events ∧
      ∀ rest, Scans (OccursAt snapshot.text needle) (Aligned B (utf8Len needle)) (utf8Len needle)
          limit (max split next') rest →
        Scans (OccursAt snapshot.text needle) (Aligned B (utf8Len needle)) (utf8Len needle)
          limit (max next (min (utf8Len before + here) split)) (events ++ rest) := by
  have hpos : 0 < utf8Len needle := Nat.pos_of_ne_zero fun h => hne (String.utf8Len_eq_zero.mp h)
  -- an occurrence in front of the split is one in the window's text
  have hinto : ∀ q, OccursAt snapshot.text needle q → utf8Len before + here ≤ q → q < split →
      OccursAt part needle (q - utf8Len before) := by
    intro q hq hle hlt
    have hstop := hfits q hq hlt
    rw [htext] at hq
    exact hq.into (by omega) hstop
  induction ms generalizing here t next earlier with
  | nil =>
    rw [windowLoop] at h
    obtain ⟨rfl, rfl, rfl⟩ : false = stopped ∧ next = next' ∧ earlier = later := by
      simpa using h
    obtain ⟨there, hpicks, hlast⟩ := hchosen
    cases hpicks
    refine ⟨.inl rfl, [], (List.append_nil _).symm, fun rest hrest => ?_⟩
    refine hrest.resume hnext fun q hq hle => ?_
    by_contra hlt
    have := hlast _ (hinto q hq hle (Nat.lt_of_not_le hlt))
    simp only [id_eq] at this
    omega
  | cons place ms ih =>
    obtain ⟨there, hpicks, hlast⟩ := hchosen
    cases hpicks with
    | cons hplace hle hfirst hmore =>
    simp only [id_eq] at hle hfirst
    have hfirst' : ∀ q, OccursAt snapshot.text needle q → utf8Len before + here ≤ q → q < split →
        utf8Len before + place ≤ q := by
      intro q hq hge hlt
      have := hfirst _ (hinto q hq hge hlt) (by omega)
      omega
    rw [windowLoop] at h
    split_ifs at h with hsplit hearly
    · obtain ⟨rfl, rfl, rfl⟩ : false = stopped ∧ next = next' ∧ earlier = later := by
        simpa using h
      refine ⟨.inl rfl, [], (List.append_nil _).symm, fun rest hrest => ?_⟩
      refine hrest.resume hnext fun q hq hge => ?_
      by_contra hlt
      have := hfirst' q hq hge (Nat.lt_of_not_le hlt)
      dsimp only at hsplit
      omega
    · dsimp only at hearly
      omega
    · dsimp only at hsplit hearly
      have hle' : max next (min (utf8Len before + here) split) ≤ utf8Len before + place := by omega
      have hlt : utf8Len before + place < limit := by omega
      have hfirst : ∀ q, OccursAt snapshot.text needle q →
          max next (min (utf8Len before + here) split) ≤ q → utf8Len before + place ≤ q := by
        intro q hq hge
        rcases Nat.lt_or_ge q split with hlt | hge'
        · exact hfirst' q hq (by omega) hlt
        · omega
      obtain ⟨aligned, haligned, h⟩ := bind_ok.mp h
      obtain ⟨⟨stopped', events'⟩, hrecord, h⟩ := bind_ok.mp h
      obtain ⟨rfl, rfl⟩ := Prod.mk.inj (Except.ok.inj hrecord)
      have halign := isAligned_spec hseg htext hbefore (Nat.le_trans ht hle) hpos hplace.le haligned
      have hoccurs : OccursAt snapshot.text needle (utf8Len before + place) := by
        rw [htext]
        exact hplace.out
      rw [seekTo_seekTo (Nat.le_trans ht hle), seekTo_seekTo (Nat.le_add_right _ _)] at h
      cases aligned with
      | true =>
        have hcounts := halign.mp rfl
        obtain ⟨hB, events, hlater, hscan⟩ := ih ⟨there, hmore, hlast⟩ (Nat.le_refl _)
          (by rw [if_pos rfl]; dsimp only; omega) h fun q hq hge => hinto q hq (by omega)
        refine ⟨.inr (hB.elim (fun heq => ?_) id), _ :: events,
          by rw [hlater, List.append_assoc]; rfl, fun rest hrest => ?_⟩
        · rw [heq]
          exact hcounts.2
        · refine .visit hoccurs hle' hlt hfirst hcounts ?_
          have := hscan rest hrest
          rwa [← Nat.add_assoc, if_pos rfl, Nat.max_eq_left (Nat.min_le_left _ _)] at this
      | false =>
        have hcounts : ¬Aligned B (utf8Len needle) (utf8Len before + place) :=
          fun hc => Bool.false_ne_true (halign.mpr hc)
        obtain ⟨hB, events, hlater, hscan⟩ := ih ⟨there, hmore, hlast⟩ (Nat.le_refl _)
          (by rw [if_neg Bool.false_ne_true]; omega) h fun q hq hge => hinto q hq (by omega)
        refine ⟨hB, _ :: events, by rw [hlater, List.append_assoc]; rfl, fun rest hrest => ?_⟩
        refine .skip hoccurs hle' hlt hfirst hcounts (show _ < min _ _ by dsimp only; omega)
          (Nat.min_le_left _ _) ?_
        have := hscan rest hrest
        rw [if_neg Bool.false_ne_true] at this
        have heq : max next (min (utf8Len before + (place + utf8Len needle)) split) =
            min (utf8Len before + place + utf8Len needle) split := by omega
        rwa [heq] at this

theorem seekTo_zero (boundaries : List Nat) : seekTo boundaries 0 = boundaries := by
  cases boundaries with
  | nil => rfl
  | cons b boundaries =>
    rw [seekTo, List.dropWhile_cons_of_neg (by rw [decide_eq_true_iff]; exact Nat.not_lt_zero b)]

theorem matchIndices_chosen {needle text : Text} (hne : needle ≠ []) :
    Leftmost.Chosen (OccursAt text needle) id (fun q => q + utf8Len needle) 0
      (matchIndices needle text) := by
  have h := @matchesFrom_chosen needle [] text hne 0
  rwa [List.nil_append, List.take_zero, String.utf8Len_nil] at h

/-! ## §5 The windows -/

/-- A window goes on, and splits at a boundary or where the range ends. -/
theorem windowSplit_spec (hseg : Segments u snapshot limits B) {size start limit split : Nat}
    (hlt : start < limit) (h : windowSplit u snapshot limits size start limit = .ok split) :
    start < split ∧ split ≤ limit ∧ (split < limit → B split) := by
  rw [windowSplit] at h
  split_ifs at h with hshort
  · obtain ⟨found, hfound, h⟩ := bind_ok.mp h
    obtain rfl := Except.ok.inj h
    obtain ⟨hB, hle, -⟩ := hseg.snapped _ _ hfound
    have hback := (Search.boundaryUpTo_spec
      (show snapshot.isBoundary 0 = true from isScalarBoundary_zero _)
      (Nat.zero_le (min (saturatingAdd start size) limit))).2.1
    split_ifs with hstuck
    · exact ⟨hlt, Nat.le_refl _, fun h => absurd h (Nat.lt_irrefl _)⟩
    · exact ⟨by omega, by omega, fun _ => hB⟩
  · obtain rfl := Except.ok.inj h
    have heq : min (saturatingAdd start size) limit = limit :=
      Nat.le_antisymm (Nat.min_le_right _ _) (Nat.le_of_not_lt hshort)
    rw [heq]
    exact ⟨hlt, Nat.le_refl _, fun h => absurd h (Nat.lt_irrefl _)⟩

/-- What starts in front of the split ends in the window's text. -/
theorem OccursAt.le_windowStop {needle : Text} {split q : Nat}
    (h : OccursAt snapshot.text needle q) (hlt : q < split) :
    q + utf8Len needle ≤ Search.boundaryUpTo snapshot.toDocumentSnapshot
      (min (saturatingAdd split (utf8Len needle)) snapshot.len) := by
  have hle : q + utf8Len needle ≤ snapshot.len := h.le
  have hfits : snapshot.len ≤ usizeMax := snapshot.fits
  obtain ⟨before, after, htext, rfl⟩ := h
  refine (Search.boundaryUpTo_spec (Search.DocumentSnapshot.isBoundary_iff.mpr
    ⟨before ++ needle, after, by rw [htext, List.append_assoc], String.utf8Len_append ..⟩) ?_).1
  rw [saturatingAdd]
  omega

/-- The matches that `occurrences_in` tests. -/
def testedMatches (u : Unicode) (snapshot : DocumentSnapshot) (limits : Limits) (size : Nat)
    (needle : Text) (start limit : Nat) : Except Error (Bool × List ScanEvent) :=
  occurrencesFrom u snapshot limits size needle limit
    (fun events w => record (utf8Len needle) w.split events) start start []

/-- The tests of all windows are one scan over the document, and what they record as visits is
what a visitor is shown. -/
theorem occurrencesFrom_scans (hseg : Segments u snapshot limits B) {size limit : Nat}
    {needle : Text} (hne : needle ≠ []) {start next : Nat} {stopped : Bool}
    {earlier later : List ScanEvent} (hstart : start < limit → B start) (hnext : next ≤ start)
    (h : occurrencesFrom u snapshot limits size needle limit
      (fun events w => record (utf8Len needle) w.split events) start next earlier =
        .ok (stopped, later)) :
    ∃ events, later = earlier ++ events ∧
      Scans (OccursAt snapshot.text needle) (Aligned B (utf8Len needle)) (utf8Len needle) limit
        start events ∧
      ∀ {σ : Type} (visit : σ → Range → Except Error (Bool × σ)) (s : σ),
        occurrencesFrom u snapshot limits size needle limit
          (fun s _ => onAligned visit (utf8Len needle) s) start next s =
            visitAll visit (utf8Len needle) s (visits events) := by
  induction hn : limit - start using Nat.strongRecOn generalizing start next earlier with
  | ind n ih =>
  subst hn
  rw [occurrencesFrom] at h
  split_ifs at h with hlt
  · obtain ⟨split, hsplit, h⟩ := bind_ok.mp h
    obtain ⟨part, hpart, h⟩ := bind_ok.mp h
    obtain ⟨⟨stop, next', events⟩, hloop, h⟩ := bind_ok.mp h
    obtain ⟨hgo, hle, hB⟩ := windowSplit_spec hseg hlt hsplit
    obtain ⟨before, after, htext, hrange⟩ := readText_spec hpart
    obtain ⟨rfl, hstop⟩ := Range.mk.inj hrange
    have hwindow := hloop
    rw [hstop] at hwindow
    obtain ⟨hbound, recorded, hevents, hscan⟩ := windowLoop_scans hseg hne htext (hstart hlt) hle
      (fun q hq hq' => hstop ▸ hq.le_windowStop hq') (matchIndices_chosen hne) (Nat.le_refl _)
      hnext (by rw [seekTo_zero]; exact hwindow)
    obtain ⟨rfl, recorded', hevents', hvisit⟩ := windowLoop_visits hloop
    obtain rfl := List.append_cancel_left (hevents.symm.trans hevents')
    have hforward : utf8Len before < max split next' := by omega
    dsimp only at h
    rw [if_neg Bool.false_ne_true, dif_pos hforward] at h
    have hfresh : max split next' < limit → B (max split next') := by
      intro hmore
      rcases hbound with rfl | hbound
      · rw [Nat.max_eq_left (by omega)] at hmore ⊢
        exact hB hmore
      · rcases Nat.le_total split next' with hcase | hcase
        · rwa [Nat.max_eq_right hcase]
        · rw [Nat.max_eq_left hcase] at hmore ⊢
          exact hB hmore
    obtain ⟨others, hlater, hscans, hvisits⟩ := ih (limit - max split next') (by omega) hfresh
      (Nat.le_max_right _ _) h rfl
    refine ⟨recorded ++ others, by rw [hlater, hevents, List.append_assoc], ?_,
      fun {σ} visit s => ?_⟩
    · have heq : max next (min (utf8Len before + 0) split) = utf8Len before := by omega
      exact heq ▸ hscan others hscans
    · obtain ⟨hshown, hsame⟩ := hvisit visit s
      rw [visits_append, visitAll_append, ← hshown, occurrencesFrom, if_pos hlt, hsplit]
      show (snapshot.readText _ _).bind _ = _
      rw [hpart]
      show (windowLoop u snapshot limits _ _ _ _ _ _ _).bind _ = _
      cases hrun : windowLoop u snapshot limits (utf8Len needle) ⟨utf8Len before, split, _⟩
          (onAligned visit (utf8Len needle)) (matchIndices needle part)
          (clusterOffsets 0 (u.graphemes part) ++ [utf8Len part]) next s with
      | error e => rfl
      | ok r =>
        obtain ⟨stop, n, s'⟩ := r
        cases stop with
        | true => rfl
        | false =>
          obtain rfl := hsame n s' hrun
          show (if h : utf8Len before < max split n then _ else _) = visitAll _ _ s' _
          rw [dif_pos hforward]
          exact hvisits visit s'
  · obtain ⟨rfl, rfl⟩ := Prod.mk.inj (Except.ok.inj h)
    refine ⟨[], (List.append_nil _).symm, .done fun q _ hge => ?_, fun visit s => ?_⟩
    · omega
    · rw [occurrencesFrom, if_neg hlt]
      rfl

/-! ## §6 What is visited -/

/-- The code visits, for every visitor, the leftmost choice of the occurrences on boundaries. -/
def VisitsGreedy (u : Unicode) (snapshot : DocumentSnapshot) (limits : Limits) (B : Nat → Prop)
    (size : Nat) (needle : Text) (start limit : Nat) : Prop :=
  ∃ chosen, Greedy (OccursAt snapshot.text needle) (Aligned B (utf8Len needle)) (utf8Len needle)
      limit start chosen ∧
    ∀ {σ : Type} (visit : σ → Range → Except Error (Bool × σ)) (s : σ),
      occurrencesIn u snapshot limits size needle start limit visit s =
        visitAll visit (utf8Len needle) s chosen

/-- A visitor that keeps what it is shown keeps all of it. -/
theorem visitAll_collect (length : Nat) (seen chosen : List Nat) :
    visitAll (fun seen r => .ok (false, seen ++ [r.start])) length seen chosen =
      .ok (false, seen ++ chosen) := by
  induction chosen generalizing seen with
  | nil => rw [visitAll, List.append_nil]
  | cons q chosen ih =>
    rw [visitAll]
    show visitAll _ length (seen ++ [q]) chosen = _
    rw [ih, List.append_assoc]
    rfl

/-- The visits are the leftmost choice just if no match that is tested and found off the
boundaries is gone on behind past an occurrence that lies on them. -/
theorem visitsGreedy_iff (hseg : Segments u snapshot limits B) {size start limit : Nat}
    {needle : Text} (hne : needle ≠ []) (hstart : B start) {stopped : Bool}
    {events : List ScanEvent}
    (hrun : testedMatches u snapshot limits size needle start limit = .ok (stopped, events)) :
    VisitsGreedy u snapshot limits B size needle start limit ↔
      HidesNone (OccursAt snapshot.text needle) (Aligned B (utf8Len needle)) limit events := by
  obtain ⟨events', hevents, hscans, hvisit⟩ := occurrencesFrom_scans hseg hne (fun _ => hstart)
    (Nat.le_refl _) hrun
  rw [List.nil_append] at hevents
  subst hevents
  rw [← hscans.greedy_iff]
  constructor
  · rintro ⟨chosen, hgreedy, hshown⟩
    have hcollect := (hshown (fun seen r => .ok (false, seen ++ [r.start])) []).symm.trans
      (hvisit (fun seen r => .ok (false, seen ++ [r.start])) [])
    rw [visitAll_collect, visitAll_collect, List.nil_append, List.nil_append] at hcollect
    rwa [← (Prod.mk.inj (Except.ok.inj hcollect)).2]
  · exact fun hgreedy => ⟨visits events, hgreedy, fun visit s => hvisit visit s⟩

/-- With windows of any size: where no occurrence off the boundaries overlaps a later one that
lies on them, the visits are the leftmost choice. -/
theorem visitsGreedy_of_apart (hseg : Segments u snapshot limits B) {size start limit : Nat}
    {needle : Text} (hne : needle ≠ []) (hstart : B start) {stopped : Bool}
    {events : List ScanEvent}
    (hrun : testedMatches u snapshot limits size needle start limit = .ok (stopped, events))
    (hapart : ∀ q p, OccursAt snapshot.text needle q → ¬Aligned B (utf8Len needle) q → start ≤ q →
      OccursAt snapshot.text needle p → Aligned B (utf8Len needle) p → q < p →
        q + utf8Len needle ≤ p) :
    VisitsGreedy u snapshot limits B size needle start limit := by
  obtain ⟨events', hevents, hscans, hvisit⟩ := occurrencesFrom_scans hseg hne (fun _ => hstart)
    (Nat.le_refl _) hrun
  refine ⟨visits events', hscans.greedy_iff.mpr (hscans.hidesNone ?_), fun visit s => hvisit visit s⟩
  exact fun q p hq hno hpos hp hlt => hapart q p hq hno hpos hp.1 hp.2.1 hlt

/-! ## §7 ASCII texts -/

/-- An offset of a text that is not between CR and LF. -/
def OffPairs (text : Text) (b : Nat) : Prop :=
  ∃ before after, text = before ++ after ∧ utf8Len before = b ∧
    ¬(before.getLast? = some '\r' ∧ after.head? = some '\n')

theorem mem_asciiOffsets {part : Text} {o q : Nat} : q ∈ clusterOffsets o (asciiClusters part) ↔
    ∃ x y, part = x ++ y ∧ y ≠ [] ∧ o + utf8Len x = q ∧
      ¬(x.getLast? = some '\r' ∧ y.head? = some '\n') := by
  fun_induction asciiClusters part generalizing o with
  | case1 =>
    refine iff_of_false List.not_mem_nil ?_
    rintro ⟨x, y, hxy, hy, -⟩
    exact hy (List.append_eq_nil_iff.mp hxy.symm).2
  | case2 rest ih =>
    rw [clusterOffsets, List.mem_cons, ih]
    constructor
    · rintro (rfl | ⟨x, y, rfl, hy, rfl, hpair⟩)
      · exact ⟨[], _, rfl, (by simp), rfl, (by simp)⟩
      · refine ⟨'\r' :: '\n' :: x, y, rfl, hy, by simp; omega, fun h => hpair ⟨?_, h.2⟩⟩
        cases x with
        | nil => exact absurd h.1 (by decide)
        | cons c x => exact h.1
    · rintro ⟨x, y, hxy, hy, rfl, hpair⟩
      rcases x with _ | ⟨c, _ | ⟨d, x⟩⟩
      · exact .inl rfl
      · obtain ⟨rfl, rfl⟩ := List.cons.inj hxy
        exact absurd ⟨rfl, rfl⟩ hpair
      · obtain ⟨rfl, htail⟩ := List.cons.inj hxy
        obtain ⟨rfl, rfl⟩ := List.cons.inj htail
        refine .inr ⟨x, y, rfl, hy, by simp; omega, fun h => hpair ⟨?_, h.2⟩⟩
        cases x with
        | nil => cases h.1
        | cons c x => exact h.1
  | case3 c rest hne ih =>
    rw [clusterOffsets, List.mem_cons, ih]
    constructor
    · rintro (rfl | ⟨x, y, rfl, hy, rfl, hpair⟩)
      · exact ⟨[], _, rfl, (by simp), rfl, (by simp)⟩
      · refine ⟨c :: x, y, rfl, hy, by simp; omega, fun h => ?_⟩
        cases x with
        | nil =>
          obtain ⟨y', rfl⟩ := List.head?_eq_some_iff.mp h.2
          exact hne y' (Option.some.inj h.1) rfl
        | cons d x => exact hpair h
    · rintro ⟨x, y, hxy, hy, rfl, hpair⟩
      cases x with
      | nil => exact .inl rfl
      | cons d x =>
        obtain ⟨rfl, rfl⟩ := List.cons.inj hxy
        refine .inr ⟨x, y, rfl, hy, by simp; omega, fun h => ?_⟩
        cases x with
        | nil => cases h.1
        | cons e x => exact hpair h

/-- ASCII texts have clusters. -/
theorem ascii_segments (snapshot : DocumentSnapshot) (limits : Limits) :
    Segments ascii snapshot limits (OffPairs snapshot.text) where
  scalar := by
    rintro b ⟨before, after, htext, rfl, -⟩
    exact Search.DocumentSnapshot.isBoundary_iff.mpr ⟨before, after, htext, rfl⟩
  stop := ⟨snapshot.text, [], (List.append_nil _).symm, rfl, (by simp)⟩
  snapped offset found h := by
    rw [snap] at h
    split_ifs at h with hlen
    have hback := Search.boundaryUpTo_spec
      (show snapshot.isBoundary 0 = true from isScalarBoundary_zero _) (Nat.zero_le offset)
    have hlast : ∀ b, OffPairs snapshot.text b → b ≤ offset →
        b ≤ Search.boundaryUpTo snapshot.toDocumentSnapshot offset := by
      rintro b ⟨before, after, htext, rfl, -⟩ hle
      exact (Search.boundaryUpTo_spec (Search.DocumentSnapshot.isBoundary_iff.mpr
        ⟨before, after, htext, rfl⟩) hle).1
    dsimp only at h hback
    generalize Search.boundaryUpTo snapshot.toDocumentSnapshot offset = boundary at h hback hlast
    split_ifs at h with hends
    · obtain rfl := Except.ok.inj h
      refine ⟨?_, hback.2.1, hlast⟩
      rcases hends with rfl | rfl
      · exact ⟨[], snapshot.text, rfl, rfl, (by simp)⟩
      · exact ⟨snapshot.text, [], (List.append_nil _).symm, rfl, (by simp)⟩
    · obtain ⟨before, part, after, htext, rfl, rfl, hpart⟩ := asciiSeek_spec h
      rcases hpart with ⟨rfl, hpair⟩ | ⟨rfl, hnext⟩
      · exact ⟨⟨before, after, htext, rfl, hpair⟩, hback.2.1, hlast⟩
      · refine ⟨⟨before, ['\r'] ++ after, htext, rfl, fun h => (by cases h.2)⟩,
          Nat.le_trans (Nat.le_add_right _ _) hback.2.1, fun b hb hle => ?_⟩
        by_contra hlt
        have hat := hlast b hb hle
        have hsize : utf8Len ['\r'] = 1 := rfl
        obtain ⟨x, y, hxy, rfl, hpair⟩ := hb
        obtain ⟨rfl, rfl⟩ := append_inj_of_utf8Len
          ((List.append_assoc before ['\r'] after).trans (htext.symm.trans hxy))
          (by rw [String.utf8Len_append]; omega)
        exact hpair ⟨by simp, hnext⟩
  inside before part after htext hbefore q hq := by
    have hedge : ¬(before.getLast? = some '\r' ∧ (part ++ after).head? = some '\n') := by
      obtain ⟨x, y, hxy, hlen, hpair⟩ := hbefore
      obtain ⟨rfl, rfl⟩ := append_inj_of_utf8Len (hxy.symm.trans htext) hlen
      exact hpair
    show q ∈ clusterOffsets 0 (asciiClusters part) ↔ _
    rw [mem_asciiOffsets]
    constructor
    · rintro ⟨x, y, rfl, hy, rfl, hpair⟩
      refine ⟨before ++ x, y ++ after, by simp [htext], by simp, fun h => ?_⟩
      rw [List.head?_append_of_ne_nil _ hy] at h
      rcases List.eq_nil_or_concat x with rfl | ⟨x, c, rfl⟩
      · rw [List.append_nil] at h
        exact hedge ⟨h.1, by rw [List.nil_append, List.head?_append_of_ne_nil _ hy]; exact h.2⟩
      · refine hpair ⟨?_, h.2⟩
        have := h.1
        simpa using this
    · rintro ⟨x, y, hxy, hlen, hpair⟩
      obtain ⟨x, rfl, hx⟩ := append_of_utf8Len_le (htext.symm.trans hxy) (by omega)
      rw [String.utf8Len_append] at hlen
      obtain ⟨y', rfl, rfl⟩ := append_of_utf8Len_le hx.symm (by omega)
      have hy : y' ≠ [] := by
        rintro rfl
        rw [List.append_nil] at hq
        omega
      refine ⟨x, y', rfl, hy, by omega, fun h => hpair ?_⟩
      rw [List.head?_append_of_ne_nil _ hy]
      rcases List.eq_nil_or_concat x with rfl | ⟨x, c, rfl⟩
      · cases h.1
      · refine ⟨?_, h.2⟩
        have := h.1
        simpa using this

/-- A line feed behind CR LF: the match inside the pair is skipped, and hides nothing. -/
theorem visitsGreedy_behind_pair :
    let snapshot := opened ['\r', '\n', '\n'] (by decide)
    VisitsGreedy ascii snapshot roomy (OffPairs snapshot.text) (2 ^ 20) ['\n'] 0 3 := by
  intro snapshot
  have hrun : testedMatches ascii snapshot roomy (2 ^ 20) ['\n'] 0 3 =
      .ok (false, [.skip 1 2, .visit 2]) := by decide +kernel
  have hstart : OffPairs snapshot.text 0 := ⟨[], _, rfl, rfl, nofun⟩
  refine (visitsGreedy_iff (ascii_segments snapshot roomy) (List.cons_ne_nil _ _) hstart
    hrun).mpr ?_
  intro q resume hmem p _ hbetween
  obtain ⟨rfl, rfl⟩ : q = 1 ∧ resume = 2 := by simpa using hmem
  omega

/-- Behind CR LF, the match at 1 of two line feeds hides the occurrence at 2. -/
theorem pair_hides_occurrence :
    let snapshot := opened ['\r', '\n', '\n', '\n'] (by decide)
    Segments ascii snapshot roomy (OffPairs snapshot.text) ∧ OffPairs snapshot.text 0 ∧
      Counted (OccursAt snapshot.text ['\n', '\n']) (Aligned (OffPairs snapshot.text) 2) 4 2 ∧
      occurrencesIn ascii snapshot roomy (2 ^ 20) ['\n', '\n'] 0 4
        (fun seen r => .ok (false, seen ++ [r.start])) [] = .ok (false, []) ∧
      ¬VisitsGreedy ascii snapshot roomy (OffPairs snapshot.text) (2 ^ 20) ['\n', '\n'] 0 4 := by
  intro snapshot
  have hrun : occurrencesIn ascii snapshot roomy (2 ^ 20) ['\n', '\n'] 0 4
      (fun seen r => .ok (false, seen ++ [r.start])) [] = .ok (false, []) := by decide +kernel
  have hcounted : Counted (OccursAt snapshot.text ['\n', '\n'])
      (Aligned (OffPairs snapshot.text) 2) 4 2 :=
    ⟨⟨['\r', '\n'], [], rfl, rfl⟩, ⟨⟨['\r', '\n'], ['\n', '\n'], rfl, rfl, by decide⟩,
      ⟨snapshot.text, [], rfl, rfl, nofun⟩⟩, by decide⟩
  refine ⟨ascii_segments _ _, ⟨[], _, rfl, rfl, nofun⟩, hcounted, hrun, ?_⟩
  rintro ⟨chosen, ⟨there, hpicks, hlast⟩, hshown⟩
  have hcollect := (hshown (fun seen r => .ok (false, seen ++ [r.start])) []).symm.trans hrun
  rw [visitAll_collect] at hcollect
  obtain rfl : chosen = [] := (Prod.mk.inj (Except.ok.inj hcollect)).2
  cases hpicks
  exact absurd (hlast 2 hcounted) (by decide)

end BareLine.Power
