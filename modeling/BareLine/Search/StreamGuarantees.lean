import BareLine.Search.Turns

/-!
# What a stream finds

A run of a stream always ends, and no empty match is emitted twice.  What it emits inside
the selection is what the whole-subject loop emits, unless a turn lost a match: it waited on
an empty match at the edge of a window and dropped the text in which that match began.
-/

namespace BareLine.Search

open Lib
open String (utf8Len)

/-- A capture list whose match ends inside the selection; its callers drop the others. -/
def inSelection (stop : Nat) (captures : Captures) : Bool :=
  match captures.range with
  | some range => decide (range.stop ≤ stop)
  | none => false

/-- The empty matches of a list go strictly forward. -/
def EmptiesIncrease (emitted : List Captures) : Prop :=
  emitted.Pairwise fun captures captures' => ∀ range range', captures.range = some range →
    captures'.range = some range' → range.isEmpty = true → range'.isEmpty = true →
      range.stop < range'.stop

namespace Stream

/-! ## §1 Runs -/

/-- The states that a run passes through. -/
def Reaches (job : StreamJob) (s s' : Stream) : Prop :=
  Relation.ReflTransGen (fun s s' => s.step job = .next s') s s'

section Runs

variable {job : StreamJob} {text : Text} (isWord : Nat → Nat → Option Bool)
variable (hlength : job.length = utf8Len text) (hread : ReadsFrom text job.read)
variable (hstreams : job.engine.Streams) (hplain : job.engine.wholeWord = false)
include hlength hread hstreams hplain

/-- The stream follows the text somewhere. -/
def Inside (text : Text) (s : Stream) : Prop := ∃ before after, s.Follows text before after

theorem Inside.turn {s : Stream} (h : s.Inside text) : Turn job text isWord s (s.step job) := by
  obtain ⟨before, after, hfollows⟩ := h
  exact hfollows.step_turn isWord hlength hread hstreams hplain

/-- A step that goes on keeps following the text, with less left to do. -/
theorem Inside.next {s s' : Stream} (h : s.Inside text) (hstep : s.step job = .next s') :
    s'.Inside text ∧ s'.weight text < s.weight text := by
  have hturn := h.turn (fun _ _ => none) hlength hread hstreams hplain
  rw [hstep] at hturn
  cases hturn with
  | moved hfollows hweight => exact ⟨hfollows, hweight⟩
  | emitted hfollows hweight => exact ⟨hfollows, hweight⟩

/-! ## §2 Runs end -/

/-- Every run ends. -/
theorem Inside.run_total {s : Stream} (h : s.Inside text) :
    ∃ fuel result, s.run job fuel = some result := by
  induction hw : s.weight text using Nat.strong_induction_on generalizing s with
  | _ n ih =>
    subst hw
    cases hstep : s.step job with
    | finished status emitted => exact ⟨1, (status, emitted), by rw [run, hstep]⟩
    | next s' =>
      obtain ⟨hinside, hweight⟩ := h.next hlength hread hstreams hplain hstep
      obtain ⟨fuel, result, hrun⟩ := ih _ hweight hinside rfl
      exact ⟨fuel + 1, result, by rw [run, hstep]; exact hrun⟩

/-! ## §3 Empty matches -/

/-- The empty matches so far go forward, and the next attempt lies past the last of them or
knows of it. -/
def Ordered (s : Stream) : Prop :=
  EmptiesIncrease s.emitted ∧ ∀ captures ∈ s.emitted, ∀ range, captures.range = some range →
    range.isEmpty = true →
      range.stop < s.position ∨ range.stop = s.position ∧ s.afterEmpty = true

theorem Inside.ordered_next {s s' : Stream} (h : s.Inside text) (hordered : s.Ordered)
    (hstep : s.step job = .next s') : s'.Ordered := by
  have hturn := h.turn (fun _ _ => none) hlength hread hstreams hplain
  rw [hstep] at hturn
  cases hturn with
  | moved _ _ hemitted horder =>
    refine ⟨hemitted ▸ hordered.1, fun captures hmem range hrange hempty => ?_⟩
    rw [hemitted] at hmem
    have := hordered.2 captures hmem range hrange hempty
    obtain hlt | ⟨heq, hafter⟩ := horder
    · exact .inl (by omega)
    · rwa [heq, hafter]
  | @emitted _ captures range _ _ hemitted _ hboundary hfind hvalid hrange hresume hafter =>
    obtain ⟨hge, hge'⟩ := Engine.le_of_find hstreams hboundary hfind hrange
    obtain ⟨hle, -, -⟩ := Engine.range_of_validCaptures hvalid hrange
    -- After an empty match the engine may not report it again.
    have hfresh : s.afterEmpty = true → s.position < range.stop := by
      intro hafter'
      refine Nat.lt_of_le_of_ne hge' fun hstop => ?_
      have heq : range = ⟨s.position, s.position⟩ := by
        cases range
        dsimp only at hge hle hstop
        congr 1 <;> omega
      rw [hafter'] at hfind
      exact hstreams.notEmpty _ _ _ _ rfl hfind (hrange.trans (congrArg some heq))
    have hbelow : ∀ c ∈ s.emitted, ∀ r, c.range = some r → r.isEmpty = true →
        r.stop < range.stop := by
      intro c hmem r hr hempty
      obtain hlt | ⟨heq, hafter'⟩ := hordered.2 c hmem r hr hempty
      · omega
      · rw [heq]
        exact hfresh hafter'
    constructor
    · rw [EmptiesIncrease, hemitted, List.pairwise_append]
      refine ⟨hordered.1, List.pairwise_singleton .., fun c hmem d hd r r' hr hr' hempty _ => ?_⟩
      obtain rfl := List.mem_singleton.mp hd
      obtain rfl := Option.some.inj (hr'.symm.trans hrange)
      exact hbelow c hmem r hr hempty
    · intro c hmem r hr hempty
      rw [hemitted, List.mem_append, List.mem_singleton] at hmem
      rw [hresume, hafter]
      obtain hmem | rfl := hmem
      · exact .inl (hbelow c hmem r hr hempty)
      · obtain rfl := Option.some.inj (hr.symm.trans hrange)
        exact .inr ⟨rfl, hempty⟩

/-- A run's emissions keep the order. -/
theorem Inside.run_ordered {s : Stream} (h : s.Inside text) (hordered : s.Ordered) {fuel : Nat}
    {status : Except Completeness Unit} {emitted : List Captures}
    (hrun : s.run job fuel = some (status, emitted)) : EmptiesIncrease emitted := by
  induction fuel generalizing s with
  | zero => exact nomatch hrun
  | succ fuel ih =>
    rw [run] at hrun
    have hturn := h.turn (fun _ _ => none) hlength hread hstreams hplain
    cases hstep : s.step job with
    | next s' =>
      rw [hstep] at hrun
      exact ih (h.next hlength hread hstreams hplain hstep).1
        (h.ordered_next hlength hread hstreams hplain hordered hstep) hrun
    | finished status' emitted' =>
      rw [hstep] at hrun hturn
      cases hrun
      cases hturn <;> exact hordered.1

/-! ## §4 A run without a loss -/

/-- What a step emits and what then remains is what remained before it. -/
theorem Inside.remaining_next {s s' : Stream} (h : s.Inside text)
    (hstep : s.step job = .next s') (hloses : ¬ s.Loses job text) {out : List Captures}
    (hout : s.Remaining job text isWord out) :
    ∃ out', s'.Remaining job text isWord out' ∧
      s'.emitted.filter (inSelection job.selection.stop) ++ out' =
        s.emitted.filter (inSelection job.selection.stop) ++ out := by
  have hturn := h.turn isWord hlength hread hstreams hplain
  rw [hstep] at hturn
  cases hturn with
  | moved _ _ hemitted _ hkeeps => exact ⟨out, hkeeps hloses out hout, by rw [hemitted]⟩
  | @emitted _ captures range _ _ hemitted hposition hboundary hfind hvalid hrange hresume
      hafter =>
    have hout := (scansTo_match hboundary hposition hplain hfind hvalid hrange).mp hout
    by_cases hstop : job.selection.stop < range.stop
    · rw [if_pos hstop] at hout
      refine ⟨[], (scansTo_past (hresume ▸ hstop)).mpr rfl, ?_⟩
      have hdropped : inSelection job.selection.stop captures = false := by
        rw [inSelection, hrange]
        exact decide_eq_false (Nat.not_le.mpr hstop)
      rw [hout, hemitted, List.filter_append, List.filter_cons, hdropped]
      simp
    · rw [if_neg hstop] at hout
      obtain ⟨rest, rfl, hrest⟩ := hout
      refine ⟨rest, ?_, ?_⟩
      · rw [Remaining, hresume, hafter]
        exact hrest
      · have hkept : inSelection job.selection.stop captures = true := by
          rw [inSelection, hrange]
          exact decide_eq_true (Nat.not_lt.mp hstop)
        rw [hemitted, List.filter_append, List.filter_cons, hkept]
        simp

/-- A run that loses nothing emits what remains. -/
theorem Inside.run_keeps {s : Stream} (h : s.Inside text) {fuel : Nat}
    {emitted : List Captures} (hrun : s.run job fuel = some (.ok (), emitted))
    (hloses : ∀ s', s.Reaches job s' → ¬ s'.Loses job text) {out : List Captures}
    (hout : s.Remaining job text isWord out) :
    emitted.filter (inSelection job.selection.stop) =
      s.emitted.filter (inSelection job.selection.stop) ++ out := by
  induction fuel generalizing s out with
  | zero => exact nomatch hrun
  | succ fuel ih =>
    rw [run] at hrun
    cases hstep : s.step job with
    | finished status emitted' =>
      have hturn := h.turn isWord hlength hread hstreams hplain
      rw [hstep] at hrun hturn
      cases hrun
      cases hturn with
      | ended hnothing => rw [hnothing out hout, List.append_nil]
    | next s' =>
      rw [hstep] at hrun
      obtain ⟨out', hout', heq⟩ := h.remaining_next isWord hlength hread hstreams hplain hstep
        (hloses s .refl) hout
      rw [ih (h.next hlength hread hstreams hplain hstep).1 hrun
        (fun s'' hs => hloses s'' (.head hstep hs)) hout', heq]

/-! ## §5 A run with a loss -/

/-- The stream has passed every attempt that could find this match. -/
def Past (job : StreamJob) (text : Text) (captures : Captures) (edge : Nat) (s : Stream) :
    Prop :=
  edge < s.position ∨ s.position = edge ∧ (s.afterEmpty = false →
    job.engine.find text edge (nextOptions false) ≠ some captures)

/-- An empty match that was passed is not emitted later. -/
theorem Inside.run_past {s : Stream} (h : s.Inside text) {captures : Captures} {edge : Nat}
    (hrange : captures.range = some ⟨edge, edge⟩) (hpast : s.Past job text captures edge)
    {fuel : Nat} {status : Except Completeness Unit} {emitted : List Captures}
    (hrun : s.run job fuel = some (status, emitted)) :
    ∃ rest, emitted = s.emitted ++ rest ∧ captures ∉ rest := by
  induction fuel generalizing s with
  | zero => exact nomatch hrun
  | succ fuel ih =>
    rw [run] at hrun
    have hturn := h.turn (fun _ _ => none) hlength hread hstreams hplain
    cases hstep : s.step job with
    | finished status' emitted' =>
      rw [hstep] at hrun hturn
      cases hrun
      cases hturn <;> exact ⟨[], (List.append_nil _).symm, List.not_mem_nil⟩
    | next s' =>
      have hinside := (h.next hlength hread hstreams hplain hstep).1
      rw [hstep] at hrun hturn
      dsimp only at hrun
      cases hturn with
      | moved _ _ hemitted horder =>
        rw [← hemitted]
        refine ih hinside ?_ hrun
        obtain hlt | ⟨heq, hafter⟩ := horder
        · exact .inl (hpast.elim (fun hedge => hedge.trans hlt) fun hedge => hedge.1 ▸ hlt)
        · rwa [Past, heq, hafter]
      | @emitted _ found range _ _ hemitted _ hboundary hfind hvalid hfound hresume hafter =>
        obtain ⟨hge, hge'⟩ := Engine.le_of_find hstreams hboundary hfind hfound
        obtain ⟨hle, -, -⟩ := Engine.range_of_validCaptures hvalid hfound
        have hne : captures ≠ found := by
          rintro rfl
          obtain rfl := Option.some.inj (hfound.symm.trans hrange)
          dsimp only at hge
          obtain hedge | ⟨rfl, hagain⟩ := hpast
          · exact absurd hge (Nat.not_le.mpr hedge)
          · cases hempty : s.afterEmpty with
            | false =>
              rw [hempty] at hfind
              exact hagain hempty hfind
            | true =>
              rw [hempty] at hfind
              exact hstreams.notEmpty _ _ _ _ rfl hfind hfound
        have hpast' : s'.Past job text captures edge := by
          rw [Past, hresume, hafter]
          by_cases hedge : edge < range.stop
          · exact .inl hedge
          · -- Resuming at the edge itself, the match before it was empty.
            have hposition : edge ≤ s.position := hpast.elim Nat.le_of_lt fun h => h.1.ge
            refine .inr ⟨by omega, fun hempty => absurd hempty ?_⟩
            rw [Range.isEmpty_iff.mpr (by omega)]
            exact Bool.noConfusion
        obtain ⟨rest, heq, hnot⟩ := ih hinside hpast' hrun
        refine ⟨found :: rest, ?_, fun hmem => ?_⟩
        · rw [heq, hemitted, List.append_assoc]
          rfl
        · exact (List.mem_cons.mp hmem).elim hne hnot

omit hlength hread in
/-- A turn that loses a match moves to the edge; the whole-subject loop emits the match. -/
theorem Inside.loses_next {s : Stream} (h : s.Inside text) (hloses : s.Loses job text) :
    ∃ s' captures edge, s.step job = .next s' ∧ s'.emitted = s.emitted ∧
      captures.range = some ⟨edge, edge⟩ ∧ edge ≤ job.selection.stop ∧
      s'.Past job text captures edge ∧
      ∀ out, s.Remaining job text isWord out → ∃ rest, out = captures :: rest := by
  obtain ⟨before, after, hfollows⟩ := h
  obtain ⟨hloading, heof, hposition, captures, range, hanswer, hrange, hempty, hstop, hedge,
    hagain⟩ := hloses
  have hmore : false = true → after = [] := fun h => absurd h Bool.noConfusion
  obtain ⟨hstart, hvalid, hfind⟩ := Engine.find_of_matched hstreams after hmore hanswer
  have hstart' := isScalarBoundary_append after hstart
  obtain ⟨hle, -, -⟩ := Engine.range_of_validCaptures hvalid hrange
  have heq : range.start = range.stop := Nat.le_antisymm hle (Range.isEmpty_iff.mp hempty)
  have hfindT : job.engine.find text s.position (nextOptions s.afterEmpty) =
      some (captures.shift s.base) := by
    rw [hfollows.text_eq, show s.position = s.base + s.start from rfl, hfollows.base_eq,
      Engine.find_tail hstreams before _ hstart', hfind]
    rfl
  have hvalidT : Engine.validCaptures text (captures.shift s.base) = true := by
    rw [hfollows.text_eq, hfollows.base_eq]
    exact Engine.validCaptures_within before after hvalid
  have hrangeT : (captures.shift s.base).range =
      some ⟨s.base + range.stop, s.base + range.stop⟩ := by
    rw [Captures.range_shift, hrange, Option.map_some, shiftRange, heq, Nat.add_comm]
  refine ⟨{ s with
      text := dropBytes s.text range.start, base := s.base + range.start, start := 0,
      loading := true, turns := s.turns + 1 },
    captures.shift s.base, s.base + range.stop, ?_, rfl, hrangeT, hedge, ?_,
    fun out hout => ?_⟩
  · rw [step, if_neg (by rw [hloading]; exact Bool.noConfusion), attempt,
      if_neg (show ¬ s.base + s.start > job.selection.stop from Nat.not_lt.mpr hposition), heof,
      hanswer]
    dsimp only
    rw [hrange]
    dsimp only
    rw [if_pos ⟨hempty, hstop, rfl⟩, retain, if_neg (by rw [heof]; exact Bool.noConfusion)]
  · refine .inr ⟨congrArg (s.base + ·) heq, fun hafter => ?_⟩
    rwa [show s.afterEmpty = false from hafter] at hagain
  · have hout := (scansTo_match hfollows.position_boundary hposition hplain hfindT hvalidT
      hrangeT).mp hout
    rw [if_neg (Nat.not_lt.mpr hedge)] at hout
    obtain ⟨rest, rfl, -⟩ := hout
    exact ⟨rest, rfl⟩

/-- A run that begins with a loss never emits the lost match. -/
theorem Inside.run_loses_first {s : Stream} (h : s.Inside text) (hloses : s.Loses job text)
    {fuel : Nat} {status : Except Completeness Unit} {emitted : List Captures}
    (hrun : s.run job fuel = some (status, emitted)) {out : List Captures}
    (hout : s.Remaining job text isWord out) :
    emitted.filter (inSelection job.selection.stop) ≠
      s.emitted.filter (inSelection job.selection.stop) ++ out := by
  obtain ⟨s', captures, edge, hstep, hemitted, hrange, hedge, hpast, hwhole⟩ :=
    h.loses_next isWord hstreams hplain hloses
  obtain ⟨rest, rfl⟩ := hwhole out hout
  cases fuel with
  | zero => exact nomatch hrun
  | succ fuel =>
    rw [run, hstep] at hrun
    have hinside := (h.next hlength hread hstreams hplain hstep).1
    obtain ⟨new, rfl, hnot⟩ := hinside.run_past hlength hread hstreams hplain hrange hpast hrun
    intro heq
    rw [hemitted, List.filter_append] at heq
    refine hnot (List.mem_of_mem_filter (p := inSelection job.selection.stop) ?_)
    rw [List.append_cancel_left heq]
    exact List.mem_cons_self ..

/-- A run that loses a match does not emit what the whole-subject loop emits. -/
theorem Inside.run_loses {s lost : Stream} (h : s.Inside text) (hreach : s.Reaches job lost)
    (hloses : lost.Loses job text) {fuel : Nat} {status : Except Completeness Unit}
    {emitted : List Captures} (hrun : s.run job fuel = some (status, emitted))
    {out : List Captures} (hout : s.Remaining job text isWord out) :
    emitted.filter (inSelection job.selection.stop) ≠
      s.emitted.filter (inSelection job.selection.stop) ++ out := by
  -- The first loss on the way decides.
  induction hreach using Relation.ReflTransGen.head_induction_on generalizing fuel out with
  | refl => exact h.run_loses_first isWord hlength hread hstreams hplain hloses hrun hout
  | @head s s' hstep _ ih =>
    by_cases hnow : s.Loses job text
    · exact h.run_loses_first isWord hlength hread hstreams hplain hnow hrun hout
    · cases fuel with
      | zero => exact nomatch hrun
      | succ fuel =>
        rw [run, hstep] at hrun
        obtain ⟨out', hout', heq⟩ :=
          h.remaining_next isWord hlength hread hstreams hplain hstep hnow hout
        rw [← heq]
        exact ih (h.next hlength hread hstreams hplain hstep).1 hrun hout'

omit hlength hread hplain in
theorem Inside.not_loses {s : Stream} (h : s.Inside text)
    (hstarts : job.engine.StartsWhereTried) : ¬ s.Loses job text := by
  rintro ⟨-, -, -, captures, range, hanswer, hrange, hempty, -, -, hagain⟩
  obtain ⟨before, after, hfollows⟩ := h
  have hmore : false = true → after = [] := fun h => absurd h Bool.noConfusion
  obtain ⟨-, hvalid, hfind⟩ := Engine.find_of_matched hstreams after hmore hanswer
  obtain ⟨hle, hboundary, -⟩ := Engine.range_of_validCaptures hvalid hrange
  have heq : range.start = range.stop := Nat.le_antisymm hle (Range.isEmpty_iff.mp hempty)
  have htried := hstarts _ _ _ _ _ hfind hrange
  cases hafter : s.afterEmpty with
  | true =>
    -- an anchored attempt, whose options exclude the empty match at its start
    rw [hafter] at hfind htried
    have hstart : range.start = s.start := htried
    refine hstreams.notEmpty _ _ _ _ rfl hfind (hrange.trans (congrArg some ?_))
    rw [← hstart]
    exact congrArg (Range.mk range.start) heq.symm
  | false =>
    rw [hafter] at htried hagain
    have htried : job.engine.find _ range.start _ = some captures := htried
    refine hagain ?_
    rw [hfollows.text_eq, hfollows.base_eq, ← heq,
      Engine.find_tail hstreams before _ (isScalarBoundary_append after hboundary), htried]
    rfl

/-- Without `\K` the stream emits in the selection what the whole-subject loop emits. -/
theorem Inside.run_agrees {s : Stream} (h : s.Inside text)
    (hstarts : job.engine.StartsWhereTried) {fuel : Nat} {emitted out : List Captures}
    (hrun : s.run job fuel = some (.ok (), emitted)) (hout : s.Remaining job text isWord out) :
    emitted.filter (inSelection job.selection.stop) =
      s.emitted.filter (inSelection job.selection.stop) ++ out := by
  refine h.run_keeps isWord hlength hread hstreams hplain hrun (fun s' hreach => ?_) hout
  refine Inside.not_loses hstreams ?_ hstarts
  induction hreach with
  | refl => exact h
  | tail _ hstep ih => exact (ih.next hlength hread hstreams hplain hstep).1

end Runs

end Stream

/-! ## §6 `scan_stream` against the loop of `scan` -/

/-- A stream starts at the selection, where the text must have a boundary. -/
theorem Stream.inside_initial {text : Text} {selection : Range}
    (h : isScalarBoundary text selection.start = true) :
    (Stream.initial selection).Inside text := by
  obtain ⟨before, after, rfl, hlen⟩ := isScalarBoundary_iff.mp h
  exact ⟨before, after, rfl, hlen.symm, rfl, rfl, fun _ => rfl, (fun h => nomatch h)⟩

/-- Away from a boundary the first window is refused. -/
theorem Stream.run_of_not_boundary {job : StreamJob} {text : Text}
    (hlength : job.length = utf8Len text) (hread : ReadsFrom text job.read)
    (hselection : job.selection.start ≤ utf8Len text)
    (h : isScalarBoundary text job.selection.start = false) :
    ∃ limit, (Stream.initial job.selection).run job 1 = some (.error limit, []) := by
  have hne : job.selection.start ≠ utf8Len text := by
    intro heq
    rw [heq, isScalarBoundary_length] at h
    exact nomatch h
  have hlt : job.selection.start < job.length := by omega
  have hstep : ∃ limit, (Stream.initial job.selection).step job = .finished (.error limit) [] := by
    rw [Stream.step, if_pos (show (Stream.initial job.selection).loading = true from rfl),
      Stream.load]
    split
    · exact ⟨_, rfl⟩
    rw [if_pos (show (Stream.initial job.selection).next < job.length from hlt)]
    split
    · exact ⟨_, rfl⟩
    · rename_i part hpart
      obtain ⟨before, after, htext, hlen⟩ := hread _ _ _ hpart
      have := isScalarBoundary_iff.mpr ⟨before, part ++ after, htext, hlen⟩
      rw [show (Stream.initial job.selection).next = job.selection.start from rfl, h] at this
      exact nomatch this
  obtain ⟨limit, hstep⟩ := hstep
  exact ⟨limit, by rw [Stream.run, hstep]⟩

section ScanStream

variable (engine : Engine) (text : Text) (query : SearchQuery)
variable (read : Nat → Nat → Except Completeness Text) (cancelled : Nat → Bool)
variable (interrupt : Nat → Option Completeness)
variable (refuse : List Captures → Captures → Option Completeness)

/-- The bounds that a query searches. -/
def bounds : Range := query.selection.getD ⟨0, utf8Len text⟩

/-- What a run of `scan_stream` on a text depends on. -/
def streamJob : StreamJob :=
  ⟨engine, utf8Len text, bounds text query, read, cancelled, interrupt, refuse⟩

/-- For every text, windows, selection and streamable pattern a stream ends and emits no empty
match twice.  When no limit stops it, it emits inside the selection what the loop of `scan`
emits on the whole text exactly when none of its turns loses a match. -/
theorem scanStream_agrees_iff (isWord : Nat → Nat → Option Bool)
    (hstreams : engine.streamable = true → engine.Streams) (hread : ReadsFrom text read) :
    ∃ fuel status emitted,
      scanStream (.ok engine) (utf8Len text) query read cancelled interrupt refuse fuel =
        some (status, emitted) ∧
      EmptiesIncrease emitted ∧
      (status = .ok () → ∃ turns out ended,
        scanWhole engine isWord text (bounds text query).stop turns (bounds text query).start
          false = some (out, ended) ∧
        (emitted.filter (inSelection (bounds text query).stop) = out ↔
          ∀ s, Stream.Reaches (streamJob engine text query read cancelled interrupt refuse)
            (Stream.initial (bounds text query)) s →
            ¬ s.Loses (streamJob engine text query read cancelled interrupt refuse) text)) := by
  let job := streamJob engine text query read cancelled interrupt refuse
  have hjob : job.length = utf8Len text := rfl
  have hnone : ∀ limit : Completeness, EmptiesIncrease [] ∧
      ((.error limit : Except Completeness Unit) = .ok () → ∃ turns out ended,
        scanWhole engine isWord text (bounds text query).stop turns (bounds text query).start
          false = some (out, ended) ∧
        (([] : List Captures).filter (inSelection (bounds text query).stop) = out ↔
          ∀ s, Stream.Reaches (streamJob engine text query read cancelled interrupt refuse)
            (Stream.initial (bounds text query)) s →
            ¬ s.Loses (streamJob engine text query read cancelled interrupt refuse) text)) :=
    fun limit => ⟨List.Pairwise.nil, fun h => nomatch h⟩
  unfold scanStream
  by_cases hpattern : utf8Len query.pattern > MAX_PATTERN_BYTES
  · exact ⟨0, _, _, if_pos hpattern, hnone _⟩
  by_cases hstreamable : engine.streamable = true
  case neg =>
    have hnot := Bool.eq_false_of_not_eq_true hstreamable
    refine ⟨0, .error .unsupportedStreaming, [], ?_, hnone _⟩
    simp only [if_neg hpattern, hnot, Bool.not_false, if_true]
  by_cases hbounds : (bounds text query).start > (bounds text query).stop ∨
      (bounds text query).stop > utf8Len text
  · refine ⟨0, .error .invalidQuery, [], ?_, hnone _⟩
    simp only [if_neg hpattern, hstreamable, Bool.not_true, Bool.false_eq_true, if_false]
    exact if_pos hbounds
  have hrun : ∀ fuel, scanStream (.ok engine) (utf8Len text) query read cancelled interrupt
      refuse fuel = (Stream.initial (bounds text query)).run
        (streamJob engine text query read cancelled interrupt refuse) fuel := by
    intro fuel
    simp only [scanStream, if_neg hpattern, hstreamable, Bool.not_true, Bool.false_eq_true,
      if_false]
    exact if_neg hbounds
  change ∃ fuel status emitted, scanStream (.ok engine) (utf8Len text) query read cancelled
    interrupt refuse fuel = some (status, emitted) ∧ _
  have hstreams := hstreams hstreamable
  have hplain : engine.wholeWord = false := by
    rw [Engine.streamable, Bool.and_eq_true, Bool.and_eq_true, Bool.not_eq_true'] at hstreamable
    exact hstreamable.1.1
  cases hboundary : isScalarBoundary text (bounds text query).start with
  | false =>
    obtain ⟨limit, h⟩ := Stream.run_of_not_boundary hjob hread
      (Nat.le_trans (Nat.not_lt.mp (not_or.mp hbounds).1) (Nat.not_lt.mp (not_or.mp hbounds).2))
      hboundary
    exact ⟨1, .error limit, [], (hrun 1).trans h, hnone _⟩
  | true =>
    have hinside := Stream.inside_initial hboundary
    obtain ⟨fuel, ⟨status, emitted⟩, h⟩ := hinside.run_total hjob hread
      hstreams hplain
    refine ⟨fuel, status, emitted, (hrun fuel).trans h,
      hinside.run_ordered rfl hread hstreams hplain
        ⟨List.Pairwise.nil, fun _ hmem => nomatch hmem⟩ h, fun hok => ?_⟩
    subst hok
    obtain ⟨out, turns, ended, hout⟩ : ∃ out, ScansTo engine isWord text
        (bounds text query).stop (bounds text query).start false out :=
      scansTo_total hboundary hstreams hplain
    have hremaining : (Stream.initial (bounds text query)).Remaining
        (streamJob engine text query read cancelled interrupt refuse) text isWord out :=
      ⟨turns, ended, hout⟩
    refine ⟨turns, out, ended, hout, fun heq s hs hloses => ?_, fun hloses => ?_⟩
    · exact hinside.run_loses isWord rfl hread hstreams hplain hs hloses h hremaining heq
    · exact hinside.run_keeps isWord rfl hread hstreams hplain h hloses hremaining

end ScanStream

/-! ## §7 A pattern that keeps its text out of the match -/

/-- Behind the first `a` of a text, or behind an `a` at its start for an anchored call. -/
def afterFirstA (anchored : Bool) : Text → Option Nat
  | [] => none
  | c :: rest =>
    if c = 'a' then some 1
    else if anchored then none
    else (afterFirstA false rest).map (· + c.utf8Size)

/-- The empty match behind the first `a` from an offset on. -/
def findAfterA (text : Text) (start : Nat) (options : MatchOptions) : Option Captures :=
  (getFrom text start).bind fun rest =>
    (afterFirstA options.anchored rest).map fun n => [some ⟨start + n, start + n⟩]

/-- The pattern `a\K`: `\K` moves the reported start behind the `a`.  None of its items is
a hazard and it has no lookbehind, so it streams. -/
def keepOut : Engine where
  pattern := [97, 92, 75]
  wholeWord := false
  crlfNewline := true
  maxLookbehind := some 0
  calloutItems := some [0, 1, 3]
  find := findAfterA
  findPartial text start options :=
    match findAfterA text start options with
    | some captures => .matched captures
    | none => .noMatch

theorem afterFirstA_pos {anchored : Bool} {text : Text} {n : Nat}
    (h : afterFirstA anchored text = some n) : 0 < n := by
  cases text with
  | nil => exact nomatch h
  | cons c rest =>
    rw [afterFirstA] at h
    split at h
    · cases h
      exact Nat.one_pos
    split at h
    · exact nomatch h
    · obtain ⟨m, -, rfl⟩ := Option.map_eq_some_iff.mp h
      exact Nat.add_pos_right _ c.utf8Size_pos

/-- What was found stays in every extension. -/
theorem afterFirstA_append {anchored : Bool} {text : Text} {n : Nat} (more : Text)
    (h : afterFirstA anchored text = some n) : afterFirstA anchored (text ++ more) = some n := by
  induction text generalizing anchored n with
  | nil => exact nomatch h
  | cons c rest ih =>
    rw [List.cons_append, afterFirstA] at *
    split at h
    · rename_i hc
      rwa [if_pos hc]
    · rename_i hc
      rw [if_neg hc]
      split at h
      · exact nomatch h
      · rename_i hanchored
        obtain ⟨m, hm, rfl⟩ := Option.map_eq_some_iff.mp h
        rw [if_neg hanchored, ih hm]
        rfl

/-- A stretch without an `a` is passed over. -/
theorem afterFirstA_skip {text : Text} (more : Text) (h : afterFirstA false text = none) :
    afterFirstA false (text ++ more) = (afterFirstA false more).map (· + utf8Len text) := by
  induction text with
  | nil =>
    rw [List.nil_append]
    exact Option.map_id'.symm
  | cons c rest ih =>
    rw [afterFirstA] at h
    split at h
    · exact nomatch h
    · rename_i hc
      rw [if_neg Bool.false_ne_true, Option.map_eq_none_iff] at h
      rw [List.cons_append, afterFirstA, if_neg hc, if_neg Bool.false_ne_true, ih h,
        Option.map_map]
      refine congrArg (Option.map · _) (funext fun n => ?_)
      rw [Function.comp, String.utf8Len_cons, Nat.add_assoc]

theorem afterFirstA_front {text more : Text} (h : afterFirstA false (text ++ more) = none) :
    afterFirstA false text = none := by
  cases hfront : afterFirstA false text with
  | none => rfl
  | some n =>
    rw [afterFirstA_append more hfront] at h
    exact nomatch h

theorem keepOut_noMatch {text more : Text} {start : Nat} {options : MatchOptions}
    (hstart : isScalarBoundary text start = true)
    (h : findAfterA text start options = none) :
    keepOut.NoMatchBefore (text ++ more) start (Engine.edge text start) options := by
  have hedge := Engine.edge_boundary text start
  by_cases heq : Engine.edge text start = start
  · exact .inl heq
  have hle := Engine.le_edge hstart
  refine .inr ⟨hle, isScalarBoundary_append more hedge, ?_⟩
  obtain ⟨passed, rest, rfl, rfl⟩ := isScalarBoundary_iff.mp hstart
  rw [findAfterA, getFrom_append, Option.bind_some, Option.map_eq_none_iff] at h
  have hat : keepOut.find (passed ++ rest ++ more) (utf8Len passed) options =
      (afterFirstA options.anchored (rest ++ more)).map fun n =>
        [some ⟨utf8Len passed + n, utf8Len passed + n⟩] := by
    rw [List.append_assoc]
    show findAfterA _ _ _ = _
    rw [findAfterA, getFrom_append, Option.bind_some]
  split
  · rename_i hanchored
    rw [hat, hanchored]
    rw [hanchored] at h
    -- The scalar at the start is there, and no `a`.
    cases rest with
    | nil =>
      refine absurd ?_ heq
      rw [List.append_nil, Engine.edge, if_neg fun h => Nat.lt_irrefl _ h.1]
    | cons c rest =>
      rw [afterFirstA] at h
      split at h
      · cases h
      · rename_i hc
        rw [List.cons_append, afterFirstA, if_neg hc, if_pos rfl]
        rfl
  · rename_i hanchored
    have hanchored : options.anchored = false := Bool.eq_false_of_not_eq_true hanchored
    rw [hanchored] at h
    obtain ⟨front, back, hcut, hlen⟩ := isScalarBoundary_iff.mp hedge
    obtain ⟨between, rfl, rfl⟩ : ∃ between, front = passed ++ between ∧ rest = between ++ back := by
      obtain hlong | ⟨extra, rfl, rfl⟩ := List.append_eq_append_iff.mp hcut
      · exact hlong
      · rw [← hlen, String.utf8Len_append] at hle
        obtain rfl : extra = [] := String.utf8Len_eq_zero.mp (by omega)
        exact ⟨[], by simp, rfl⟩
    have hedgeAt : keepOut.find (passed ++ (between ++ back) ++ more)
        (Engine.edge (passed ++ (between ++ back)) (utf8Len passed)) options =
        (afterFirstA options.anchored (back ++ more)).map fun n =>
          [some ⟨utf8Len (passed ++ between) + n, utf8Len (passed ++ between) + n⟩] := by
      rw [← hlen, List.append_assoc, List.append_assoc, ← List.append_assoc passed]
      show findAfterA _ _ _ = _
      rw [findAfterA, getFrom_append, Option.bind_some]
    rw [hat, hedgeAt, hanchored, List.append_assoc, afterFirstA_skip _ (afterFirstA_front h),
      Option.map_map]
    refine congrArg (Option.map · _) (funext fun n => ?_)
    have hsum : utf8Len passed + (n + utf8Len between) = utf8Len (passed ++ between) + n := by
      rw [String.utf8Len_append]
      omega
    rw [Function.comp, hsum]

/-- The pattern behaves as the library promises of a pattern that streams. -/
theorem keepOut_streams : keepOut.Streams where
  suffix before rest options := by
    show findAfterA _ _ _ = (findAfterA _ _ _).map _
    rw [findAfterA, findAfterA, getFrom_append, Option.bind_some, getFrom, splitAtByte_zero,
      Option.map_some, Option.bind_some, Option.map_map]
    refine congrArg (Option.map · _) (funext fun n => ?_)
    simp only [Function.comp, Captures.shift, List.map_cons, List.map_nil, Option.map_some,
      shiftRange, Nat.zero_add]
    rw [Nat.add_comm]
  notEmpty text start options captures _ hfind := by
    obtain ⟨rest, -, hrest⟩ := Option.bind_eq_some_iff.mp hfind
    obtain ⟨n, hn, rfl⟩ := Option.map_eq_some_iff.mp hrest
    have := afterFirstA_pos hn
    intro h
    have := congrArg Range.start (Option.some.inj h)
    dsimp only at this
    omega
  matched text more start options captures hstart h := by
    obtain ⟨passed, rest, rfl, rfl⟩ := isScalarBoundary_iff.mp hstart
    cases hfind : findAfterA (passed ++ rest) (utf8Len passed) options with
    | none =>
      simp only [keepOut, hfind] at h
      cases h
    | some found =>
      simp only [keepOut, hfind] at h
      cases h
      rw [findAfterA, getFrom_append, Option.bind_some] at hfind
      obtain ⟨n, hn, rfl⟩ := Option.map_eq_some_iff.mp hfind
      show findAfterA _ _ _ = _
      rw [findAfterA, List.append_assoc, getFrom_append, Option.bind_some,
        afterFirstA_append more hn]
      rfl
  partialAt text more start offset options _ _ h := by
    cases hfind : findAfterA text start options with
    | none =>
      simp only [keepOut, hfind] at h
      cases h
    | some found =>
      simp only [keepOut, hfind] at h
      cases h
  noMatch text more start options hstart h := by
    cases hfind : findAfterA text start options with
    | none => exact keepOut_noMatch hstart hfind
    | some found =>
      simp only [keepOut, hfind] at h
      cases h

/-- One scalar at a time. -/
def scalarReader (text : Text) (offset _size : Nat) : Except Completeness Text :=
  match getFrom text offset with
  | none => .error .unsupported
  | some rest => .ok (rest.take 1)

theorem scalarReader_reads (text : Text) : ReadsFrom text (scalarReader text) := by
  intro offset size part h
  rw [scalarReader] at h
  split at h
  · exact nomatch h
  · rename_i rest hrest
    cases h
    obtain ⟨⟨before, after⟩, hcut, rfl⟩ := Option.map_eq_some_iff.mp hrest
    obtain ⟨rfl, rfl⟩ := splitAtByte_eq_some.mp hcut
    exact ⟨before, after.drop 1, by rw [List.take_append_drop], rfl⟩

/-- `SearchQuery::literal` in regex mode. -/
def regexQuery (pattern : Text) : SearchQuery :=
  ⟨pattern, .regex, .sensitive, false, none, 16 * 1024 * 1024, false, false⟩

/-- The general statement at `a\K` on `ab`. -/
theorem scanStream_agrees_iff_keepOut :
    ∃ fuel status emitted,
      scanStream (.ok keepOut) 2 (regexQuery ['a', '\\', 'K']) (scalarReader ['a', 'b'])
        (fun _ => false) (fun _ => none) (fun _ _ => none) fuel = some (status, emitted) ∧
      EmptiesIncrease emitted ∧
      (status = .ok () → ∃ turns out ended,
        scanWhole keepOut (fun _ _ => none) ['a', 'b'] 2 turns 0 false = some (out, ended) ∧
        (emitted.filter (inSelection 2) = out ↔
          ∀ s, Stream.Reaches (streamJob keepOut ['a', 'b'] (regexQuery ['a', '\\', 'K'])
              (scalarReader ['a', 'b']) (fun _ => false) (fun _ => none) (fun _ _ => none))
            (Stream.initial ⟨0, 2⟩) s →
            ¬ s.Loses (streamJob keepOut ['a', 'b'] (regexQuery ['a', '\\', 'K'])
              (scalarReader ['a', 'b']) (fun _ => false) (fun _ => none) (fun _ _ => none))
              ['a', 'b'])) :=
  scanStream_agrees_iff keepOut ['a', 'b'] (regexQuery ['a', '\\', 'K'])
    (scalarReader ['a', 'b']) (fun _ => false) (fun _ => none) (fun _ _ => none)
    (fun _ _ => none) (fun _ => keepOut_streams) (scalarReader_reads _)

/-- `a\K` streams, and on `ab` read one scalar at a time its only match is lost: the
whole-subject loop emits it, the stream ends without a match. -/
theorem stream_loses_match_at_edge :
    keepOut.streamable = true ∧ keepOut.Streams ∧
      ReadsFrom ['a', 'b'] (scalarReader ['a', 'b']) ∧
      scanStream (.ok keepOut) 2 (regexQuery ['a', '\\', 'K']) (scalarReader ['a', 'b'])
        (fun _ => false) (fun _ => none) (fun _ _ => none) 8 = some (.ok (), []) ∧
      scanWhole keepOut (fun _ _ => none) ['a', 'b'] 2 8 0 false =
        some ([[some ⟨1, 1⟩]], .ok ()) :=
  ⟨by decide, keepOut_streams, scalarReader_reads _, by decide, by decide⟩

end BareLine.Search
