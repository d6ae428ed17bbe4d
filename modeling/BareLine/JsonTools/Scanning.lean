import BareLine.JsonTools.Cursors

/-!
# The scan behind the pages

Page after page lists what one scan without limits lists.
-/

namespace BareLine.JsonTools

open Lib
open Search (Text)

/-! ## §1 One byte -/

/-- A byte was taken and the cursor is still one that may be written. -/
structure Moved (length : Nat) (c c' : Cursor) : Prop where
  start : c'.start = c.start
  stop : c'.stop = c.stop
  offset : c'.offset = c.offset + 1
  ok : c'.Ok length

theorem stepToken_moved {length offset : Nat} {c c' : Cursor} (h : Moved length c c')
    (hescaped : c'.escaped = false) {b : UInt8} {s : Step}
    (hstep : stepToken b offset c' = .ok s) : Moved length c s.cursor := by
  obtain ⟨hstart, hstop, hoffset, hok⟩ := h
  unfold stepToken at hstep
  split at hstep
  · split_ifs at hstep with hopen hdeep hquote
    · obtain rfl := Except.ok.inj hstep
      exact ⟨hstart, hstop, hoffset, hok.start, hok.offset, hok.stop, Nat.le_of_not_lt hdeep,
        hok.mode, hok.escaped⟩
    · obtain rfl := Except.ok.inj hstep
      exact ⟨hstart, hstop, hoffset, hok.start, hok.offset, hok.stop, hok.depth, Nat.le_refl 2,
        fun _ => rfl⟩
    · obtain rfl := Except.ok.inj hstep
      exact ⟨hstart, hstop, hoffset, hok.start, hok.offset, hok.stop, hok.depth, Nat.le_succ 1,
        fun h => absurd (hescaped.symm.trans h) (by decide)⟩
  · split_ifs at hstep with hclose hzero hquiet
    · obtain rfl := Except.ok.inj hstep
      exact ⟨hstart, hstop, hoffset, hok.start, hok.offset, hok.stop,
        (Nat.sub_le _ _).trans hok.depth, hok.mode, hok.escaped⟩
    · obtain rfl := Except.ok.inj hstep
      exact ⟨hstart, hstop, hoffset, hok⟩

/-- A step takes one byte. -/
theorem step_moved {length : Nat} {c : Cursor} (h : c.Ok length) (hlt : c.offset < c.stop)
    {b : UInt8} {s : Step} (hstep : step b c = .ok s) : Moved length c s.cursor := by
  have hok : ({ c with offset := c.offset + 1 } : Cursor).Ok length :=
    ⟨Nat.le_succ_of_le h.start, hlt, h.stop, h.depth, h.mode, h.escaped⟩
  have hescaped : c.mode ≠ 2 → c.escaped = false := fun hne => by
    cases hflag : c.escaped with
    | false => rfl
    | true => exact absurd (h.escaped hflag) hne
  unfold step at hstep
  dsimp only at hstep
  split_ifs at hstep with hstring hflag hslash hquote hscalar hend
  · obtain rfl := Except.ok.inj hstep
    exact ⟨rfl, rfl, rfl, hok.start, hok.offset, hok.stop, hok.depth, hok.mode, fun h => nomatch h⟩
  · obtain rfl := Except.ok.inj hstep
    exact ⟨rfl, rfl, rfl, hok.start, hok.offset, hok.stop, hok.depth, hok.mode, fun _ => hstring⟩
  · obtain rfl := Except.ok.inj hstep
    exact ⟨rfl, rfl, rfl, hok.start, hok.offset, hok.stop, hok.depth, Nat.zero_le _,
      fun h => absurd h hflag⟩
  · obtain rfl := Except.ok.inj hstep
    exact ⟨rfl, rfl, rfl, hok⟩
  · have hfalse := hescaped hstring
    have hmoved : Moved length c { c with offset := c.offset + 1, mode := 0 } :=
      ⟨rfl, rfl, rfl, hok.start, hok.offset, hok.stop, hok.depth, Nat.zero_le _,
        fun h => absurd (hfalse.symm.trans h) (by decide)⟩
    exact stepToken_moved hmoved hfalse hstep
  · obtain rfl := Except.ok.inj hstep
    exact ⟨rfl, rfl, rfl, hok⟩
  · have hmoved : Moved length c { c with offset := c.offset + 1 } := ⟨rfl, rfl, rfl, hok⟩
    exact stepToken_moved hmoved (hescaped hstring) hstep

/-! ## §2 The scan without limits -/

/-- Everything the scan lists behind a cursor. -/
def scan : Bytes → Cursor → Except String (List Listed)
  | [], _ => .ok []
  | b :: input, cursor =>
    match step b cursor with
    | .error error => .error error
    | .ok ⟨listed, cursor, finished⟩ =>
      if finished then .ok listed.toList else (scan input cursor).map (listed.toList ++ ·)

/-- A scan that went on behind its first byte. -/
theorem scan_cons {b : UInt8} {input : Bytes} {c : Cursor} {all : List Listed}
    (h : scan (b :: input) c = .ok all) : ∃ s, step b c = .ok s ∧
      (s.finished = true ∧ all = s.listed.toList ∨
        s.finished = false ∧ ∃ rest, scan input s.cursor = .ok rest ∧
          all = s.listed.toList ++ rest) := by
  rw [scan] at h
  cases hstep : step b c with
  | error e => rw [hstep] at h; exact nomatch h
  | ok s =>
    obtain ⟨listed, cursor, finished⟩ := s
    rw [hstep] at h
    dsimp only at h
    refine ⟨_, rfl, ?_⟩
    cases finished with
    | true => exact .inl ⟨rfl, (Except.ok.inj h).symm⟩
    | false =>
      cases hrest : scan input cursor with
      | error e => rw [hrest] at h; exact nomatch h
      | ok rest =>
        rw [hrest] at h
        exact .inr ⟨rfl, rest, rfl, (Except.ok.inj h).symm⟩

/-! ## §3 Pages -/

section Pages

variable {pageBytes pageNodes : Nat} {text : Bytes}

/-- Where a page of a scan stops: at its end, or in front of a byte from which the scan goes on. -/
inductive Stopped (length : Nat) (input : Bytes) (c : Cursor) (all : List Listed) (s : Stop) : Prop
  | done (listed : s.listed = all) (finished : s.finished = true ∨ s.cursor.offset = s.cursor.stop)
  | paused (front back : Bytes) (rest : List Listed) (input_eq : input = front ++ back)
      (ok : s.cursor.Ok length) (stop : s.cursor.stop = c.stop)
      (offset : s.cursor.offset = c.offset + front.length) (finished : s.finished = false)
      (more : s.cursor.offset < s.cursor.stop) (scanned : scan back s.cursor = .ok rest)
      (listed : all = s.listed ++ rest)

/-- The loop of a page stops somewhere in the scan. -/
theorem loop_stopped {length : Nat} {input : Bytes} {c : Cursor} {all : List Listed}
    (hok : c.Ok length) (hinput : c.offset + input.length = c.stop)
    (hscan : scan input c = .ok all) (consumed nodes : Nat) :
    ∃ s, loop pageBytes pageNodes input c consumed nodes = .ok s ∧
      Stopped length input c all s ∧
      (consumed < pageBytes → nodes < pageNodes → s.finished = false →
        s.cursor.offset < s.cursor.stop → c.offset < s.cursor.offset) := by
  induction input generalizing c all consumed nodes with
  | nil =>
    obtain rfl := Except.ok.inj hscan
    have hend : c.offset = c.stop := hinput
    rw [loop, if_neg (fun h => absurd h.1 (by omega))]
    exact ⟨_, rfl, .done rfl (.inr hend), fun _ _ _ hlt => absurd hend (Nat.ne_of_lt hlt)⟩
  | cons b input ih =>
    have hlt : c.offset < c.stop := by
      rw [List.length_cons] at hinput
      omega
    by_cases hroom : consumed < pageBytes ∧ nodes < pageNodes
    · obtain ⟨s, hstep, hs⟩ := scan_cons hscan
      obtain ⟨listed, c', finished⟩ := s
      have hmoved := step_moved hok hlt hstep
      have hstop := hmoved.stop
      have hoffset := hmoved.offset
      dsimp only at hs hstop hoffset
      rw [loop, if_pos ⟨hlt, hroom⟩, hstep]
      dsimp only
      rcases hs with ⟨rfl, rfl⟩ | ⟨rfl, rest, hrest, rfl⟩
      · exact ⟨_, rfl, .done rfl (.inl rfl), fun _ _ hfinished => nomatch hfinished⟩
      · have hinput' : c'.offset + input.length = c'.stop := by
          rw [List.length_cons] at hinput
          omega
        obtain ⟨s, hloop, hstopped, -⟩ :=
          ih hmoved.ok hinput' hrest (consumed + 1) (nodes + listed.toList.length)
        rw [if_neg (by decide), hloop]
        refine ⟨_, rfl, ?_, ?_⟩
        · cases hstopped with
          | done hlisted hfinished => exact .done (congrArg _ hlisted) hfinished
          | paused front back rest' hfront hok' hstop' hoffset' hfinished hmore hscanned hlisted =>
            refine .paused (b :: front) back rest' (by rw [hfront]; rfl) hok' (hstop'.trans hstop)
              ?_ hfinished hmore hscanned ?_
            · show s.cursor.offset = _
              have hbehind : s.cursor.offset = c'.offset + front.length := hoffset'
              rw [List.length_cons]
              omega
            · rw [hlisted, ← List.append_assoc]
        · intro _ _ hfinished hmore
          cases hstopped with
          | done hlisted hdone =>
            rcases hdone with hdone | hdone
            · exact absurd (hfinished.symm.trans hdone) (by decide)
            · exact absurd hdone (Nat.ne_of_lt hmore)
          | paused front back rest' hfront hok' hstop' hoffset' =>
            show c.offset < s.cursor.offset
            have hbehind : s.cursor.offset = c'.offset + front.length := hoffset'
            omega
    · rw [loop, if_neg (fun h => hroom h.2)]
      exact ⟨_, rfl, .paused [] (b :: input) all rfl hok rfl rfl rfl hlt hscan rfl,
        fun hb hn => absurd ⟨hb, hn⟩ hroom⟩

/-- The pages that follow from some arguments list what one scan lists. -/
theorem follow_scan (hbytes : 0 < pageBytes) (hnodes : 0 < pageNodes)
    (hlength : text.length < 2 ^ 64) {fuel : Nat} {arguments : Text} {c : Cursor}
    {all : List Listed} (hparse : Cursor.parse arguments text.length = .ok c)
    (hok : c.Ok text.length) (hfuel : c.stop < c.offset + fuel)
    (hscan : scan ((text.take c.stop).drop c.offset) c = .ok all) :
    ∃ pages, follow pageBytes pageNodes text fuel arguments = .ok (some pages) ∧
      pages.flatMap Page.listed = all := by
  induction fuel generalizing arguments c all with
  | zero => exact absurd hok.offset (by omega)
  | succ fuel ih =>
    have hinput : c.offset + ((text.take c.stop).drop c.offset).length = c.stop := by
      have hoffset := hok.offset
      rw [List.length_drop, List.length_take_of_le hok.stop]
      omega
    obtain ⟨s, hloop, hstopped, hprogress⟩ := loop_stopped hok hinput hscan 0 0
    have hrun : run pageBytes pageNodes text arguments = .ok ⟨s.listed,
        if !s.finished && decide (s.cursor.offset < s.cursor.stop) then some s.cursor.arguments
        else none⟩ := by
      rw [run, hparse]
      show page pageBytes pageNodes _ c = _
      rw [page, hloop]
      rfl
    cases hstopped with
    | done hlisted hfinished =>
      have hnone : (!s.finished && decide (s.cursor.offset < s.cursor.stop)) = false := by
        rcases hfinished with h | h <;> simp [h]
      rw [hnone, if_neg (by decide)] at hrun
      rw [follow, hrun]
      exact ⟨[⟨s.listed, none⟩], rfl, by simpa using hlisted⟩
    | paused front back rest hfront hok' hstop hoffset hfinished hmore hscanned hlisted =>
      have hsome : (!s.finished && decide (s.cursor.offset < s.cursor.stop)) = true := by
        simp [hfinished, hmore]
      have hlt := hprogress hbytes hnodes hfinished hmore
      have hback : (text.take s.cursor.stop).drop s.cursor.offset = back := by
        rw [hstop, hoffset, ← List.drop_drop, hfront, List.drop_left]
      obtain ⟨pages, hpages, hall⟩ := ih (Cursor.parse_arguments hok' hlength) hok'
        (by omega) (hback ▸ hscanned)
      rw [hsome, if_pos rfl] at hrun
      rw [follow, hrun]
      refine ⟨⟨s.listed, some s.cursor.arguments⟩ :: pages, ?_, ?_⟩
      · show (follow pageBytes pageNodes text fuel s.cursor.arguments).bind _ = _
        rw [hpages]
        rfl
      · rw [List.flatMap_cons, hall, hlisted]

end Pages

end BareLine.JsonTools
