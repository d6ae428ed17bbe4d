import BareLine.Window.Reading

/-!
# Where a display window is cut

The requested bytes fall into the end of a scalar that began before them, a text, and the start of
a scalar that goes on behind them.  The window reports the text; where the bytes do not fall apart
so, no document has them at that place.
-/

namespace BareLine.Window

open Lib Codec

/-! ## §1 Parts -/

/-- Edges that hold the bytes of `t` between `pre` and `post`. -/
structure Edges.At (e : Edges) (t pre post : Bytes) : Prop where
  whole : t = pre ++ (e.bytes ++ post)
  start : e.range.start = pre.length
  stop : e.range.stop = pre.length + e.bytes.length

/-- A range of the document, with its bytes. -/
theorem Edges.at_range {t : Bytes} {r : Range} (hle : r.start ≤ r.stop) (hin : r.stop ≤ t.length) :
    Edges.At ⟨r, r.of t⟩ t (t.take r.start) (t.drop r.stop) where
  whole := by
    have hfront : t.take r.start = (t.take r.stop).take r.start := by
      rw [List.take_take, Nat.min_eq_left hle]
    rw [hfront, Range.of, ← List.append_assoc, List.take_append_drop, List.take_append_drop]
  start := by rw [List.length_take, Nat.min_eq_left (Nat.le_trans hle hin)]
  stop := by
    simp only [List.length_take, Range.of_length]
    omega

/-- The bytes of `t` as the window sees them. -/
structure Parts (t pre conts text tail post : Bytes) : Prop where
  whole : t = pre ++ (conts ++ (text ++ (tail ++ post)))
  continues : Continues conts
  three : conts.length ≤ 3
  origin : pre = [] → conts = []
  text : IsText text
  tail : tail = [] ∨ Codec.scan tail = .cut ∧ post ≠ []

/-- No document has these bytes where they are: right at its start when nothing is before them,
right at its end when nothing is behind them. -/
def Misplaced (pre asked post : Bytes) : Prop :=
  ∀ x y : Bytes, (pre = [] → x = []) → (post = [] → y = []) → ¬IsText (x ++ (asked ++ y))

/-! ## §2 Alignment -/

/-- The front of the window loses at most three bytes, all of one scalar. -/
theorem alignFront_spec {e : Edges} {t pre post : Bytes} (h : e.At t pre post) :
    ∃ conts rest, e.bytes = conts ++ rest ∧ Continues conts ∧ conts.length ≤ 3 ∧
      (pre = [] → conts = []) ∧ (pre ≠ [] → conts.length = 3 ∨ StartsClean rest) ∧
      e.alignFront = ⟨⟨pre.length + conts.length, e.range.stop⟩, rest⟩ := by
  rw [Edges.alignFront, h.start]
  by_cases hpre : pre.length = 0
  · refine ⟨[], e.bytes, rfl, fun _ hb => (by cases hb), Nat.zero_le _, fun _ => rfl,
      fun hne => absurd (List.length_eq_zero_iff.mp hpre) hne, ?_⟩
    rw [if_neg (not_not.mpr hpre), ← h.start]
    rfl
  · rw [if_pos hpre]
    have hfront : (e.bytes.take 3).takeWhile isContinuation <+: e.bytes :=
      (List.takeWhile_prefix _).trans (List.take_prefix _ _)
    obtain ⟨rest, hrest⟩ := hfront
    generalize hconts : (e.bytes.take 3).takeWhile isContinuation = conts at hrest
    have hall : Continues conts := fun b hb => by
      rw [← hconts] at hb
      exact List.all_eq_true.mp List.all_takeWhile b hb
    have hlen : conts.length ≤ 3 := by
      rw [← hconts]
      exact Nat.le_trans (List.takeWhile_prefix _).length_le (List.length_take_le _ _)
    refine ⟨conts, rest, hrest.symm, hall, hlen,
      fun hnil => absurd (List.length_eq_zero_iff.mpr hnil) hpre, fun _ => ?_, ?_⟩
    · by_cases hthree : conts.length = 3
      · exact .inl hthree
      · refine .inr fun b hb => ?_
        -- the byte behind the dropped ones was looked at, and kept
        cases rest with
        | nil => cases hb
        | cons a rest =>
          obtain rfl := Option.some.inj hb
          have htake : e.bytes.take 3 = conts ++ ([a] ++ rest.take (2 - conts.length)) := by
            rw [← hrest, List.take_append, List.take_of_length_le hlen]
            congr 1
            obtain ⟨k, hk⟩ : ∃ k, 3 - conts.length = k + 1 := ⟨2 - conts.length, by omega⟩
            rw [hk, List.take_succ_cons, show 2 - conts.length = k by omega]
            rfl
          rw [htake, List.takeWhile_append_of_pos (fun b hb => hall b hb)] at hconts
          by_contra hcont
          rw [Bool.not_eq_false] at hcont
          rw [List.singleton_append, List.takeWhile_cons_of_pos hcont] at hconts
          have := congrArg List.length hconts
          simp at this
    · dsimp only
      rw [← hrest, List.drop_left]

/-- Bytes behind a text that start no scalar are misplaced with it. -/
theorem misplaced_of_rest {pre conts text rest post : Bytes} (hne : rest ≠ [])
    (hconts : Continues conts) (horigin : pre = [] → conts = [])
    (hskip : pre ≠ [] → conts.length = 3 ∨ StartsClean (text ++ rest)) (htext : IsText text)
    (hbad : ∀ y : Bytes, (post = [] → y = []) → ¬IsText (rest ++ y)) :
    Misplaced pre (conts ++ (text ++ rest)) post := by
  intro x y hx hy hwhole
  rw [List.append_assoc, List.append_assoc] at hwhole
  have hfalse : IsText (text ++ (rest ++ y)) → False := fun h => hbad y hy (htext.of_append h)
  by_cases hpre : pre = []
  · rw [hx hpre, horigin hpre] at hwhole
    exact hfalse hwhole
  by_cases hclean : StartsClean (text ++ rest)
  · have hstart : StartsClean (text ++ (rest ++ y)) := by
      rw [← List.append_assoc]
      exact hclean.append (List.append_ne_nil_of_right_ne_nil _ hne)
    rw [← List.append_assoc] at hwhole
    exact hfalse (hwhole.of_clean hstart).2
  -- four bytes in a row that continue a scalar
  have hthree := (hskip hpre).resolve_right hclean
  cases hrest : text ++ rest with
  | nil => exact hclean (by rw [hrest]; exact startsClean_nil)
  | cons b more =>
    have hb : isContinuation b = true := by
      by_contra hno
      rw [Bool.not_eq_true] at hno
      exact hclean (by rw [hrest]; exact fun a ha => by cases ha; exact hno)
    have hfour : IsText (x ++ ((conts ++ [b]) ++ (more ++ y))) := by
      rw [← List.append_assoc text, hrest] at hwhole
      simpa using hwhole
    have := hfour.continues_three fun a ha => by
      rcases List.mem_append.mp ha with ha | ha
      · exact hconts a ha
      · exact List.mem_singleton.mp ha ▸ hb
    rw [List.length_append, hthree] at this
    exact absurd this (Nat.not_succ_le_self 3)

/-- No front of a cut scalar is a text. -/
theorem not_isText_of_cut {u v : Bytes} (h : Codec.scan (u ++ v) = .cut) (hne : u ≠ []) :
    ¬IsText u := by
  intro htext
  obtain ⟨c, w, rfl, hc, -⟩ := htext.cases_scan hne
  rw [List.append_assoc, hc.scan_append] at h
  cases h

/-- What decoding the aligned bytes means. -/
inductive AlignSpec (e : Edges) (t pre post : Bytes) (aligned : Edges) :
    Except Utf8Error Bytes → Prop where
  | ok (conts text tail : Bytes) (parts : Parts t pre conts text tail post)
      (bytes : e.bytes = conts ++ (text ++ tail))
      (range : aligned.range =
        ⟨pre.length + conts.length, pre.length + conts.length + text.length⟩) :
      AlignSpec e t pre post aligned (.ok text)
  | error (err : Utf8Error) (misplaced : Misplaced pre e.bytes post) :
      AlignSpec e t pre post aligned (.error err)

/-- The aligned bytes are a text in the window, or the window is not from a document. -/
theorem align_spec {e : Edges} {t pre post : Bytes} (h : e.At t pre post) :
    AlignSpec e t pre post (e.alignFront.alignBack t.length)
      (fromUtf8 (e.alignFront.alignBack t.length).bytes) := by
  obtain ⟨conts, rest, hbytes, hall, hthree, horigin, hskip, hfront⟩ := alignFront_spec h
  have hstop : e.range.stop = pre.length + conts.length + rest.length := by
    rw [h.stop, hbytes, List.length_append, Nat.add_assoc]
  have hend : e.range.stop < t.length ↔ post ≠ [] := by
    have hlen := congrArg List.length h.whole
    rw [List.length_append, List.length_append, ← Nat.add_assoc, ← h.stop] at hlen
    rw [← List.length_pos_iff]
    omega
  have hwhole : t = pre ++ (conts ++ (rest ++ post)) := by
    rw [h.whole, hbytes, List.append_assoc]
  have hsame : ∀ e' : Edges, (if e.range.stop < t.length then e' else e') = e' :=
    fun e' => ite_self _
  rw [hfront, Edges.alignBack]
  dsimp only
  cases hdecode : fromUtf8 rest with
  | ok text =>
    -- nothing to cut at the back
    obtain ⟨rfl, htext⟩ := fromUtf8_eq_ok hdecode
    rw [hsame, hdecode]
    exact .ok conts text [] ⟨hwhole, hall, hthree, horigin, htext, .inl rfl⟩ (by simpa using hbytes)
      (by rw [hstop])
  | error err =>
    obtain ⟨text, more, rfl, hmore, hlen, htext, hkind⟩ := fromUtf8_error hdecode
    rcases hkind with ⟨hnone, hcut⟩ | ⟨k, hsome, hbad⟩
    · obtain ⟨valid, errorLen⟩ := err
      obtain rfl : errorLen = none := hnone
      obtain rfl : text.length = valid := hlen
      dsimp only
      by_cases hpost : post = []
      · -- the document ends inside a scalar
        rw [if_neg (fun hlt => hend.mp hlt hpost), hdecode]
        refine .error _ ?_
        rw [hbytes]
        refine misplaced_of_rest hmore hall horigin hskip htext fun y hy hrest => ?_
        rw [hy hpost, List.append_nil] at hrest
        exact not_isText_of_cut (v := []) (by rwa [List.append_nil]) hmore hrest
      · rw [if_pos (hend.mpr hpost)]
        dsimp only
        rw [List.take_left, fromUtf8_ok htext]
        refine .ok conts text more
          ⟨by rw [hwhole, List.append_assoc], hall, hthree, horigin, htext, .inr ⟨hcut, hpost⟩⟩
          hbytes ?_
        have hend' : e.range.stop - ((text ++ more).length - text.length) =
            pre.length + conts.length + text.length := by
          rw [hstop, List.length_append]
          omega
        rw [hend']
    · obtain ⟨valid, errorLen⟩ := err
      obtain rfl : errorLen = some k := hsome
      dsimp only
      rw [hsame, hdecode]
      refine .error _ ?_
      rw [hbytes]
      refine misplaced_of_rest hmore hall horigin hskip htext fun y _ hrest => ?_
      obtain ⟨c, w, heq, hc, -⟩ := hrest.cases_scan (List.append_ne_nil_of_left_ne_nil hmore y)
      have hvalid := hc.scan_append w
      rw [← heq, hbad y] at hvalid
      cases hvalid

end BareLine.Window
