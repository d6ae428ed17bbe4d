import BareLine.Power.Transform

/-!
# The ranges of a command

A command on lines works on whole lines.  The ranges of the selections are gathered where they
touch, so the targets of a command are in order, lie apart, and hold their selections; a block
moves past the line next to it, which no other target holds.
-/

namespace BareLine.Power

open Lib
open Search (Text)
open String (utf8Len)

/-! ## §1 The lines of a snapshot -/

/-- Every line up to that of an offset starts at or before it. -/
theorem exists_startsAt (t : Bytes) {n o : Nat} (h : n ≤ Lib.lineAt t o) :
    ∃ p, p ≤ o ∧ StartsAt t n p := by
  induction o with
  | zero => exact ⟨0, Nat.le_refl _, .inl ⟨Nat.le_zero.mp h, rfl⟩⟩
  | succ o ih =>
    rcases Nat.lt_or_ge (Lib.lineAt t o) n with hlt | hge
    · rw [Lib.lineAt] at h
      split_ifs at h with hends
      · refine ⟨o + 1, Nat.le_refl _, .inr ⟨hends, ?_⟩⟩
        rw [Lib.lineAt, if_pos hends]
        omega
      · omega
    · obtain ⟨p, hp, hstart⟩ := ih hge
      exact ⟨p, Nat.le_succ_of_le hp, hstart⟩

namespace DocumentSnapshot

variable {snapshot : DocumentSnapshot}

/-- The bytes of the text. -/
def bytes (snapshot : DocumentSnapshot) : Bytes := encode snapshot.text

@[simp] theorem length_bytes : snapshot.bytes.length = snapshot.len := length_encode _

theorem lineStart_spec {n p : Nat} (h : snapshot.lineStart n = some p) :
    StartsAt snapshot.bytes n p := by
  rw [lineStart] at h
  split_ifs at h with hzero
  · obtain rfl := Option.some.inj h
    exact .inl ⟨hzero, rfl⟩
  · have hfound := List.find?_some h
    simp only [Bool.and_eq_true, beq_iff_eq] at hfound
    exact .inr hfound

/-- A line that is not found starts nowhere. -/
theorem lineStart_none {n : Nat} (h : snapshot.lineStart n = none) (p : Nat) :
    ¬StartsAt snapshot.bytes n p := by
  rw [lineStart] at h
  split_ifs at h with hzero
  rintro (⟨hn, -⟩ | ⟨hends, hline⟩)
  · exact hzero hn
  · have hle := endsLine_le hends
    rw [length_bytes] at hle
    have hnot := List.find?_eq_none.mp h p (List.mem_range.mpr (Nat.lt_succ_of_le hle))
    simp only [Bool.and_eq_true, beq_iff_eq] at hnot
    exact hnot ⟨hends, hline⟩

/-- A line starts at an offset, or the text ends there and no line starts behind. -/
def StopsAt (snapshot : DocumentSnapshot) (n p : Nat) : Prop :=
  StartsAt snapshot.bytes (n + 1) p ∨
    p = snapshot.len ∧ ∀ q, ¬StartsAt snapshot.bytes (n + 1) q

theorem lineRange_spec {n : Nat} {r : Range} (h : snapshot.lineRange n = .ok r) :
    StartsAt snapshot.bytes n r.start ∧ snapshot.StopsAt n r.stop := by
  rw [lineRange] at h
  split at h
  · exact nomatch h
  · rename_i start hstart
    obtain rfl := Except.ok.inj h
    refine ⟨lineStart_spec hstart, ?_⟩
    cases hnext : snapshot.lineStart (n + 1) with
    | some stop => exact .inl (lineStart_spec hnext)
    | none => exact .inr ⟨rfl, lineStart_none hnext⟩

/-- Behind the end of a line are the offsets of later lines. -/
theorem StopsAt.le_iff {n p o : Nat} (h : snapshot.StopsAt n p) (ho : o < snapshot.len) :
    p ≤ o ↔ n < Lib.lineAt snapshot.bytes o := by
  rcases h with hstart | ⟨rfl, hnone⟩
  · exact hstart.le_iff
  · refine ⟨fun hle => absurd ho (Nat.not_lt.mpr hle), fun hlt => ?_⟩
    obtain ⟨q, -, hq⟩ := exists_startsAt _ (show n + 1 ≤ Lib.lineAt snapshot.bytes o from hlt)
    exact absurd hq (hnone q)

theorem StopsAt.le {n p : Nat} (h : snapshot.StopsAt n p) : p ≤ snapshot.len := by
  rcases h with hstart | ⟨rfl, -⟩
  · rw [← length_bytes]
    exact hstart.le
  · exact Nat.le_refl _

/-- An offset on a line lies within it. -/
theorem StopsAt.lt {n p o : Nat} (h : snapshot.StopsAt n p)
    (ho : Lib.lineAt snapshot.bytes o ≤ n) : o < p ∨ p = snapshot.len := by
  rcases h with hstart | ⟨rfl, -⟩
  · exact .inl (Nat.lt_of_not_le fun hp => absurd (hstart.le_iff.mp hp) (by omega))
  · exact .inr rfl

theorem lineAt_spec {o n : Nat} (h : snapshot.lineAt o = .ok n) :
    o ≤ snapshot.len ∧ n = Lib.lineAt snapshot.bytes o := by
  rw [lineAt] at h
  split_ifs at h with hlen hboundary
  exact ⟨Nat.le_of_not_lt hlen, (Except.ok.inj h).symm⟩

/-- A range of whole lines. -/
structure Lines (snapshot : DocumentSnapshot) (r : Range) : Prop where
  start : r.start = 0 ∨ endsLine snapshot.bytes r.start = true
  stop : r.stop = snapshot.len ∨ endsLine snapshot.bytes r.stop = true

theorem Lines.startsAt {r : Range} (h : snapshot.Lines r) :
    StartsAt snapshot.bytes (Lib.lineAt snapshot.bytes r.start) r.start := by
  rcases h.start with hzero | hends
  · rw [hzero]
    exact .inl ⟨rfl, rfl⟩
  · exact .inr ⟨hends, rfl⟩

theorem lines_of {n m : Nat} {r : Range} (hstart : StartsAt snapshot.bytes n r.start)
    (hstop : snapshot.StopsAt m r.stop) : snapshot.Lines r where
  start := hstart.imp And.right And.left
  stop := by
    rcases hstop with (⟨hzero, -⟩ | ⟨hends, -⟩) | ⟨hlen, -⟩
    · exact nomatch hzero
    · exact .inr hends
    · exact .inl hlen

/-- Between two offsets without a terminator no line ends. -/
theorem lineAt_eq_of_quiet {t : Bytes} {a b : Nat} (hle : a ≤ b)
    (h : ∀ q, a ≤ q → q < b → t[q]? ≠ some CR ∧ t[q]? ≠ some LF) :
    Lib.lineAt t b = Lib.lineAt t a := by
  induction hle with
  | refl => rfl
  | @step b hle ih =>
    have hquiet := h b hle (Nat.lt_succ_self b)
    have hends : endsLine t (b + 1) = false := by
      rw [endsLine, beq_eq_false_iff_ne.mpr hquiet.1, beq_eq_false_iff_ne.mpr hquiet.2]
      rfl
    rw [Lib.lineAt, hends, ih fun q hq hlt => h q hq (Nat.lt_succ_of_lt hlt)]
    rfl

/-- The bytes of a part without terminators are none. -/
theorem quiet_part {before part after : Text} (htext : snapshot.text = before ++ (part ++ after))
    (hpart : ∀ c ∈ part, c ≠ '\r' ∧ c ≠ '\n') {q : Nat} (hlo : utf8Len before ≤ q)
    (hhi : q < utf8Len before + utf8Len part) :
    snapshot.bytes[q]? ≠ some CR ∧ snapshot.bytes[q]? ≠ some LF := by
  have hbyte : snapshot.bytes[q]? = (encode part)[q - utf8Len before]? := by
    rw [bytes, htext, encode_append, encode_append, List.getElem?_append_right (by simpa using hlo),
      length_encode, List.getElem?_append_left (by rw [length_encode]; omega)]
  rw [hbyte]
  refine ⟨fun h => ?_, fun h => ?_⟩
  · obtain ⟨x, y, rfl, -⟩ := (getElem?_encode (c := '\r') (by decide)).mp h
    exact (hpart '\r' (by simp)).1 rfl
  · obtain ⟨x, y, rfl, -⟩ := (getElem?_encode (c := '\n') (by decide)).mp h
    exact (hpart '\n' (by simp)).2 rfl

end DocumentSnapshot

/-! ## §2 The range of a selection -/

variable {u : Unicode} {snapshot : DocumentSnapshot} {action : Transform} {limits : Limits}

/-- Snapping an offset inside a scalar stays on its line. -/
theorem lineAt_snap {stop p : Nat} (hstop : snapshot.isBoundary stop = true) (hpos : 0 < stop)
    (hinside : snapshot.isBoundary (stop - 1) = false)
    (h : snap u snapshot (stop - 1) limits = .ok p) :
    Lib.lineAt snapshot.bytes p = Lib.lineAt snapshot.bytes (stop - 1) := by
  have hbelow := fun k (hk : snapshot.isBoundary k = true) (hle : k ≤ stop - 1) =>
    Search.boundaryUpTo_spec hk hle
  obtain ⟨-, hmle, hm⟩ := hbelow 0 (isScalarBoundary_zero _) (Nat.zero_le _)
  have hlast := fun k hk hle => (hbelow k hk hle).1
  rw [snap] at h
  split at h
  · cases h
  dsimp only at h
  generalize Search.boundaryUpTo snapshot.toDocumentSnapshot (stop - 1) = m at *
  have hlt : m < stop - 1 := Nat.lt_of_le_of_ne hmle fun heq =>
    absurd hm (by rw [heq, hinside]; exact Bool.false_ne_true)
  -- one scalar of several bytes stands from the boundary found to the end
  obtain ⟨a, rest, htext, rfl⟩ := isScalarBoundary_iff.mp hm
  obtain ⟨c, tail, rfl, hwidth⟩ : ∃ c tail, rest = c :: tail ∧ stop = utf8Len a + c.utf8Size := by
    obtain ⟨left, right, hleft, hlen⟩ := Search.cut_at (show snapshot.text = a ++ (rest ++ []) by
      rw [List.append_nil, htext]) hstop (by omega) (by
        have hend := le_of_isScalarBoundary hstop
        rwa [htext, String.utf8Len_append] at hend)
    cases left with
    | nil =>
      rw [String.utf8Len_nil] at hlen
      omega
    | cons c left =>
      refine ⟨c, left ++ right, hleft, ?_⟩
      rw [String.utf8Len_cons] at hlen
      by_contra hmore
      have hc : 0 < c.utf8Size := Char.utf8Size_pos c
      have hinner := hlast (utf8Len a + c.utf8Size) (isScalarBoundary_iff.mpr
        ⟨a ++ [c], left ++ right, by rw [htext, hleft]; simp, by simp⟩) (by omega)
      omega
  have hwide : 1 < c.utf8Size := by omega
  have hbreak : c ≠ '\r' ∧ c ≠ '\n' :=
    ⟨fun h => absurd hwide (by rw [h]; decide), fun h => absurd hwide (by rw [h]; decide)⟩
  -- and what stands from the cluster's start to that scalar holds no terminator
  obtain ⟨front, mid, rfl, rfl, hmid⟩ : ∃ front mid, a = front ++ mid ∧ p = utf8Len front ∧
      ∀ x ∈ mid, x ≠ '\r' ∧ x ≠ '\n' := by
    split at h
    · obtain rfl := Except.ok.inj h
      exact ⟨a, [], (List.append_nil a).symm, rfl, (by simp)⟩
    · obtain ⟨hple, hp⟩ := u.seek_boundary _ _ _ _ h
      obtain ⟨front, mid, rfl, rfl⟩ := Search.cut_at
        (show snapshot.text = [] ++ (a ++ c :: tail) from htext) hp (Nat.zero_le _)
        (by simpa using hple)
      refine ⟨front, mid, rfl, by simp, fun x hx => ?_⟩
      have hline := u.seek_line _ _ _ _ h x
      rw [htext, getFrom_append, String.utf8Len_append, String.utf8Len_nil, Nat.zero_add,
        List.append_assoc, Search.slice_parts] at hline
      by_contra hx'
      have hnext := (hline hx (by tauto)).2
      exact hbreak.2 (Option.some.inj hnext)
  have hpart : ∀ x ∈ mid ++ [c], x ≠ '\r' ∧ x ≠ '\n' := fun x hx => by
    rcases List.mem_append.mp hx with hx | hx
    · exact hmid x hx
    · exact List.mem_singleton.mp hx ▸ hbreak
  have hcut : snapshot.text = front ++ ((mid ++ [c]) ++ tail) := by
    rw [htext]
    simp
  rw [hwidth, String.utf8Len_append]
  refine (DocumentSnapshot.lineAt_eq_of_quiet (by omega) fun q hlo hhi => ?_).symm
  refine DocumentSnapshot.quiet_part hcut hpart hlo ?_
  rw [String.utf8Len_append, String.utf8Len_cons, String.utf8Len_nil]
  omega

/-- The line of the last offset a selection touches. -/
theorem lastLine_spec {s : Selection} {last : Nat}
    (hstop : snapshot.isBoundary s.range.stop = true)
    (h : lastLine u snapshot limits s = .ok last) :
    last = Lib.lineAt snapshot.bytes s.lastTouched := by
  rw [lastLine] at h
  split at h
  · rename_i line hline
    obtain rfl := Except.ok.inj h
    exact (DocumentSnapshot.lineAt_spec hline).2
  · rename_i e hline
    obtain ⟨p, hp, hlast⟩ := bind_ok.mp h
    obtain ⟨-, rfl⟩ := DocumentSnapshot.lineAt_spec hlast
    have hlen := le_of_isScalarBoundary hstop
    -- only an offset inside a scalar has no line of its own
    have hinside : s.lastTouched ≤ snapshot.len ∧ snapshot.isBoundary s.lastTouched = false := by
      rw [DocumentSnapshot.lineAt] at hline
      split_ifs at hline with hout hboundary
      · refine absurd hout (Nat.not_lt.mpr ?_)
        rw [Selection.lastTouched]
        split_ifs
        · exact (Nat.sub_le _ _).trans hlen
        · exact hlen
      · exact ⟨Nat.le_of_not_lt hout, Bool.eq_false_iff.mpr hboundary⟩
    rw [Selection.lastTouched] at hinside ⊢
    split_ifs at hinside ⊢ with hempty
    · exact lineAt_snap hstop (by omega) hinside.2 hp
    · rw [hstop] at hinside
      exact nomatch hinside.2

/-- The range of a selection: for a command on lines, the lines from the first to the last
offset it touches. -/
structure RangeOf (snapshot : DocumentSnapshot) (action : Transform) (s : Selection) (r : Range) :
    Prop where
  holds : Holds r s.range
  own : action.linewise = false → r = s.range
  start : action.linewise = true →
    StartsAt snapshot.bytes (Lib.lineAt snapshot.bytes s.range.start) r.start
  stop : action.linewise = true →
    snapshot.StopsAt (Lib.lineAt snapshot.bytes s.lastTouched) r.stop

theorem targetRange_spec {s : Selection} {r : Range}
    (hstop : snapshot.isBoundary s.range.stop = true)
    (h : targetRange u snapshot action limits s = .ok r) : RangeOf snapshot action s r := by
  have hle := s.range_le
  rw [targetRange] at h
  split_ifs at h with hline
  · obtain ⟨first, hfirst, h⟩ := bind_ok.mp h
    obtain ⟨last, hlast, h⟩ := bind_ok.mp h
    obtain ⟨head, hhead, h⟩ := bind_ok.mp h
    obtain ⟨tail, htail, h⟩ := bind_ok.mp h
    obtain rfl := Except.ok.inj h
    obtain ⟨-, rfl⟩ := DocumentSnapshot.lineAt_spec hfirst
    obtain ⟨hstart, -⟩ := DocumentSnapshot.lineRange_spec hhead
    obtain ⟨-, hstops⟩ := DocumentSnapshot.lineRange_spec htail
    obtain rfl := lastLine_spec hstop hlast
    refine ⟨⟨hstart.le_iff.mpr (Nat.le_refl _), ?_⟩, fun hno => absurd hline (by rw [hno]; decide),
      fun _ => hstart, fun _ => hstops⟩
    have hlen := le_of_isScalarBoundary hstop
    rcases hstops.lt (Nat.le_refl _) with hlt | hend
    · simp only [Selection.lastTouched] at hlt ⊢
      split_ifs at hlt <;> omega
    · exact hend ▸ hlen
  · obtain rfl := Except.ok.inj h
    exact ⟨⟨Nat.le_refl _, Nat.le_refl _⟩, fun _ => rfl, fun hyes => absurd hyes hline,
      fun hyes => absurd hyes hline⟩

/-- Ranges of later selections start no earlier. -/
theorem RangeOf.start_le {s s' : Selection} {r r' : Range} (h : RangeOf snapshot action s r)
    (h' : RangeOf snapshot action s' r') (hs : s.range.start ≤ s'.range.start) :
    r.start ≤ r'.start := by
  cases hline : action.linewise with
  | false => rwa [h.own hline, h'.own hline]
  | true =>
    rw [(h.start hline).le_iff, (h'.start hline).lineAt_eq]
    exact lineAt_mono _ hs

/-! ## §3 Gathering -/

/-- A target and the ranges that touch to make it up. -/
structure TargetOf (group : List (Range × Selection)) (t : Target) : Prop where
  members : t.members = group.map Prod.snd
  start : ∃ p ∈ group, p.1.start = t.range.start
  stop : ∃ p ∈ group, p.1.stop = t.range.stop
  holds : ∀ p ∈ group, Holds t.range p.1
  covered : ∀ x, t.range.start ≤ x → x ≤ t.range.stop →
    ∃ p ∈ group, p.1.start ≤ x ∧ x ≤ p.1.stop

theorem TargetOf.singleton (r : Range) (s : Selection) : TargetOf [(r, s)] ⟨r, [s]⟩ where
  members := rfl
  start := ⟨_, List.mem_singleton.mpr rfl, rfl⟩
  stop := ⟨_, List.mem_singleton.mpr rfl, rfl⟩
  holds p hp := by
    rw [List.mem_singleton.mp hp]
    exact ⟨Nat.le_refl _, Nat.le_refl _⟩
  covered _ hlo hhi := ⟨_, List.mem_singleton.mpr rfl, hlo, hhi⟩

/-- A range that starts at or before a target's end joins it. -/
theorem TargetOf.join {group : List (Range × Selection)} {t : Target} {r : Range} {s : Selection}
    (h : TargetOf group t) (hstart : t.range.start ≤ r.start) (htouch : r.start ≤ t.range.stop) :
    TargetOf (group ++ [(r, s)])
      ⟨⟨t.range.start, max t.range.stop r.stop⟩, t.members ++ [s]⟩ where
  members := by rw [h.members, List.map_append, List.map_singleton]
  start := by
    obtain ⟨p, hp, hs⟩ := h.start
    exact ⟨p, List.mem_append_left _ hp, hs⟩
  stop := by
    rcases Nat.le_total t.range.stop r.stop with hle | hle
    · exact ⟨(r, s), by simp, (Nat.max_eq_right hle).symm⟩
    · obtain ⟨p, hp, hs⟩ := h.stop
      exact ⟨p, List.mem_append_left _ hp, hs.trans (Nat.max_eq_left hle).symm⟩
  holds p hp := by
    rcases List.mem_append.mp hp with hp | hp
    · exact ⟨(h.holds p hp).1, (h.holds p hp).2.trans (Nat.le_max_left _ _)⟩
    · rw [List.mem_singleton.mp hp]
      exact ⟨hstart, Nat.le_max_right _ _⟩
  covered x hlo hhi := by
    dsimp only at hlo hhi
    rcases Nat.lt_or_ge t.range.stop x with hx | hx
    · refine ⟨(r, s), by simp, ?_, ?_⟩ <;> dsimp only <;> omega
    · obtain ⟨p, hp, hx⟩ := h.covered x hlo hx
      exact ⟨p, List.mem_append_left _ hp, hx⟩

/-- What gathering gives from ranges that start in order: targets in order and apart, each made
up of ranges that touch. -/
structure Gathered (pairs : List (Range × Selection)) (targets : List Target) : Prop where
  groups : ∃ groups, groups.flatten = pairs ∧ List.Forall₂ TargetOf groups targets
  apart : targets.Pairwise fun a b => a.range.stop < b.range.start

theorem gatherFrom_spec {seen pairs : List (Range × Selection)} {last : Target}
    (hlast : TargetOf seen last)
    (hsorted : (seen ++ pairs).Pairwise fun a b => a.1.start ≤ b.1.start) :
    Gathered (seen ++ pairs) (gatherFrom last pairs) ∧
      ∀ t ∈ gatherFrom last pairs, last.range.start ≤ t.range.start := by
  induction pairs generalizing seen last with
  | nil =>
    refine ⟨⟨⟨[seen], by simp, .cons hlast .nil⟩, List.pairwise_singleton ..⟩, fun t ht => ?_⟩
    rw [List.mem_singleton.mp ht]
  | cons pair rest ih =>
    obtain ⟨r, s⟩ := pair
    have hstart : last.range.start ≤ r.start := by
      obtain ⟨p, hp, hs⟩ := hlast.start
      exact hs ▸ (List.pairwise_append.mp hsorted).2.2 p hp (r, s) (by simp)
    rw [gatherFrom]
    split
    · rename_i htouch
      rw [List.append_cons] at hsorted ⊢
      exact ih (hlast.join hstart htouch) hsorted
    · rename_i hgap
      have hrest := ih (TargetOf.singleton r s) (List.pairwise_append.mp hsorted).2.1
      obtain ⟨⟨⟨groups, hflat, hgroups⟩, hapart⟩, hbehind⟩ := hrest
      refine ⟨⟨⟨seen :: groups, ?_, .cons hlast hgroups⟩, .cons (fun t ht => ?_) hapart⟩,
        fun t ht => ?_⟩
      · rw [List.flatten_cons, hflat, List.singleton_append]
      · exact Nat.lt_of_lt_of_le (Nat.lt_of_not_le hgap) (hbehind t ht)
      · rcases List.mem_cons.mp ht with rfl | ht
        · exact Nat.le_refl _
        · exact hstart.trans (hbehind t ht)

theorem gather_spec {pairs : List (Range × Selection)}
    (hsorted : pairs.Pairwise fun a b => a.1.start ≤ b.1.start) :
    Gathered pairs (gather pairs) := by
  cases pairs with
  | nil => exact ⟨⟨[], rfl, .nil⟩, .nil⟩
  | cons pair rest =>
    obtain ⟨r, s⟩ := pair
    exact (gatherFrom_spec (TargetOf.singleton r s) hsorted).1

/-! ## §4 The targets of a command -/

/-- A target: the ranges of its selections touch. -/
def IsTarget (snapshot : DocumentSnapshot) (action : Transform) (t : Target) : Prop :=
  ∃ group, TargetOf group t ∧ ∀ p ∈ group, RangeOf snapshot action p.2 p.1

/-- The targets of a command are in order and apart, and hold its selections. -/
structure Planned (snapshot : DocumentSnapshot) (action : Transform) (selections : List Selection)
    (targets : List Target) : Prop where
  members : targets.flatMap Target.members = selections
  apart : targets.Pairwise fun a b => a.range.stop < b.range.start
  each : ∀ t ∈ targets, IsTarget snapshot action t

theorem members_of_groups {groups : List (List (Range × Selection))} {ts : List Target}
    (h : List.Forall₂ TargetOf groups ts) :
    ts.flatMap Target.members = groups.flatten.map Prod.snd := by
  induction h with
  | nil => rfl
  | cons ht _ ih => rw [List.flatMap_cons, ht.members, ih, List.flatten_cons, List.map_append]

theorem isTarget_of_groups {groups : List (List (Range × Selection))} {ts : List Target}
    (h : List.Forall₂ TargetOf groups ts)
    (hpair : ∀ p ∈ groups.flatten, RangeOf snapshot action p.2 p.1) :
    ∀ t ∈ ts, IsTarget snapshot action t := by
  induction h with
  | nil => exact fun t ht => nomatch ht
  | @cons group _ _ _ ht _ ih =>
    rw [List.flatten_cons] at hpair
    exact List.forall_mem_cons.mpr
      ⟨⟨group, ht, fun p hp => hpair p (List.mem_append_left _ hp)⟩,
        ih fun p hp => hpair p (List.mem_append_right _ hp)⟩

theorem targets_spec {set : SelectionSet} {ts : List Target} (hset : Normalized snapshot set)
    (h : targets u snapshot action limits set.selections = .ok ts) :
    Planned snapshot action set.selections ts := by
  obtain ⟨ranges, hranges, h⟩ := bind_ok.mp h
  obtain rfl := Except.ok.inj h
  have hall := mapM_ok hranges
  have hsnd : (ranges.zip set.selections).map Prod.snd = set.selections :=
    List.map_snd_zip (le_of_eq hall.length_eq)
  have hpair : ∀ p ∈ ranges.zip set.selections, RangeOf snapshot action p.2 p.1 := by
    intro p hp
    have hrange : targetRange u snapshot action limits p.2 = .ok p.1 :=
      List.forall₂_zip hall.flip hp
    exact targetRange_spec (hset.boundary _ (List.of_mem_zip hp).2).2 hrange
  have hsorted : (ranges.zip set.selections).Pairwise fun a b => a.1.start ≤ b.1.start := by
    have happart : (ranges.zip set.selections).Pairwise
        fun a b => Before a.2.range b.2.range := by
      have hmap := hset.apart
      rw [← hsnd] at hmap
      exact (List.pairwise_map (R := fun a b : Selection => Before a.range b.range)).mp hmap
    exact happart.imp_of_mem fun ha hb hab =>
      (hpair _ ha).start_le (hpair _ hb) (Nat.le_of_lt hab.2)
  obtain ⟨⟨groups, hflat, hgroups⟩, hapart⟩ := gather_spec hsorted
  rw [← hflat] at hpair hsnd
  exact ⟨(members_of_groups hgroups).trans hsnd, hapart, isTarget_of_groups hgroups hpair⟩

end BareLine.Power
