import BareLine.Lib.Leftmost

/-!
# Scans that meet candidates that do not count

A scan from left to right takes the next occurrence from where it stands.  One that counts it
visits, and goes on behind it; another it skips, and goes on somewhere behind its start.  It
visits the leftmost choice among those that count just if no skip passes one.
-/

namespace BareLine.Lib

/-! ## §1 Scans -/

/-- A turn of a scan: an occurrence it visits, or one it skips and where it goes on. -/
inductive ScanEvent where
  | visit (q : Nat)
  | skip (q resume : Nat)
  deriving DecidableEq, Repr

/-- What a scan visits. -/
def visits : List ScanEvent → List Nat
  | [] => []
  | .visit q :: events => q :: visits events
  | .skip _ _ :: events => visits events

theorem visits_append (a b : List ScanEvent) : visits (a ++ b) = visits a ++ visits b := by
  induction a with
  | nil => rfl
  | cons event a ih =>
    cases event with
    | visit q => exact congrArg (q :: ·) ih
    | skip q resume => exact ih

/-- The scan from `pos` on among the occurrences `Q` of a length that start in front of `stop`;
those that count are visited. -/
inductive Scans (Q counts : Nat → Prop) (length stop : Nat) : Nat → List ScanEvent → Prop
  | done {pos : Nat} (none : ∀ q, Q q → pos ≤ q → stop ≤ q) : Scans Q counts length stop pos []
  | visit {pos q : Nat} {rest : List ScanEvent} (here : Q q) (le : pos ≤ q) (lt : q < stop)
      (first : ∀ p, Q p → pos ≤ p → q ≤ p) (yes : counts q)
      (more : Scans Q counts length stop (q + length) rest) :
      Scans Q counts length stop pos (.visit q :: rest)
  | skip {pos q resume : Nat} {rest : List ScanEvent} (here : Q q) (le : pos ≤ q) (lt : q < stop)
      (first : ∀ p, Q p → pos ≤ p → q ≤ p) (no : ¬counts q) (forward : q < resume)
      (within : resume ≤ q + length) (more : Scans Q counts length stop resume rest) :
      Scans Q counts length stop pos (.skip q resume :: rest)

variable {Q counts : Nat → Prop} {length stop pos : Nat} {events : List ScanEvent}

/-- Where no occurrence stands, a scan may start further on. -/
theorem Scans.back {pos' : Nat} (h : Scans Q counts length stop pos events) (hle : pos' ≤ pos)
    (hquiet : ∀ q, Q q → pos' ≤ q → q < stop → pos ≤ q) : Scans Q counts length stop pos' events := by
  cases h with
  | done none =>
    refine .done fun q hq hpos => ?_
    by_contra hlt
    exact hlt (none q hq (hquiet q hq hpos (Nat.lt_of_not_le hlt)))
  | visit here le lt first yes more =>
    refine .visit here (Nat.le_trans hle le) lt (fun p hp hpos => ?_) yes more
    rcases Nat.lt_or_ge p stop with hto | hto
    · exact first p hp (hquiet p hp hpos hto)
    · omega
  | skip here le lt first no forward within more =>
    refine .skip here (Nat.le_trans hle le) lt (fun p hp hpos => ?_) no forward within more
    rcases Nat.lt_or_ge p stop with hto | hto
    · exact first p hp (hquiet p hp hpos hto)
    · omega

/-- A scan visits nothing in front of where it stands. -/
theorem Scans.le_of_mem (h : Scans Q counts length stop pos events) :
    ∀ q ∈ visits events, pos ≤ q := by
  induction h with
  | done => exact nofun
  | visit _ le _ _ _ _ ih =>
    exact List.forall_mem_cons.mpr ⟨le, fun q hq => Nat.le_trans (Nat.le_add_right_of_le le) (ih q hq)⟩
  | skip _ le _ _ _ forward _ _ ih => exact fun q hq => by have := ih q hq; omega

/-- A scan in windows goes on at the split of a window, or behind the last visit. -/
theorem Scans.resume {place split next : Nat} (hnext : next ≤ place)
    (h : Scans Q counts length stop (max split next) events)
    (hquiet : ∀ q, Q q → place ≤ q → split ≤ q) :
    Scans Q counts length stop (max next (min place split)) events := by
  refine h.back (by omega) fun q hq hle _ => ?_
  by_contra hlt
  have := hquiet q hq (by omega)
  omega

/-! ## §2 What they visit -/

/-- An occurrence that counts. -/
def Counted (Q counts : Nat → Prop) (stop q : Nat) : Prop := Q q ∧ counts q ∧ q < stop

/-- No skip passes an occurrence that counts. -/
def HidesNone (Q counts : Nat → Prop) (stop : Nat) (events : List ScanEvent) : Prop :=
  ∀ q resume, .skip q resume ∈ events → ∀ p, Counted Q counts stop p → ¬(q < p ∧ p < resume)

/-- The leftmost choice of occurrences that count. -/
def Greedy (Q counts : Nat → Prop) (length stop pos : Nat) (chosen : List Nat) : Prop :=
  Leftmost.Chosen (Counted Q counts stop) id (fun q => q + length) pos chosen

/-- Behind the first choice stand the others. -/
theorem greedy_cons {q : Nat} {chosen : List Nat} (hq : Counted Q counts stop q) (hle : pos ≤ q)
    (hfirst : ∀ p, Q p → pos ≤ p → q ≤ p) : Greedy Q counts length stop pos (q :: chosen) ↔
      Greedy Q counts length stop (q + length) chosen := by
  constructor
  · rintro ⟨there, hpicks, hlast⟩
    cases hpicks with
    | cons candidate le first more => exact ⟨there, more, hlast⟩
  · rintro ⟨there, hpicks, hlast⟩
    refine ⟨there, .cons hq hle (fun p hp hp' => ?_) hpicks, hlast⟩
    rcases Nat.eq_or_lt_of_le (hfirst p hp.1 hp') with heq | hlt
    · exact .inl heq.symm
    · exact .inr hlt

/-- A scan visits the leftmost choice just if no skip passes an occurrence that counts. -/
theorem Scans.greedy_iff (h : Scans Q counts length stop pos events) :
    Greedy Q counts length stop pos (visits events) ↔ HidesNone Q counts stop events := by
  induction h with
  | @done pos none =>
    refine ⟨fun _ => nofun, fun _ => ⟨pos, .nil _, fun p hp => ?_⟩⟩
    by_contra hge
    exact absurd hp.2.2 (Nat.not_lt.mpr (none p hp.1 (Nat.le_of_not_lt hge)))
  | @visit pos q rest here le lt first yes more ih =>
    rw [visits, greedy_cons ⟨here, yes, lt⟩ le first, ih]
    constructor
    · intro hrest q' resume hmem
      rcases List.mem_cons.mp hmem with heq | hmem
      · exact nomatch heq
      · exact hrest q' resume hmem
    · exact fun hall q' resume hmem => hall q' resume (List.mem_cons_of_mem _ hmem)
  | @skip pos q resume rest here le lt first no forward within more ih =>
    have hges := more.le_of_mem
    constructor
    · intro hgreedy
      -- what the skip would pass comes before all the scan goes on to visit
      have hclear : ∀ p, Counted Q counts stop p → ¬(q < p ∧ p < resume) := by
        rintro p hp ⟨hlo, hhi⟩
        obtain ⟨there, hpicks, hlast⟩ := hgreedy
        rw [visits] at hpicks
        generalize hchosen : visits rest = chosen at hpicks hges
        cases hpicks with
        | nil =>
          have := hlast p hp
          simp only [id_eq] at this
          omega
        | @cons _ _ i _ candidate le' first' more' =>
          have hge := hges i (List.mem_cons_self ..)
          rcases first' p hp (Nat.le_trans le (Nat.le_of_lt hlo)) with rfl | hlt
          · omega
          · simp only [id_eq] at hlt
            omega
      have hrest := ih.mp (hgreedy.forward (by omega) hges)
      intro q' resume' hmem
      rcases List.mem_cons.mp hmem with heq | hmem
      · obtain ⟨rfl, rfl⟩ := ScanEvent.skip.inj heq
        exact hclear
      · exact hrest q' resume' hmem
    · intro hall
      have hquiet : ∀ p, Counted Q counts stop p → pos ≤ p → resume ≤ p := fun p hp hpos => by
        have hge := first p hp.1 hpos
        rcases Nat.eq_or_lt_of_le hge with rfl | hlt
        · exact absurd hp.2.1 no
        · exact Nat.le_of_not_lt fun hbefore =>
            hall q resume (List.mem_cons_self ..) p hp ⟨hlt, hbefore⟩
      refine Leftmost.Chosen.back (ih.mpr ?_) (by omega) hquiet
      exact fun q' resume' hmem => hall q' resume' (List.mem_cons_of_mem _ hmem)

/-- Where no occurrence that does not count overlaps a later one that does, nothing is hidden. -/
theorem Scans.hidesNone (h : Scans Q counts length stop pos events)
    (hapart : ∀ q p, Q q → ¬counts q → pos ≤ q → Counted Q counts stop p → q < p →
      q + length ≤ p) : HidesNone Q counts stop events := by
  induction h with
  | done => exact nofun
  | visit here le lt first yes more ih =>
    have hrest := ih fun q p hq hno hpos => hapart q p hq hno (by omega)
    intro q' resume hmem
    rcases List.mem_cons.mp hmem with heq | hmem
    · exact nomatch heq
    · exact hrest q' resume hmem
  | skip here le lt first no forward within more ih =>
    have hrest := ih fun q p hq hno hpos => hapart q p hq hno (by omega)
    intro q' resume' hmem
    rcases List.mem_cons.mp hmem with heq | hmem
    · obtain ⟨rfl, rfl⟩ := ScanEvent.skip.inj heq
      rintro p hp ⟨hlo, hhi⟩
      have := hapart _ p here no le hp hlo
      omega
    · exact hrest q' resume' hmem

end BareLine.Lib
