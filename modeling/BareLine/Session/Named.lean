import BareLine.Session.Manifest

/-!
# Named sessions

The part of a session that a named session file keeps: the saved files, their tabs and the
layout, repaired into a valid manifest.
-/

namespace BareLine.Session

/-! ## §1 The code -/

/-- A view in the first pane. -/
def SessionTab.inFirstPane (tab : SessionTab) : SessionTab :=
  { tab with view := { tab.view with split := 0 } }

/-- Both panes have a tab. -/
def bothPanes (tabs : List SessionTab) : Bool :=
  [0, 1].all fun pane => tabs.any fun tab => tab.view.split == pane

/-- Some tab has this id. -/
def hasTab (tabs : List SessionTab) (id : Nat) : Bool := tabs.any fun tab => tab.id == id

/-- The layout when the other pane of a split has no tab left. -/
def SessionLayout.collapse (layout : SessionLayout) : SessionLayout :=
  { layout with
    split := false
    activeTabs := ![(layout.activeTabs 0).or (layout.activeTabs 1), none] }

/-- The layout without what refers to tabs that are gone. -/
def SessionLayout.retain (layout : SessionLayout) (tabs : List SessionTab) : SessionLayout :=
  { layout with
    tabColors := layout.tabColors.retain (hasTab tabs)
    activeTabs := fun pane => (layout.activeTabs pane).filter (hasTab tabs) }

/-- The layout with the active tab shown in its pane; none when the pane has no place in the
array. -/
def SessionLayout.activate (layout : SessionLayout) : Option SessionTab → Option SessionLayout
  | none => some { layout with activePane := 0 }
  | some tab =>
    if h : tab.view.split < 2 then
      some { layout with
        activePane := tab.view.split
        activeTabs := Function.update layout.activeTabs ⟨tab.view.split, h⟩ (some tab.id) }
    else none

/-- The tab that is active. -/
def activeIn (tabs : List SessionTab) (active : Option Nat) : Option SessionTab :=
  active.bind fun id => tabs.find? fun tab => tab.id == id

namespace SessionManifest

/-- The documents that have a file. -/
def savedDocuments (m : SessionManifest) : List SessionDocument :=
  m.documents.filter fun doc => doc.path.isSome

/-- The closure `kept` of `SessionManifest::named` -/
def kept (m : SessionManifest) (id : Nat) : Bool := m.savedDocuments.any fun doc => doc.id == id

/-- The tabs that show a saved document. -/
def keptTabs (m : SessionManifest) : List SessionTab :=
  m.tabs.filter fun tab => m.kept tab.documentId

/-- The tabs of the named session. -/
def namedTabs (m : SessionManifest) : List SessionTab :=
  if bothPanes m.keptTabs then m.keptTabs else m.keptTabs.map SessionTab.inFirstPane

/-- The layout before the active tab is shown. -/
def namedLayout (m : SessionManifest) : SessionLayout :=
  (if bothPanes m.keptTabs then m.layout else m.layout.collapse).retain m.namedTabs

/-- The active tab of the named session. -/
def namedActive (m : SessionManifest) : Option Nat :=
  (m.activeTab.filter (hasTab m.namedTabs)).or (m.namedTabs.head?.map SessionTab.id)

/-- `SessionManifest::named`; none when an array is indexed out of its bounds. -/
def named (m : SessionManifest) : Option SessionManifest :=
  (m.namedLayout.activate (activeIn m.namedTabs m.namedActive)).map fun layout =>
  { version := sessionVersion
    documents := m.savedDocuments
    tabs := m.namedTabs
    activeTab := m.namedActive
    mru := m.mru.filter m.kept
    recent := []
    layout := layout
    compare := m.compare.filter fun compare =>
      m.kept compare.leftDocument && m.kept compare.rightDocument
    window := none }

end SessionManifest

/-! ## §2 The tabs kept -/

theorem hasTab_iff {tabs : List SessionTab} {id : Nat} :
    hasTab tabs id = true ↔ id ∈ tabs.map SessionTab.id := by
  simp [hasTab]

theorem bothPanes_iff {tabs : List SessionTab} :
    bothPanes tabs = true ↔ ∀ pane < 2, ∃ tab ∈ tabs, tab.view.split = pane := by
  have hpanes : ∀ P : Nat → Prop, (∀ pane ∈ [0, 1], P pane) ↔ ∀ pane < 2, P pane := by
    refine fun P => forall_congr' fun pane => imp_congr_left ?_
    rw [List.mem_pair]
    omega
  simp only [bothPanes, List.all_eq_true, List.any_eq_true, beq_iff_eq]
  exact hpanes fun pane => ∃ tab ∈ tabs, tab.view.split = pane

/-- A tab is kept when it shows a document that has a file. -/
def SessionManifest.Shows (m : SessionManifest) (tab : SessionTab) : Prop :=
  ∃ doc ∈ m.documents, doc.path ≠ none ∧ doc.id = tab.documentId

namespace SessionManifest

variable {m : SessionManifest}

instance decidableShows (m : SessionManifest) : DecidablePred m.Shows := fun tab =>
  inferInstanceAs (Decidable (∃ doc ∈ m.documents, doc.path ≠ none ∧ doc.id = tab.documentId))

theorem kept_iff {id : Nat} : m.kept id = true ↔ id ∈ m.savedDocuments.map SessionDocument.id := by
  simp [kept]

theorem keptTabs_eq : m.keptTabs = m.tabs.filter fun tab => decide (m.Shows tab) := by
  refine List.filter_congr fun tab _ => ?_
  rw [Bool.eq_iff_iff, kept_iff, decide_eq_true_eq, Shows]
  simp [savedDocuments, Option.isSome_iff_ne_none, and_assoc]

/-- Dropping the pane keeps everything else of a tab. -/
theorem namedTabs_map {α : Type} {f : SessionTab → α} (hf : ∀ tab, f tab.inFirstPane = f tab) :
    m.namedTabs.map f = m.keptTabs.map f := by
  rw [namedTabs]
  split
  · rfl
  · rw [List.map_map]
    exact List.map_congr_left fun tab _ => hf tab

theorem namedTabs_ids :
    (m.namedTabs.map SessionTab.id).Sublist (m.tabs.map SessionTab.id) := by
  rw [namedTabs_map fun _ => rfl]
  exact List.filter_sublist.map _

/-- A tab of the named session comes from a kept tab. -/
theorem of_mem_namedTabs {tab : SessionTab} (h : tab ∈ m.namedTabs) :
    ∃ old ∈ m.keptTabs, (tab = old ∨ tab = old.inFirstPane) := by
  rw [namedTabs] at h
  split at h
  · exact ⟨tab, h, .inl rfl⟩
  · obtain ⟨old, hold, rfl⟩ := List.mem_map.mp h
    exact ⟨old, hold, .inr rfl⟩

end SessionManifest

/-! ## §3 The layout -/

/-- The looks of the layout are allowed. -/
def SessionLayout.Styled (layout : SessionLayout) : Prop :=
  f64IsFinite layout.ratioBits = true ∧ ratioAllowed layout.ratioBits = true ∧
    f32IsFinite layout.bottomPanelHeightBits = true ∧
    heightAllowed layout.bottomPanelHeightBits = true ∧
    layout.bottomPanel.all (fun panel => ["search", "compare", "output"].contains panel) = true

/-- Some tab with this id is in this pane. -/
def InPane (tabs : List SessionTab) (pane : Fin 2) (id : Nat) : Prop :=
  ∃ tab ∈ tabs, tab.id = id ∧ tab.view.split = pane.val

theorem SessionManifest.validLayout_iff {m : SessionManifest} : m.validLayout = true ↔
    m.layout.Styled ∧ m.layout.activePane ≤ lastPane m.layout.split ∧
    (∀ tab ∈ m.tabs, tab.view.split ≤ lastPane m.layout.split) ∧
    ∀ pane id, m.layout.activeTabs pane = some id → InPane m.tabs pane id := by
  simp [validLayout, SessionLayout.Styled, InPane, Option.all_eq_true, and_assoc]

theorem lastPane_lt (split : Bool) : lastPane split < 2 := by cases split <;> decide

/-- The layout with a tab, if there is one, shown in its pane. -/
def SessionLayout.showing (layout : SessionLayout) (tab? : Option SessionTab) : SessionLayout :=
  { layout with
    activePane := tab?.elim 0 fun tab => tab.view.split
    activeTabs := fun pane => ((tab?.filter fun tab => tab.view.split == pane.val).map
      SessionTab.id).or (layout.activeTabs pane) }

theorem SessionLayout.activate_eq {layout : SessionLayout} {tab? : Option SessionTab}
    (h : ∀ tab, tab? = some tab → tab.view.split < 2) :
    layout.activate tab? = some (layout.showing tab?) := by
  cases tab? with
  | none => simp [activate, showing]
  | some tab =>
    rw [activate, dif_pos (h tab rfl)]
    refine congrArg some (congrArg (fun tabs => { layout with
      activePane := tab.view.split, activeTabs := tabs }) (funext fun pane => ?_))
    by_cases hpane : tab.view.split = pane.val
    · obtain rfl : (⟨tab.view.split, h tab rfl⟩ : Fin 2) = pane := Fin.ext hpane
      rw [Function.update_self, Option.filter_some, if_pos (beq_self_eq_true _)]
      rfl
    · rw [Function.update_of_ne fun heq => hpane (by rw [heq]), Option.filter_some,
        if_neg (by simpa using hpane)]
      rfl

theorem activeIn_some {tabs : List SessionTab} {active : Option Nat} {tab : SessionTab}
    (h : activeIn tabs active = some tab) : tab ∈ tabs ∧ active = some tab.id := by
  obtain ⟨id, rfl, hfind⟩ := Option.bind_eq_some_iff.mp h
  have hid : tab.id = id := by simpa using List.find?_some hfind
  exact ⟨List.mem_of_find?_eq_some hfind, congrArg some hid.symm⟩

/-! ## §4 The manifest is valid -/

/-- What keeping the saved part leaves alone: a valid manifest of saved files, split when both
panes have a tab, with the active tab shown in the active pane. -/
structure SessionManifest.Saved (m : SessionManifest) : Prop where
  valid : m.Valid
  documents : ∀ doc ∈ m.documents, doc.path ≠ none
  recent : m.recent = []
  window : m.window = none
  active : m.activeTab = none → m.tabs = []
  split : m.layout.split = bothPanes m.tabs
  shown : m.layout = m.layout.showing (activeIn m.tabs m.activeTab)

section Named

variable {m : SessionManifest}

theorem namedTabs_split (hvalid : m.Valid) :
    ∀ tab ∈ m.namedTabs, tab.view.split ≤ lastPane (bothPanes m.keptTabs) := by
  intro tab htab
  obtain ⟨-, -, hsplit, -⟩ := SessionManifest.validLayout_iff.mp hvalid.layout
  rw [SessionManifest.namedTabs] at htab
  split_ifs at htab with hboth
  · have hmem : tab ∈ m.tabs := List.mem_of_mem_filter htab
    rw [hboth]
    exact (hsplit tab hmem).trans (Nat.lt_succ_iff.mp (lastPane_lt _))
  · obtain ⟨old, -, rfl⟩ := List.mem_map.mp htab
    exact Nat.zero_le _

/-- A tab in both panes stands in one of them. -/
theorem bothPanes_namedTabs : bothPanes m.namedTabs = bothPanes m.keptTabs := by
  rw [SessionManifest.namedTabs]
  split_ifs with hboth
  · rfl
  · have hnot : bothPanes m.keptTabs = false := by simpa using hboth
    rw [hnot, ← Bool.not_eq_true, bothPanes_iff]
    intro h
    obtain ⟨tab, htab, hone⟩ := h 1 (by decide)
    obtain ⟨old, -, rfl⟩ := List.mem_map.mp htab
    exact Nat.zero_ne_one hone

/-- Two panes with a tab are a split. -/
theorem split_of_bothPanes (hvalid : m.Valid) (hboth : bothPanes m.keptTabs = true) :
    m.layout.split = true := by
  obtain ⟨-, -, hsplit, -⟩ := SessionManifest.validLayout_iff.mp hvalid.layout
  obtain ⟨tab, htab, hone⟩ := bothPanes_iff.mp hboth 1 (by decide)
  have hle := hsplit tab (List.mem_of_mem_filter htab)
  rw [hone, lastPane] at hle
  split_ifs at hle with h
  · exact h
  · exact absurd hle (by decide)

theorem namedLayout_split (hvalid : m.Valid) : m.namedLayout.split = bothPanes m.keptTabs := by
  rw [SessionManifest.namedLayout]
  split_ifs with hboth
  · exact (split_of_bothPanes hvalid hboth).trans hboth.symm
  · exact (Bool.not_eq_true _ ▸ hboth : bothPanes m.keptTabs = false).symm

/-- What the layout names before the active tab is shown is in its pane. -/
theorem namedLayout_inPane (hvalid : m.Valid) (pane : Fin 2) (id : Nat)
    (h : m.namedLayout.activeTabs pane = some id) : InPane m.namedTabs pane id := by
  obtain ⟨-, -, -, hpanes⟩ := SessionManifest.validLayout_iff.mp hvalid.layout
  obtain ⟨hbase, hhas⟩ := Option.filter_eq_some_iff.mp h
  obtain ⟨tab, htab, rfl⟩ := List.mem_map.mp (hasTab_iff.mp hhas)
  refine ⟨tab, htab, rfl, ?_⟩
  rw [SessionManifest.namedTabs] at htab
  split_ifs at htab hbase with hboth
  · obtain ⟨old, hold, hid, hsplit⟩ := hpanes pane tab.id hbase
    rw [← List.inj_on_of_nodup_map hvalid.tabIds hold (List.mem_of_mem_filter htab) hid]
    exact hsplit
  · obtain ⟨old, -, rfl⟩ := List.mem_map.mp htab
    match pane with
    | 0 => rfl
    | 1 => exact nomatch hbase

/-- Showing the active tab names tabs that are in their pane. -/
theorem showing_inPane {tabs : List SessionTab} {layout : SessionLayout} {active : Option Nat}
    (h : ∀ pane id, layout.activeTabs pane = some id → InPane tabs pane id) (pane : Fin 2) (id : Nat)
    (hshown : (layout.showing (activeIn tabs active)).activeTabs pane = some id) :
    InPane tabs pane id := by
  obtain hactive | ⟨-, hold⟩ := Option.or_eq_some_iff.mp hshown
  · obtain ⟨tab, hfilter, rfl⟩ := Option.map_eq_some_iff.mp hactive
    obtain ⟨htab, hpane⟩ := Option.filter_eq_some_iff.mp hfilter
    exact ⟨tab, (activeIn_some htab).1, rfl, by simpa using hpane⟩
  · exact h pane id hold

/-- The saved part of a session. -/
def SessionManifest.savedPart (m : SessionManifest) : SessionManifest where
  version := sessionVersion
  documents := m.savedDocuments
  tabs := m.namedTabs
  activeTab := m.namedActive
  mru := m.mru.filter m.kept
  recent := []
  layout := m.namedLayout.showing (activeIn m.namedTabs m.namedActive)
  compare := m.compare.filter fun compare =>
    m.kept compare.leftDocument && m.kept compare.rightDocument
  window := none

/-- No index is out of bounds. -/
theorem named_eq (hvalid : m.Valid) : m.named = some m.savedPart := by
  have hplace : ∀ tab, activeIn m.namedTabs m.namedActive = some tab → tab.view.split < 2 :=
    fun tab htab => (namedTabs_split hvalid tab (activeIn_some htab).1).trans_lt (lastPane_lt _)
  rw [SessionManifest.named, SessionLayout.activate_eq hplace]
  rfl

theorem namedActive_mem {id : Nat} (h : m.namedActive = some id) :
    id ∈ m.namedTabs.map SessionTab.id := by
  obtain hkept | ⟨-, hfirst⟩ := Option.or_eq_some_iff.mp h
  · exact hasTab_iff.mp (Option.filter_eq_some_iff.mp hkept).2
  · obtain ⟨tab, htab, rfl⟩ := Option.map_eq_some_iff.mp hfirst
    exact List.mem_map_of_mem (List.mem_of_mem_head? htab)

theorem savedPart_layout (hvalid : m.Valid) : m.savedPart.validLayout = true := by
  obtain ⟨hstyled, -, -, -⟩ := SessionManifest.validLayout_iff.mp hvalid.layout
  have hsplit : m.savedPart.layout.split = bothPanes m.keptTabs := namedLayout_split hvalid
  rw [SessionManifest.validLayout_iff, hsplit]
  refine ⟨?_, ?_, namedTabs_split hvalid, showing_inPane (namedLayout_inPane hvalid)⟩
  · have hlook : m.namedLayout.Styled := by
      rw [SessionManifest.namedLayout]
      split_ifs <;> exact hstyled
    exact hlook
  · show (activeIn m.namedTabs m.namedActive).elim 0 _ ≤ _
    cases htab : activeIn m.namedTabs m.namedActive with
    | none => exact Nat.zero_le _
    | some tab => exact namedTabs_split hvalid tab (activeIn_some htab).1

theorem savedPart_colors (hvalid : m.Valid) :
    m.savedPart.layout.tabColors.Valid (m.namedTabs.map SessionTab.id) := by
  have hcolors : m.savedPart.layout.tabColors =
      m.layout.tabColors.retain (hasTab m.namedTabs) := by
    show m.namedLayout.tabColors = _
    rw [SessionManifest.namedLayout]
    split_ifs <;> rfl
  rw [hcolors]
  refine ⟨(List.length_filter_le _ _).trans hvalid.colors.1, fun e he => ?_⟩
  obtain ⟨hmem, hhas⟩ := List.mem_filter.mp he
  exact ⟨hasTab_iff.mp hhas, (hvalid.colors.2 e hmem).2⟩

theorem savedPart_tabs (hvalid : m.Valid) : ∀ tab ∈ m.namedTabs,
    tab.view.Valid ∧ tab.documentId ∈ m.savedDocuments.map SessionDocument.id := by
  intro tab htab
  obtain ⟨old, hold, hsame⟩ := SessionManifest.of_mem_namedTabs htab
  obtain ⟨hmem, hkept⟩ := List.mem_filter.mp hold
  have hview := (hvalid.tabs old hmem).1
  have hdoc := SessionManifest.kept_iff.mp hkept
  obtain rfl | rfl := hsame
  · exact ⟨hview, hdoc⟩
  · exact ⟨hview, hdoc⟩

theorem savedPart_pins (hvalid : m.Valid) : PinnedFirst m.namedTabs := by
  have hkept : PinnedFirst m.keptTabs := hvalid.pins.sublist List.filter_sublist
  rw [SessionManifest.namedTabs]
  split_ifs
  · exact hkept
  · exact List.pairwise_map.mpr hkept

/-- The saved part of a valid session is valid. -/
theorem savedPart_valid (hvalid : m.Valid) : m.savedPart.Valid where
  version := rfl
  entries := by
    have hentries := hvalid.entries
    have htabs : m.namedTabs.length ≤ m.tabs.length := by
      simpa using (SessionManifest.namedTabs_ids (m := m)).length_le
    have hdocs : m.savedDocuments.length ≤ m.documents.length := List.length_filter_le _ _
    have hmru : (m.mru.filter m.kept).length ≤ m.mru.length := List.length_filter_le _ _
    simp only [List.forall_mem_cons, List.not_mem_nil, false_implies, implies_true, and_true]
      at hentries ⊢
    refine ⟨?_, ?_, ?_, Nat.zero_le _⟩
    · exact hdocs.trans hentries.1
    · exact htabs.trans hentries.2.1
    · exact hmru.trans hentries.2.2.1
  ids := hvalid.ids.sublist (List.filter_sublist.map _)
  documents doc hdoc := hvalid.documents doc (List.mem_of_mem_filter hdoc)
  compare c hc := by
    obtain ⟨hold, hkept⟩ := Option.filter_eq_some_iff.mp hc
    obtain ⟨hleft, hright⟩ := (Bool.and_eq_true _ _).mp hkept
    obtain ⟨hversion, hoptions, -, -, hne⟩ := hvalid.compare c hold
    exact ⟨hversion, hoptions, SessionManifest.kept_iff.mp hleft,
      SessionManifest.kept_iff.mp hright, hne⟩
  tabIds := hvalid.tabIds.sublist SessionManifest.namedTabs_ids
  tabs := savedPart_tabs hvalid
  pins := savedPart_pins hvalid
  activeTab _ h := namedActive_mem h
  used id hid := SessionManifest.kept_iff.mp (List.mem_filter.mp hid).2
  mru := hvalid.mru.filter _
  recent := nofun
  colors := savedPart_colors hvalid
  layout := savedPart_layout hvalid

/-- Showing the active tab once more changes nothing. -/
theorem showing_showing (layout : SessionLayout) (tab? : Option SessionTab) :
    (layout.showing tab?).showing tab? = layout.showing tab? := by
  refine congrArg (fun tabs => { layout.showing tab? with activeTabs := tabs })
    (funext fun pane => ?_)
  show Option.or _ (Option.or _ _) = Option.or _ _
  rw [← Option.or_assoc, Option.or_self]

theorem savedPart_saved (hvalid : m.Valid) : m.savedPart.Saved where
  valid := savedPart_valid hvalid
  documents doc hdoc := Option.isSome_iff_ne_none.mp (List.mem_filter.mp hdoc).2
  recent := rfl
  window := rfl
  active h := by
    have hfirst := (Option.or_eq_none_iff.mp h).2
    exact List.head?_eq_none_iff.mp (Option.map_eq_none_iff.mp hfirst)
  split := (namedLayout_split hvalid).trans bothPanes_namedTabs.symm
  shown := (showing_showing _ _).symm

end Named

/-! ## §5 Keeping the saved part again -/

theorem filter_eq_self {α : Type} {o : Option α} {p : α → Bool} (h : ∀ a, o = some a → p a = true) :
    o.filter p = o := by
  cases o with
  | none => rfl
  | some a => rw [Option.filter_some, if_pos (h a rfl)]

namespace SessionManifest.Saved

variable {m : SessionManifest}

theorem savedDocuments_eq (h : m.Saved) : m.savedDocuments = m.documents :=
  List.filter_eq_self.mpr fun doc hdoc => Option.isSome_iff_ne_none.mpr (h.documents doc hdoc)

theorem kept_of_mem (h : m.Saved) {id : Nat} (hid : id ∈ m.documents.map SessionDocument.id) :
    m.kept id = true :=
  kept_iff.mpr (h.savedDocuments_eq.symm ▸ hid)

theorem keptTabs_eq (h : m.Saved) : m.keptTabs = m.tabs :=
  List.filter_eq_self.mpr fun tab htab => h.kept_of_mem (h.valid.tabs tab htab).2

theorem namedTabs_eq (h : m.Saved) : m.namedTabs = m.tabs := by
  rw [namedTabs, h.keptTabs_eq]
  split_ifs with hboth
  · rfl
  · -- without a split every tab is in the first pane already
    obtain ⟨-, -, hsplit, -⟩ := validLayout_iff.mp h.valid.layout
    have hsame : ∀ tab ∈ m.tabs, tab.inFirstPane = id tab := by
      intro tab htab
      have hle := hsplit tab htab
      rw [h.split, (Bool.not_eq_true _).mp hboth] at hle
      have hzero : tab.view.split = 0 := Nat.le_zero.mp hle
      rw [SessionTab.inFirstPane, ← hzero]
      rfl
    rw [List.map_congr_left hsame, List.map_id]

theorem collapse_eq (h : m.Saved) (hboth : bothPanes m.tabs = false) :
    m.layout.collapse = m.layout := by
  obtain ⟨-, -, hsplit, hpanes⟩ := validLayout_iff.mp h.valid.layout
  have hsingle : m.layout.split = false := h.split.trans hboth
  have hright : m.layout.activeTabs 1 = none := by
    rw [Option.eq_none_iff_forall_ne_some]
    intro id hid
    obtain ⟨tab, htab, -, hone⟩ := hpanes 1 id hid
    have hle := hsplit tab htab
    rw [hone, hsingle] at hle
    exact absurd hle (by decide)
  have htabs : ![(m.layout.activeTabs 0).or (m.layout.activeTabs 1), none] =
      m.layout.activeTabs := by
    refine funext fun pane => ?_
    match pane with
    | 0 => rw [hright]; exact Option.or_none
    | 1 => exact hright.symm
  rw [SessionLayout.collapse, htabs, ← hsingle]

theorem namedLayout_eq (h : m.Saved) : m.namedLayout = m.layout := by
  obtain ⟨-, -, -, hpanes⟩ := validLayout_iff.mp h.valid.layout
  have hbase : (if bothPanes m.keptTabs then m.layout else m.layout.collapse) = m.layout := by
    rw [h.keptTabs_eq]
    split_ifs with hboth
    · rfl
    · exact h.collapse_eq ((Bool.not_eq_true _).mp hboth)
  rw [namedLayout, hbase, h.namedTabs_eq]
  have hcolors : m.layout.tabColors.retain (hasTab m.tabs) = m.layout.tabColors :=
    TabColors.ext (List.filter_eq_self.mpr fun e he => hasTab_iff.mpr (h.valid.colors.2 e he).1)
  have htabs : (fun pane => (m.layout.activeTabs pane).filter (hasTab m.tabs)) =
      m.layout.activeTabs := by
    refine funext fun pane => filter_eq_self fun id hid => ?_
    obtain ⟨tab, htab, rfl, -⟩ := hpanes pane id hid
    exact hasTab_iff.mpr (List.mem_map_of_mem htab)
  rw [SessionLayout.retain, hcolors, htabs]

theorem namedActive_eq (h : m.Saved) : m.namedActive = m.activeTab := by
  rw [namedActive, h.namedTabs_eq]
  cases hactive : m.activeTab with
  | none => rw [h.active hactive]; rfl
  | some id =>
    rw [Option.filter_some, if_pos (hasTab_iff.mpr (h.valid.activeTab id hactive))]
    rfl

/-- The saved part of a session that is its own saved part. -/
theorem named_eq (h : m.Saved) : m.named = some m := by
  have hmru : m.mru.filter m.kept = m.mru :=
    List.filter_eq_self.mpr fun id hid => h.kept_of_mem (h.valid.used id hid)
  have hcompare : m.compare.filter (fun compare =>
      m.kept compare.leftDocument && m.kept compare.rightDocument) = m.compare := by
    refine filter_eq_self fun c hc => ?_
    obtain ⟨-, -, hleft, hright, -⟩ := h.valid.compare c hc
    exact (Bool.and_eq_true _ _).mpr ⟨h.kept_of_mem hleft, h.kept_of_mem hright⟩
  rw [Session.named_eq h.valid, savedPart, h.savedDocuments_eq, h.namedTabs_eq, h.namedActive_eq,
    h.namedLayout_eq, hmru, hcompare, ← h.shown, ← h.recent, ← h.window, ← h.valid.version]

end SessionManifest.Saved

/-! ## §6 What a named session is -/

/-- Each pane keeps a tab that shows a saved file. -/
def SessionManifest.PanesKept (m : SessionManifest) : Prop :=
  ∀ pane < 2, ∃ tab ∈ m.tabs, m.Shows tab ∧ tab.view.split = pane

/-- A tab with this id shows a saved file. -/
def SessionManifest.Survives (m : SessionManifest) (id : Nat) : Prop :=
  ∃ tab ∈ m.tabs, m.Shows tab ∧ tab.id = id

/-- The valid part of a session that is in saved files. -/
structure NamedSession (m n : SessionManifest) : Prop where
  valid : n.validate = .ok ()
  documents : n.documents = m.documents.filter fun doc => decide (doc.path ≠ none)
  panes : m.PanesKept → n.tabs = m.tabs.filter fun tab => decide (m.Shows tab)
  onePane : ¬m.PanesKept →
    n.tabs = (m.tabs.filter fun tab => decide (m.Shows tab)).map SessionTab.inFirstPane
  active : ∀ id, m.activeTab = some id → m.Survives id → n.activeTab = some id
  first : (∀ id, m.activeTab = some id → ¬m.Survives id) → n.activeTab = n.tabs.head?.map SessionTab.id
  /-- A pane keeps its active tab, unless the session's active tab is in it and is shown. -/
  activeTabs : ∀ pane id, m.PanesKept ∨ pane = 0 → m.layout.activeTabs pane = some id →
    m.Survives id → n.layout.activeTabs pane = some id ∨ ∃ tab ∈ n.tabs,
      n.activeTab = some tab.id ∧ tab.view.split = pane.val ∧
      n.layout.activeTabs pane = some tab.id
  again : n.named = some n

section Guarantees

variable {m : SessionManifest}

theorem panesKept_iff : m.PanesKept ↔ bothPanes m.keptTabs = true := by
  rw [bothPanes_iff, SessionManifest.keptTabs_eq, SessionManifest.PanesKept]
  simp [and_assoc]

theorem survives_iff {id : Nat} : m.Survives id ↔ hasTab m.namedTabs id = true := by
  rw [hasTab_iff, SessionManifest.namedTabs_map fun _ => rfl, SessionManifest.keptTabs_eq,
    SessionManifest.Survives]
  simp [and_assoc]

theorem namedLayout_activeTabs {pane : Fin 2} {id : Nat} (hkept : m.PanesKept ∨ pane = 0)
    (hactive : m.layout.activeTabs pane = some id) (hid : m.Survives id) :
    m.namedLayout.activeTabs pane = some id := by
  refine Option.filter_eq_some_iff.mpr ⟨?_, survives_iff.mp hid⟩
  split_ifs with hboth
  · exact hactive
  · obtain hkept | rfl := hkept
    · exact absurd (panesKept_iff.mp hkept) hboth
    · show (m.layout.activeTabs 0).or _ = _
      rw [hactive]
      rfl

end Guarantees

/-- A named session is the valid saved-file part of any valid session. -/
theorem named_session_of_valid (m : SessionManifest) (h : m.validate = .ok ()) :
    ∃ n, m.named = some n ∧ NamedSession m n := by
  have hvalid := SessionManifest.validate_iff.mp h
  refine ⟨m.savedPart, named_eq hvalid, ?_⟩
  constructor
  · exact SessionManifest.validate_iff.mpr (savedPart_valid hvalid)
  · exact List.filter_congr fun doc _ => by cases doc.path <;> rfl
  · intro hkept
    rw [← SessionManifest.keptTabs_eq]
    exact if_pos (panesKept_iff.mp hkept)
  · intro hkept
    rw [← SessionManifest.keptTabs_eq]
    exact if_neg fun hboth => hkept (panesKept_iff.mpr hboth)
  · intro id hid hsurvives
    show m.namedActive = some id
    rw [SessionManifest.namedActive, hid, Option.filter_some, if_pos (survives_iff.mp hsurvives)]
    rfl
  · intro hgone
    show m.namedActive = _
    have hnone : m.activeTab.filter (hasTab m.namedTabs) = none := by
      rw [Option.filter_eq_none_iff]
      exact fun id hid hhas => hgone id hid (survives_iff.mpr hhas)
    rw [SessionManifest.namedActive, hnone]
    rfl
  · intro pane id hkept hid hsurvives
    have hbase := namedLayout_activeTabs hkept hid hsurvives
    cases hshown : (activeIn m.namedTabs m.namedActive).filter
      fun tab => tab.view.split == pane.val with
    | none =>
      refine .inl ?_
      show Option.or (Option.map _ (Option.filter _ _)) _ = _
      rw [hshown]
      exact hbase
    | some tab =>
      obtain ⟨hactive, hpane⟩ := Option.filter_eq_some_iff.mp hshown
      obtain ⟨htab, htabId⟩ := activeIn_some hactive
      refine .inr ⟨tab, htab, htabId, by simpa using hpane, ?_⟩
      show Option.or (Option.map _ (Option.filter _ _)) _ = _
      rw [hshown]
      rfl
  · exact (savedPart_saved hvalid).named_eq

/-- A file, shown in two tabs of the left pane and one of the right; the session's active tab is
not the one the left pane shows. -/
def twoPanes : SessionManifest :=
  let path : SerializedPath := ⟨1, .unixBytes, [], ""⟩
  let view : ViewState := ⟨none, 0, 0, 0, none, 0, 0, 0, []⟩
  { SessionManifest.default with
    documents := [⟨7, some path, "notes"⟩]
    tabs := [⟨1, 7, false, view⟩, ⟨2, 7, false, view⟩, ⟨3, 7, false, { view with split := 1 }⟩]
    activeTab := some 2
    layout := { SessionLayout.default with split := true, activeTabs := ![some 1, some 3] } }

theorem named_session_of_two_panes : ∃ n, twoPanes.named = some n ∧ NamedSession twoPanes n :=
  named_session_of_valid twoPanes (by decide)

/-- The left pane's active tab survives and is replaced. -/
theorem active_tab_shown_in_its_pane :
    twoPanes.validate = .ok () ∧ twoPanes.PanesKept ∧
    twoPanes.layout.activeTabs 0 = some 1 ∧ twoPanes.Survives 1 ∧
    twoPanes.named.map (fun n => n.layout.activeTabs 0) = some (some 2) := by
  refine ⟨by decide, ?_, rfl, ?_, by decide⟩
  · show ∀ pane < 2, _
    decide
  · show ∃ tab ∈ twoPanes.tabs, _
    decide

end BareLine.Session
