import BareLine.Basic

/-!
# Session manifests

The open documents, their tabs and the layout of the window, as they are written to a session
file, and the checks a manifest must pass.  A string whose bytes are decoded is its bytes.
-/

namespace BareLine.Session

/-! ## §1 Saved paths -/

/-- `PathEncoding` -/
inductive PathEncoding where
  | windowsUtf16Le
  | unixBytes
  deriving DecidableEq, Repr

/-- `SerializedPath` -/
structure SerializedPath where
  version : Nat
  encoding : PathEncoding
  data : List UInt8
  display : String
  deriving DecidableEq, Repr

/-- `PathDecodeError` -/
inductive PathDecodeError where
  | unsupportedVersion
  | foreignPlatform
  | invalidBase64
  | invalidCodeUnits
  | tooLong
  deriving DecidableEq, Repr

/-- `Display for PathDecodeError` -/
def PathDecodeError.message : PathDecodeError → String
  | .unsupportedVersion => "a saved path uses a format this version does not read"
  | .foreignPlatform => "a saved path comes from another operating system"
  | .invalidBase64 | .invalidCodeUnits => "a saved path is damaged"
  | .tooLong => "a saved path is longer than allowed"

def MAX_ENCODED_PATH : Nat := 1024 * 1024

/-- `ALPHABET` -/
def alphabet : List UInt8 :=
  "ABCDEFGHIJKLMNOPQRSTUVWXYZabcdefghijklmnopqrstuvwxyz0123456789+/".toList.map
    fun c => UInt8.ofNat c.toNat

/-- The position of a byte in the alphabet; a padded place counts as 0. -/
def sextet (padded : Bool) (ch : UInt8) : Except PathDecodeError Nat :=
  if padded then .ok 0
  else match alphabet.idxOf? ch with
    | some v => .ok v
    | none => .error .invalidBase64

/-- One chunk of the loop of `decode`. -/
def decodeChunk (last : Bool) (a b c d : UInt8) : Except PathDecodeError (List UInt8) :=
  let padding := if c = 61 then 2 else if d = 61 then 1 else 0
  if padding ≠ 0 ∧ (last = false ∨ d ≠ 61) then .error .invalidBase64
  else do
    let v₀ ← sextet false a
    let v₁ ← sextet false b
    let v₂ ← sextet (padding == 2) c
    let v₃ ← sextet (padding != 0) d
    let n := ((v₀ * 64 + v₁) * 64 + v₂) * 64 + v₃
    if (padding = 2 ∧ n % 2 ^ 16 ≠ 0) ∨ (padding = 1 ∧ n % 2 ^ 8 ≠ 0) then .error .invalidBase64
    else .ok (([n / 2 ^ 16, n / 2 ^ 8, n].map UInt8.ofNat).take (3 - padding))

/-- The loop of `decode`, over chunks of four bytes. -/
def decodeChunks : List UInt8 → Except PathDecodeError (List UInt8)
  | a :: b :: c :: d :: rest => do
    let bytes ← decodeChunk rest.isEmpty a b c d
    let behind ← decodeChunks rest
    .ok (bytes ++ behind)
  | _ => .ok []

/-- `decode` of padded base64 -/
def decode (text : List UInt8) : Except PathDecodeError (List UInt8) :=
  if text.length % 4 ≠ 0 then .error .invalidBase64 else decodeChunks text

/-- Some pair of bytes of the chunks of two is zero. -/
def hasZeroPair : List UInt8 → Bool
  | a :: b :: rest => (a == 0 && b == 0) || hasZeroPair rest
  | _ => false

namespace SerializedPath

/-- `SerializedPath::identity_bytes` -/
def identityBytes (path : SerializedPath) : Except PathDecodeError (List UInt8) :=
  if path.version ≠ 1 then .error .unsupportedVersion
  else if MAX_ENCODED_PATH < path.data.length then .error .tooLong
  else do
    let bytes ← decode path.data
    if path.encoding = .windowsUtf16Le ∧ bytes.length % 2 ≠ 0 then .error .invalidCodeUnits
    else .ok bytes

/-- `SerializedPath::validate` -/
def validate (path : SerializedPath) : Except PathDecodeError Unit := do
  let bytes ← path.identityBytes
  let nul := match path.encoding with
    | .unixBytes => bytes.contains 0
    | .windowsUtf16Le => hasZeroPair bytes
  if nul then .error .invalidCodeUnits else .ok ()

end SerializedPath

/-- `validate_path` of the session crate -/
def validatePath (path : SerializedPath) : Except String Unit :=
  if 128 * 1024 < path.data.length ∨ 128 * 1024 < path.display.utf8ByteSize then
    .error "session path limit"
  else path.validate.mapError PathDecodeError.message

/-! ## §2 The manifest -/

def sessionVersion : Nat := 1

def MAX_ENTRIES : Nat := 10000

/-- `LanguageSelection` -/
inductive LanguageSelection where
  | builtin (id : String)
  | udl (id : String)
  deriving DecidableEq, Repr

/-- `ViewState` -/
structure ViewState where
  language : Option LanguageSelection
  caret : Nat
  anchor : Nat
  scrollLine : Nat
  scrollByte : Option Nat
  scrollYBits : UInt64
  scrollX : Nat
  split : Nat
  folds : List Range
  deriving DecidableEq, Repr

/-- `SessionDocument` -/
structure SessionDocument where
  id : Nat
  path : Option SerializedPath
  title : String
  deriving DecidableEq, Repr

/-- `SessionTab` -/
structure SessionTab where
  id : Nat
  documentId : Nat
  pinned : Bool
  view : ViewState
  deriving DecidableEq, Repr

/-- `SplitOrientation` -/
inductive SplitOrientation where
  | horizontal
  | vertical
  deriving DecidableEq, Repr

/-- A `BTreeMap` from tabs to colours: its entries in the order of the keys. -/
@[ext]
structure TabColors where
  entries : List (Nat × Nat)
  sorted : entries.Pairwise fun a b => a.1 < b.1

/-- `BTreeMap::retain` -/
def TabColors.retain (colors : TabColors) (keep : Nat → Bool) : TabColors where
  entries := colors.entries.filter fun e => keep e.1
  sorted := colors.sorted.sublist List.filter_sublist

/-- `SessionLayout` -/
structure SessionLayout where
  tabColors : TabColors
  verticalTabs : Bool
  tabSort : String
  split : Bool
  orientation : SplitOrientation
  ratioBits : UInt64
  activePane : Nat
  activeTabs : Fin 2 → Option Nat
  syncHorizontal : Bool
  syncVertical : Bool
  bottomPanel : Option String
  bottomPanelCollapsed : Bool
  bottomPanelHeightBits : UInt32

/-- `Default for SessionLayout`: the ratio is 0.5 and the height 260. -/
def SessionLayout.default : SessionLayout where
  tabColors := ⟨[], .nil⟩
  verticalTabs := false
  tabSort := "manual"
  split := false
  orientation := .vertical
  ratioBits := 0x3FE0000000000000
  activePane := 0
  activeTabs := ![none, none]
  syncHorizontal := false
  syncVertical := false
  bottomPanel := none
  bottomPanelCollapsed := true
  bottomPanelHeightBits := 0x43820000

/-- `SessionCompare` -/
structure SessionCompare where
  version : Nat
  leftDocument : Nat
  rightDocument : Nat
  optionsJson : List UInt8
  deriving DecidableEq, Repr

/-- `SessionWindow` -/
structure SessionWindow where
  x : Int
  y : Int
  width : Nat
  height : Nat
  maximized : Bool
  deriving DecidableEq, Repr

/-- `SessionManifest` -/
structure SessionManifest where
  version : Nat
  documents : List SessionDocument
  tabs : List SessionTab
  activeTab : Option Nat
  mru : List Nat
  recent : List SerializedPath
  layout : SessionLayout
  compare : Option SessionCompare
  window : Option SessionWindow

/-- `Default for SessionManifest` -/
def SessionManifest.default : SessionManifest where
  version := sessionVersion
  documents := []
  tabs := []
  activeTab := none
  mru := []
  recent := []
  layout := .default
  compare := none
  window := none

/-! ## §3 Floating-point bits -/

/-- The order of floating-point numbers on their bits: a sign and a magnitude. -/
def floatKey (width bits : Nat) : Int :=
  if 2 ^ (width - 1) ≤ bits then -((bits - 2 ^ (width - 1) : Nat) : Int) else bits

/-- `f64::is_finite` -/
def f64IsFinite (bits : UInt64) : Bool := bits.toNat / 2 ^ 52 % 2 ^ 11 != 2 ^ 11 - 1

/-- `f32::is_finite` -/
def f32IsFinite (bits : UInt32) : Bool := bits.toNat / 2 ^ 23 % 2 ^ 8 != 2 ^ 8 - 1

/-- `(0.1..=0.9).contains` for a finite number -/
def ratioAllowed (bits : UInt64) : Bool :=
  decide (floatKey 64 0x3FB999999999999A ≤ floatKey 64 bits.toNat) &&
    decide (floatKey 64 bits.toNat ≤ floatKey 64 0x3FECCCCCCCCCCCCD)

/-- `(140.0..=10_000.0).contains` for a finite number -/
def heightAllowed (bits : UInt32) : Bool :=
  decide (floatKey 32 0x430C0000 ≤ floatKey 32 bits.toNat) &&
    decide (floatKey 32 bits.toNat ≤ floatKey 32 0x461C4000)

/-! ## §4 The checks -/

/-- A check that fails with its message. -/
def check (passes : Bool) (message : String) : Except String Unit :=
  if passes then .ok () else .error message

theorem check_ok {passes : Bool} {message : String} :
    check passes message = .ok () ↔ passes = true := by
  cases passes <;> simp [check]

/-- The documents of `SessionManifest::validate`: the ids seen so far, most recent first. -/
def validateDocuments (docs : List Nat) : List SessionDocument → Except String (List Nat)
  | [] => .ok docs
  | doc :: rest => do
    check (!docs.contains doc.id && decide (doc.title.utf8ByteSize ≤ 4096))
      "duplicate document or oversized title"
    doc.path.elim (.ok ()) validatePath
    validateDocuments (doc.id :: docs) rest

/-- The comparison refers to two documents. -/
def SessionCompare.allowed (docs : List Nat) (compare : SessionCompare) : Bool :=
  compare.version == 1 && decide (compare.optionsJson.length ≤ 65536) &&
    docs.contains compare.leftDocument && docs.contains compare.rightDocument &&
    compare.leftDocument != compare.rightDocument

/-- The folds of a view are ranges. -/
def ViewState.foldsAllowed (view : ViewState) : Bool :=
  decide (view.folds.length ≤ 100000) && view.folds.all fun range => decide (range.start < range.stop)

/-- The scroll position of a view is finite and not negative. -/
def ViewState.scrollAllowed (view : ViewState) : Bool :=
  f64IsFinite view.scrollYBits && decide (0 ≤ floatKey 64 view.scrollYBits.toNat)

/-- The tabs of `SessionManifest::validate`: the ids seen so far, and whether an unpinned tab
was seen. -/
def validateTabs (docs : List Nat) : List Nat → Bool → List SessionTab → Except String (List Nat)
  | tabs, _, [] => .ok tabs
  | tabs, unpinned, tab :: rest => do
    check tab.view.foldsAllowed "invalid or oversized fold state"
    check tab.view.scrollAllowed "invalid scroll position"
    check (!tabs.contains tab.id && docs.contains tab.documentId) "invalid tab identity"
    check (!(tab.pinned && unpinned)) "pinned tabs must precede unpinned tabs"
    validateTabs docs (tab.id :: tabs) (unpinned || !tab.pinned) rest

/-- The recently used documents of `SessionManifest::validate`. -/
def validateMru (docs : List Nat) : List Nat → List Nat → Except String Unit
  | _, [] => .ok ()
  | mru, id :: rest => do
    check (docs.contains id && !mru.contains id) "invalid MRU document"
    validateMru docs (id :: mru) rest

/-- The recent files of `SessionManifest::validate`. -/
def validateRecent : List SerializedPath → Except String Unit
  | [] => .ok ()
  | path :: rest => do
    validatePath path
    validateRecent rest

/-- `u32::from(split)` -/
def lastPane (split : Bool) : Nat := if split then 1 else 0

namespace SessionManifest

/-- `SessionManifest::valid_layout` -/
def validLayout (m : SessionManifest) : Bool :=
  f64IsFinite m.layout.ratioBits && ratioAllowed m.layout.ratioBits &&
    f32IsFinite m.layout.bottomPanelHeightBits && heightAllowed m.layout.bottomPanelHeightBits &&
    m.layout.bottomPanel.all (fun panel => ["search", "compare", "output"].contains panel) &&
    decide (m.layout.activePane ≤ lastPane m.layout.split) &&
    m.tabs.all (fun tab => decide (tab.view.split ≤ lastPane m.layout.split)) &&
    decide (∀ pane : Fin 2, (m.layout.activeTabs pane).all (fun id =>
      m.tabs.any fun tab => tab.id == id && tab.view.split == pane.val) = true)

/-- `SessionManifest::validate` -/
def validate (m : SessionManifest) : Except String Unit := do
  check (m.version == sessionVersion) "unsupported session version"
  check ([m.documents.length, m.tabs.length, m.mru.length, m.recent.length].all
    fun n => decide (n ≤ MAX_ENTRIES)) "session entry limit"
  let docs ← validateDocuments [] m.documents
  check (m.compare.all (·.allowed docs)) "invalid comparison session"
  let tabs ← validateTabs docs [] false m.tabs
  check (m.activeTab.all tabs.contains) "missing active tab"
  validateMru docs [] m.mru
  validateRecent m.recent
  check (decide (m.layout.tabColors.entries.length ≤ MAX_ENTRIES) &&
    m.layout.tabColors.entries.all fun e => tabs.contains e.1 && decide (e.2 ≤ 0xffffff))
    "invalid session tab color"
  check m.validLayout "invalid session layout"

end SessionManifest

/-! ## §5 What the checks accept -/

/-- Ids that differ from each other and from those seen before. -/
def Fresh (seen ids : List Nat) : Prop := ids.Nodup ∧ ∀ id ∈ ids, id ∉ seen

theorem fresh_nil (seen : List Nat) : Fresh seen [] := ⟨.nil, nofun⟩

theorem fresh_cons {seen ids : List Nat} {id : Nat} :
    Fresh seen (id :: ids) ↔ id ∉ seen ∧ Fresh (id :: seen) ids := by
  constructor
  · rintro ⟨hnodup, hout⟩
    obtain ⟨hid, hids⟩ := List.nodup_cons.mp hnodup
    refine ⟨hout id List.mem_cons_self, hids, fun x hx hseen => ?_⟩
    obtain rfl | hseen := List.mem_cons.mp hseen
    · exact hid hx
    · exact hout x (List.mem_cons_of_mem _ hx) hseen
  · rintro ⟨hid, hnodup, hout⟩
    refine ⟨List.nodup_cons.mpr ⟨fun hmem => hout id hmem List.mem_cons_self, hnodup⟩, ?_⟩
    exact List.forall_mem_cons.mpr ⟨hid, fun x hx hseen => hout x hx (List.mem_cons_of_mem _ hseen)⟩

theorem fresh_none {ids : List Nat} : Fresh [] ids ↔ ids.Nodup :=
  ⟨And.left, fun h => ⟨h, fun _ _ => List.not_mem_nil⟩⟩

theorem contains_eq_false {ids : List Nat} {id : Nat} : ids.contains id = false ↔ id ∉ ids := by
  rw [← List.contains_iff_mem, Bool.not_eq_true]

/-- Two checks in a row. -/
theorem seq_ok {α : Type} {x : Except String Unit} {y : Except String α} {a : α} :
    (do x; y) = .ok a ↔ x = .ok () ∧ y = .ok a :=
  ⟨fun h => let ⟨(), hx, hy⟩ := bind_ok.mp h; ⟨hx, hy⟩, fun h => bind_ok.mpr ⟨(), h.1, h.2⟩⟩

/-- A document's own fields are allowed. -/
def SessionDocument.Valid (doc : SessionDocument) : Prop :=
  doc.title.utf8ByteSize ≤ 4096 ∧ ∀ path, doc.path = some path → validatePath path = .ok ()

theorem optionPath_ok {path : Option SerializedPath} :
    path.elim (.ok ()) validatePath = .ok () ↔
      ∀ p, path = some p → validatePath p = .ok () := by
  cases path <;> simp

theorem validateDocuments_ok {seen docs : List Nat} {documents : List SessionDocument} :
    validateDocuments seen documents = .ok docs ↔
      docs = (documents.map SessionDocument.id).reverse ++ seen ∧
      Fresh seen (documents.map SessionDocument.id) ∧ ∀ doc ∈ documents, doc.Valid := by
  induction documents generalizing seen with
  | nil => simp [validateDocuments, fresh_nil, eq_comm]
  | cons doc rest ih =>
    rw [validateDocuments, seq_ok, seq_ok, check_ok, optionPath_ok, ih, List.map_cons, fresh_cons,
      List.forall_mem_cons, SessionDocument.Valid]
    simp only [Bool.and_eq_true, Bool.not_eq_true', decide_eq_true_eq, contains_eq_false,
      List.reverse_cons, List.append_assoc, List.singleton_append]
    tauto

/-- A view's own fields are allowed. -/
def ViewState.Valid (view : ViewState) : Prop :=
  view.foldsAllowed = true ∧ view.scrollAllowed = true

/-- Pinned tabs come first. -/
def PinnedFirst (tabs : List SessionTab) : Prop :=
  tabs.Pairwise fun a b => b.pinned = true → a.pinned = true

theorem validateTabs_ok {docs seen ids : List Nat} {unpinned : Bool} {tabs : List SessionTab} :
    validateTabs docs seen unpinned tabs = .ok ids ↔
      ids = (tabs.map SessionTab.id).reverse ++ seen ∧ Fresh seen (tabs.map SessionTab.id) ∧
      (∀ tab ∈ tabs, tab.view.Valid ∧ tab.documentId ∈ docs) ∧ PinnedFirst tabs ∧
      (unpinned = true → ∀ tab ∈ tabs, tab.pinned = false) := by
  induction tabs generalizing seen unpinned with
  | nil =>
    exact ⟨fun h => ⟨(Except.ok.inj h).symm, fresh_nil _, nofun, .nil, nofun⟩,
      fun h => congrArg _ h.1.symm⟩
  | cons tab rest ih =>
    have hpins : (tab.pinned && unpinned) = false ∧ PinnedFirst rest ∧
        ((unpinned || !tab.pinned) = true → ∀ t ∈ rest, t.pinned = false) ↔
        PinnedFirst (tab :: rest) ∧ (unpinned = true → ∀ t ∈ tab :: rest, t.pinned = false) := by
      rw [PinnedFirst, PinnedFirst, List.pairwise_cons]
      cases unpinned <;> cases hp : tab.pinned <;> simp [hp]
      · exact and_comm
      · exact fun hall _ t ht => by simp [hall t ht]
    rw [validateTabs, seq_ok, seq_ok, seq_ok, seq_ok, check_ok, check_ok, check_ok, check_ok, ih,
      List.map_cons, fresh_cons, List.forall_mem_cons, ViewState.Valid, ← hpins]
    simp only [Bool.and_eq_true, Bool.not_eq_true', List.contains_iff_mem, contains_eq_false,
      List.reverse_cons, List.append_assoc, List.singleton_append]
    tauto

theorem validateMru_ok {docs seen mru : List Nat} :
    validateMru docs seen mru = .ok () ↔ (∀ id ∈ mru, id ∈ docs) ∧ Fresh seen mru := by
  induction mru generalizing seen with
  | nil => simp [validateMru, fresh_nil]
  | cons id rest ih =>
    rw [validateMru, seq_ok, check_ok, ih, fresh_cons, List.forall_mem_cons]
    simp only [Bool.and_eq_true, Bool.not_eq_true', List.contains_iff_mem, contains_eq_false]
    tauto

theorem validateRecent_ok {recent : List SerializedPath} :
    validateRecent recent = .ok () ↔ ∀ path ∈ recent, validatePath path = .ok () := by
  induction recent with
  | nil => simp [validateRecent]
  | cons path rest ih => rw [validateRecent, seq_ok, ih, List.forall_mem_cons]

/-- A comparison is of two of the documents. -/
def SessionCompare.Valid (docs : List Nat) (compare : SessionCompare) : Prop :=
  compare.version = 1 ∧ compare.optionsJson.length ≤ 65536 ∧ compare.leftDocument ∈ docs ∧
    compare.rightDocument ∈ docs ∧ compare.leftDocument ≠ compare.rightDocument

theorem compare_allowed {docs : List Nat} {compare : Option SessionCompare} :
    compare.all (·.allowed docs) = true ↔ ∀ c, compare = some c → c.Valid docs := by
  simp [Option.all_eq_true, SessionCompare.allowed, SessionCompare.Valid, and_assoc]

/-- Colours are those of tabs. -/
def TabColors.Valid (tabs : List Nat) (colors : TabColors) : Prop :=
  colors.entries.length ≤ MAX_ENTRIES ∧ ∀ e ∈ colors.entries, e.1 ∈ tabs ∧ e.2 ≤ 0xffffff

/-- What `SessionManifest::validate` accepts. -/
structure SessionManifest.Valid (m : SessionManifest) : Prop where
  version : m.version = sessionVersion
  entries : ∀ n ∈ [m.documents.length, m.tabs.length, m.mru.length, m.recent.length], n ≤ MAX_ENTRIES
  ids : (m.documents.map SessionDocument.id).Nodup
  documents : ∀ doc ∈ m.documents, doc.Valid
  compare : ∀ c, m.compare = some c → c.Valid (m.documents.map SessionDocument.id)
  tabIds : (m.tabs.map SessionTab.id).Nodup
  tabs : ∀ tab ∈ m.tabs, tab.view.Valid ∧ tab.documentId ∈ m.documents.map SessionDocument.id
  pins : PinnedFirst m.tabs
  activeTab : ∀ id, m.activeTab = some id → id ∈ m.tabs.map SessionTab.id
  used : ∀ id ∈ m.mru, id ∈ m.documents.map SessionDocument.id
  mru : m.mru.Nodup
  recent : ∀ path ∈ m.recent, validatePath path = .ok ()
  colors : m.layout.tabColors.Valid (m.tabs.map SessionTab.id)
  layout : m.validLayout = true

theorem SessionManifest.validate_iff {m : SessionManifest} : m.validate = .ok () ↔ m.Valid := by
  have hentries : [m.documents.length, m.tabs.length, m.mru.length, m.recent.length].all
      (fun n => decide (n ≤ MAX_ENTRIES)) = true ↔
      ∀ n ∈ [m.documents.length, m.tabs.length, m.mru.length, m.recent.length], n ≤ MAX_ENTRIES := by
    simp
  simp only [validate, seq_ok, @bind_ok String (List Nat), check_ok, hentries, compare_allowed, beq_iff_eq,
    validateDocuments_ok, validateTabs_ok, validateMru_ok, validateRecent_ok, fresh_none,
    List.append_nil, and_assoc, exists_eq_left]
  constructor
  · rintro ⟨hversion, hsizes, hids, hdocs, hcompare, htabIds, htabs, hpins, -, hactive, hused, hmru,
      hrecent, hcolors, hlayout⟩
    simp only [List.mem_reverse] at htabs hused
    refine ⟨hversion, hsizes, hids, hdocs, ?_, htabIds, htabs, hpins, ?_, hused, hmru, hrecent, ?_,
      hlayout⟩
    · intro c hc
      simpa [SessionCompare.Valid] using hcompare c hc
    · simpa [Option.all_eq_true] using hactive
    · simpa [TabColors.Valid] using hcolors
  · intro h
    refine ⟨h.version, h.entries, h.ids, h.documents, ?_, h.tabIds, ?_, h.pins, nofun, ?_, ?_, h.mru,
      h.recent, ?_, h.layout⟩
    · intro c hc
      simpa [SessionCompare.Valid] using h.compare c hc
    · simpa only [List.mem_reverse] using h.tabs
    · simpa [Option.all_eq_true] using h.activeTab
    · simpa only [List.mem_reverse] using h.used
    · simpa [TabColors.Valid] using h.colors

/-- A fresh session is valid. -/
theorem SessionManifest.default_valid : SessionManifest.default.validate = .ok () := by decide

end BareLine.Session
