import BareLine.GroupRecovery.Operations

/-!
# What one journal does to a recovery root

Committed groups name roots of their members by revision.  A journal at work touches its own
directory only, and none of the root files whose revisions are protected there.
-/

namespace BareLine.GroupRecovery

open Lib

/-! ## §1 Journals that keep protected revisions -/

/-- A revision up to the durable one. -/
def Journal.Reached (journal : Journal) (revision : Nat) : Prop :=
  ∃ durable ∈ journal.durable, revision ≤ durable

/-- The revisions of the files a journal knows of. -/
def Journal.Mentions (journal : Journal) (revision : Nat) : Prop :=
  (∃ entry ∈ journal.roots, entry.revision = revision ∨
      ∃ name ∈ entry.owned, name.revision = revision) ∨
    (∃ name ∈ journal.stale, name.revision = revision) ∨
    ∃ store ∈ journal.owned, store.created = revision

/-- What a journal keeps in memory about the protected revisions of its directory. -/
structure JournalSafe (isProtected : Nat → Prop) (journal : Journal) : Prop where
  reached : journal.poisoned = false → ∀ revision, journal.Mentions revision →
    journal.Reached revision
  stale : ∀ name ∈ journal.stale, ¬isProtected name.revision
  roots : ∀ entry ∈ journal.roots, isProtected entry.revision →
    entry.revision ∈ journal.groupRoots
  owned : ∀ entry ∈ journal.roots, ∀ name ∈ entry.owned, isProtected name.revision →
    entry.revision = name.revision
  store : ∀ store ∈ journal.owned, ¬isProtected store.created

/-- A revision that is not protected, or that the journal refuses to prepare again. -/
def Journal.Refuses (isProtected : Nat → Prop) (journal : Journal) (revision : Nat) : Prop :=
  isProtected revision → journal.poisoned = true ∨ journal.Reached revision

/-- What a journal never takes back. -/
structure Journal.Grows (journal journal' : Journal) : Prop where
  poisoned : journal.poisoned = true → journal'.poisoned = true
  reached : ∀ revision, journal.Reached revision → journal'.Reached revision

namespace Journal.Grows

variable {a b c : Journal}

theorem refl (a : Journal) : a.Grows a := ⟨id, fun _ => id⟩

theorem trans (h : a.Grows b) (h' : b.Grows c) : a.Grows c :=
  ⟨fun ha => h'.poisoned (h.poisoned ha), fun r ha => h'.reached r (h.reached r ha)⟩

/-- A journal whose writer did not change. -/
theorem of_eq (hpoisoned : b.poisoned = a.poisoned) (hdurable : b.durable = a.durable) :
    a.Grows b := by
  refine ⟨fun ha => by rw [hpoisoned, ha], fun revision ⟨durable, hd, hr⟩ => ⟨durable, ?_, hr⟩⟩
  rw [hdurable]
  exact hd

theorem refuses {isProtected : Nat → Prop} {revision : Nat} (h : a.Grows b)
    (ha : a.Refuses isProtected revision) : b.Refuses isProtected revision := fun hprotected =>
  (ha hprotected).imp h.poisoned (h.reached revision)

end Journal.Grows

section Journals

variable {isProtected : Nat → Prop} {journal : Journal}

/-- A fresh journal mentions nothing. -/
theorem JournalSafe.new : JournalSafe isProtected Journal.new where
  reached _ revision h := by
    rcases h with ⟨entry, h, -⟩ | ⟨name, h, -⟩ | ⟨store, h, -⟩
    · exact nomatch h
    · exact nomatch h
    · exact nomatch h
  stale name h := nomatch h
  roots entry h := nomatch h
  owned entry h := nomatch h
  store store h := nomatch h

/-- Setting the batch aside. -/
theorem JournalSafe.defer (h : JournalSafe isProtected journal)
    (deferred : Option DeferredAppend) :
    JournalSafe isProtected { journal with deferred := deferred } :=
  ⟨h.reached, h.stale, h.roots, h.owned, h.store⟩

/-- A journal without a store mentions less. -/
theorem JournalSafe.dropStore (h : JournalSafe isProtected journal) :
    JournalSafe isProtected { journal with owned := none } where
  reached hwritable revision hmentions := by
    apply h.reached hwritable
    rcases hmentions with hm | hm | ⟨store, hm, -⟩
    · exact .inl hm
    · exact .inr (.inl hm)
    · exact nomatch hm
  stale := h.stale
  roots := h.roots
  owned := h.owned
  store _ hm := nomatch hm

/-- The store of an append that the journal has recorded. -/
theorem JournalSafe.setStore (h : JournalSafe isProtected journal) {store : Option OwnedStore}
    (hreached : ∀ s ∈ store, journal.Reached s.created)
    (hstore : ∀ s ∈ store, ¬isProtected s.created) :
    JournalSafe isProtected { journal with owned := store } where
  reached hwritable revision hmentions := by
    rcases hmentions with hm | hm | ⟨s, hm, rfl⟩
    · exact h.reached hwritable revision (.inl hm)
    · exact h.reached hwritable revision (.inr (.inl hm))
    · exact hreached s hm
  stale := h.stale
  roots := h.roots
  owned := h.owned
  store := hstore

theorem JournalSafe.poison (h : JournalSafe isProtected journal) :
    JournalSafe isProtected { journal with poisoned := true } where
  reached hwritable := nomatch hwritable
  stale := h.stale
  roots := h.roots
  owned := h.owned
  store := h.store

/-- A recorded revision lies past the ones before it. -/
theorem Journal.Grows.record {revision : Nat} (hnew : ¬journal.Reached revision) :
    journal.Grows { journal with durable := some revision } := by
  refine ⟨id, fun r ⟨durable, hd, hr⟩ => ⟨revision, rfl, ?_⟩⟩
  have hlt : ¬revision ≤ durable := fun hle => hnew ⟨durable, hd, hle⟩
  omega

theorem JournalSafe.record (h : JournalSafe isProtected journal) {revision : Nat}
    (hnew : ¬journal.Reached revision) :
    JournalSafe isProtected { journal with durable := some revision } where
  reached hwritable r hmentions := (Journal.Grows.record hnew).reached r
    (h.reached hwritable r hmentions)
  stale := h.stale
  roots := h.roots
  owned := h.owned
  store := h.store

theorem JournalSafe.groupRoot (h : JournalSafe isProtected journal) (revision : Nat) :
    JournalSafe isProtected { journal with groupRoots := revision :: journal.groupRoots } where
  reached := h.reached
  stale := h.stale
  roots entry hentry hprotected := List.mem_cons_of_mem _ (h.roots entry hentry hprotected)
  owned := h.owned
  store := h.store

/-- The kept roots are among the roots, and a group root is kept. -/
theorem mem_keptRoots {groupRoots : List Nat} {newest : Nat} {needed : List Nat}
    {entries : List RootEntry} {entry : RootEntry} {kept : Bool}
    (h : (entry, kept) ∈ keptRoots groupRoots newest needed entries) :
    entry ∈ entries ∧ (kept = false → entry.revision ∉ groupRoots) := by
  induction entries generalizing newest needed with
  | nil => exact nomatch h
  | cons e entries ih =>
    rw [keptRoots] at h
    split at h
    · rcases List.mem_cons.mp h with heq | h
      · cases heq
        exact ⟨List.mem_cons_self .., fun hkept => nomatch hkept⟩
      · exact ⟨List.mem_cons_of_mem _ (ih h).1, (ih h).2⟩
    · rename_i hdropped
      rcases List.mem_cons.mp h with heq | h
      · cases heq
        exact ⟨List.mem_cons_self .., fun _ hgroup => hdropped (.inr (.inl hgroup))⟩
      · exact ⟨List.mem_cons_of_mem _ (ih h).1, (ih h).2⟩

/-- What `remember` keeps is among the roots before it and the new one. -/
theorem Journal.mem_remember_roots {receipt : RootReceipt} {entry : RootEntry}
    (h : entry ∈ (journal.remember receipt).roots) :
    entry ∈ journal.roots ∨ entry = receipt.entry := by
  obtain ⟨flag, hflag, rfl⟩ := List.mem_map.mp h
  have hmem := List.mem_reverse.mp (List.mem_of_mem_filter hflag)
  have hin := List.mem_reverse.mp (mem_keptRoots hmem).1
  rcases List.mem_append.mp hin with hin | hin
  · exact .inl hin
  · exact .inr (List.mem_singleton.mp hin)

/-- A file becomes stale with a root that no group committed. -/
theorem Journal.mem_remember_stale {receipt : RootReceipt} {name : AssetName}
    (h : name ∈ (journal.remember receipt).stale) :
    name ∈ journal.stale ∨ ∃ entry, (entry ∈ journal.roots ∨ entry = receipt.entry) ∧
      entry.revision ∉ journal.groupRoots ∧
      (name.revision = entry.revision ∨ name ∈ entry.owned) := by
  rcases List.mem_append.mp h with h | h
  · exact .inl h
  · obtain ⟨entry, hentry, hname⟩ := List.mem_flatMap.mp h
    obtain ⟨flag, hflag, rfl⟩ := List.mem_map.mp hentry
    obtain ⟨hmem, hdropped⟩ := List.mem_filter.mp hflag
    obtain ⟨hin, hgroup⟩ := mem_keptRoots (List.mem_reverse.mp hmem)
    refine .inr ⟨flag.1, ?_, hgroup (by simpa using hdropped), ?_⟩
    · rcases List.mem_append.mp (List.mem_reverse.mp hin) with hin | hin
      · exact .inl hin
      · exact .inr (List.mem_singleton.mp hin)
    · rcases List.mem_append.mp hname with hname | hname
      · left
        rcases List.mem_cons.mp hname with rfl | hname
        · rfl
        · rw [List.mem_singleton.mp hname]
          rfl
      · right
        have hfilter := Option.mem_toList.mp hname
        exact (Option.mem_filter_iff.mp hfilter).1

/-- Remembering a root that is recorded, or whose writer is stopped. -/
theorem JournalSafe.remember (h : JournalSafe isProtected journal) {receipt : RootReceipt}
    (hgroup : isProtected receipt.revision → receipt.revision ∈ journal.groupRoots)
    (howned : ∀ name ∈ receipt.entry.owned, isProtected name.revision →
      receipt.revision = name.revision)
    (hreached : journal.poisoned = false → journal.Reached receipt.revision ∧
      ∀ name ∈ receipt.entry.owned, journal.Reached name.revision) :
    JournalSafe isProtected (journal.remember receipt) := by
  have hroots : ∀ entry, entry ∈ journal.roots ∨ entry = receipt.entry →
      isProtected entry.revision → entry.revision ∈ journal.groupRoots := by
    rintro entry (hentry | rfl) hprotected
    · exact h.roots entry hentry hprotected
    · exact hgroup hprotected
  have hnames : ∀ entry, entry ∈ journal.roots ∨ entry = receipt.entry → ∀ name ∈ entry.owned,
      isProtected name.revision → entry.revision = name.revision := by
    rintro entry (hentry | rfl) name hname hprotected
    · exact h.owned entry hentry name hname hprotected
    · exact howned name hname hprotected
  have hknown : journal.poisoned = false → ∀ entry, entry ∈ journal.roots ∨ entry = receipt.entry →
      journal.Reached entry.revision ∧ ∀ name ∈ entry.owned, journal.Reached name.revision := by
    rintro hwritable entry (hentry | rfl)
    · exact ⟨h.reached hwritable _ (.inl ⟨entry, hentry, .inl rfl⟩), fun name hname =>
        h.reached hwritable _ (.inl ⟨entry, hentry, .inr ⟨name, hname, rfl⟩⟩)⟩
    · exact hreached hwritable
  refine ⟨?_, ?_, fun entry hentry => hroots entry (Journal.mem_remember_roots hentry),
    fun entry hentry => hnames entry (Journal.mem_remember_roots hentry), h.store⟩
  · rintro hwritable revision (⟨entry, hentry, hrevision⟩ | ⟨name, hname, rfl⟩ | hstore)
    · have hentry := hknown hwritable entry (Journal.mem_remember_roots hentry)
      rcases hrevision with rfl | ⟨name, hname, rfl⟩
      · exact hentry.1
      · exact hentry.2 name hname
    · rcases Journal.mem_remember_stale hname with hname | ⟨entry, hentry, -, hrevision⟩
      · exact h.reached hwritable _ (.inr (.inl ⟨name, hname, rfl⟩))
      · rcases hrevision with hrevision | hname
        · rw [hrevision]
          exact (hknown hwritable entry hentry).1
        · exact (hknown hwritable entry hentry).2 name hname
    · exact h.reached hwritable _ (.inr (.inr hstore))
  · intro name hname hprotected
    rcases Journal.mem_remember_stale hname with hname | ⟨entry, hentry, hgroup, hrevision⟩
    · exact h.stale name hname hprotected
    · apply hgroup
      apply hroots entry hentry
      rcases hrevision with hrevision | hname
      · rwa [hrevision] at hprotected
      · rwa [hnames entry hentry name hname hprotected]

/-- Fewer stale files. -/
theorem JournalSafe.setStale (h : JournalSafe isProtected journal) {stale : List AssetName}
    (hstale : ∀ name ∈ stale, name ∈ journal.stale) :
    JournalSafe isProtected { journal with stale := stale } where
  reached hwritable revision hmentions := by
    rcases hmentions with hm | ⟨name, hm, rfl⟩ | hm
    · exact h.reached hwritable _ (.inl hm)
    · exact h.reached hwritable _ (.inr (.inl ⟨name, hstale name hm, rfl⟩))
    · exact h.reached hwritable _ (.inr (.inr hm))
  stale name hm := h.stale name (hstale name hm)
  roots := h.roots
  owned := h.owned
  store := h.store

end Journals

/-! ## §2 The reach of one journal -/

section Worlds

variable {w : World} {d d' : Directory} {name name' : AssetName} {content : Option Bytes}

@[simp] theorem setAsset_same : ((w.setAsset d name content).folder d).asset name = content := by
  simp [World.setAsset, World.setFolder]

theorem setAsset_asset (hne : name' ≠ name) :
    ((w.setAsset d name content).folder d).asset name' = (w.folder d).asset name' := by
  simp [World.setAsset, World.setFolder, hne]

theorem setFolder_other {folder : Folder} (hne : d' ≠ d) :
    (w.setFolder d folder).folder d' = w.folder d' :=
  Function.update_of_ne hne _ _

@[simp] theorem setAsset_pointer :
    ((w.setAsset d name content).folder d).pointer = (w.folder d).pointer := by
  simp [World.setAsset, World.setFolder]

@[simp] theorem setAsset_intent :
    ((w.setAsset d name content).folder d).intent = (w.folder d).intent := by
  simp [World.setAsset, World.setFolder]

@[simp] theorem setAsset_journal : (w.setAsset d name content).journal = w.journal := rfl

@[simp] theorem setAsset_marker : (w.setAsset d name content).marker = w.marker := rfl

@[simp] theorem setJournal_same {journal : Journal} :
    (w.setJournal d journal).journal d = journal :=
  Function.update_self ..

theorem setJournal_other {journal : Journal} (hne : d' ≠ d) :
    (w.setJournal d journal).journal d' = w.journal d' :=
  Function.update_of_ne hne _ _

@[simp] theorem setJournal_folder {journal : Journal} :
    (w.setJournal d journal).folder = w.folder := rfl

@[simp] theorem setJournal_marker {journal : Journal} :
    (w.setJournal d journal).marker = w.marker := rfl

end Worlds

/-- The worlds a journal leads to: outside its directory, and for what is protected in it,
nothing changes. -/
structure Inside (isProtected : Nat → Prop) (d : Directory) (w₀ w : World) : Prop where
  marker : w.marker = w₀.marker
  folders : ∀ d', d' ≠ d → w.folder d' = w₀.folder d'
  journals : ∀ d', d' ≠ d → w.journal d' = w₀.journal d'
  pointer : (w.folder d).pointer = (w₀.folder d).pointer
  intent : (w.folder d).intent = (w₀.folder d).intent
  asset : ∀ name, isProtected name.revision →
    (w.folder d).asset name = (w₀.folder d).asset name
  safe : JournalSafe isProtected (w.journal d)
  grows : (w₀.journal d).Grows (w.journal d)

section Reach

variable {isProtected : Nat → Prop} {d : Directory} {w₀ w : World}

theorem Inside.refl (h : JournalSafe isProtected (w.journal d)) : Inside isProtected d w w where
  marker := rfl
  folders _ _ := rfl
  journals _ _ := rfl
  pointer := rfl
  intent := rfl
  asset _ _ := rfl
  safe := h
  grows := .refl _

theorem Inside.setAsset (h : Inside isProtected d w₀ w) (name : AssetName)
    (hname : ¬isProtected name.revision) (content : Option Bytes) :
    Inside isProtected d w₀ (w.setAsset d name content) where
  marker := h.marker
  folders d' hne := (setFolder_other hne).trans (h.folders d' hne)
  journals := h.journals
  pointer := setAsset_pointer.trans h.pointer
  intent := setAsset_intent.trans h.intent
  asset name' hprotected := by
    have hne : name' ≠ name := by
      rintro rfl
      exact hname hprotected
    exact (setAsset_asset hne).trans (h.asset name' hprotected)
  safe := h.safe
  grows := h.grows

theorem Inside.setJournal (h : Inside isProtected d w₀ w) {journal : Journal}
    (hsafe : JournalSafe isProtected journal) (hgrows : (w.journal d).Grows journal) :
    Inside isProtected d w₀ (w.setJournal d journal) where
  marker := h.marker
  folders := h.folders
  journals d' hne := (setJournal_other hne).trans (h.journals d' hne)
  pointer := h.pointer
  intent := h.intent
  asset := h.asset
  safe := by rwa [setJournal_same]
  grows := by
    rw [setJournal_same]
    exact h.grows.trans hgrows

/-! ## §3 One operation -/

section Operations

variable {queriesFail : Prop} {inv : World → Prop}

theorem holds_refuseIf {c : Prop} [Decidable c] {text : String} {post : Unit → World → Prop}
    (hinv : inv w) (hpost : ¬c → post () w) :
    Holds (machine queriesFail) inv (refuseIf c text) post w := by
  rw [refuseIf]
  split
  · exact .throw hinv
  · rename_i hc
    exact .pure hinv (hpost hc)

theorem holds_resultOf {α : Type} {task : Task α} {post : Except String α → World → Prop}
    (h : Holds (machine queriesFail) inv task (fun a w' => post (.ok a) w') w)
    (herror : ∀ e w', inv w' → post (.error e) w') :
    Holds (machine queriesFail) inv (resultOf task) post w :=
  .kept h herror

theorem holds_ignore {α : Type} {task : Task α} {post : Unit → World → Prop}
    (h : Holds (machine queriesFail) inv task (fun _ w' => post () w') w)
    (herror : ∀ w', inv w' → post () w') :
    Holds (machine queriesFail) inv (ignore task) post w := by
  refine .andThen (holds_resultOf (h.weaken fun a w' hinv hpost => ?_) fun e w' hinv => ?_)
  · exact .pure hinv hpost
  · exact .pure hinv (herror w' hinv)

theorem holds_attempt {post : Unit → World → Prop} (hinv : inv w) (hpost : post () w) :
    Holds (machine queriesFail) inv attempt post w :=
  Meets.ask hinv fun _ _ hstep => hstep ▸ ⟨hinv, fun _ _ => hpost⟩

theorem holds_tried {post : Except String Unit → World → Prop} (hinv : inv w)
    (hpost : ∀ outcome, post outcome w) :
    Holds (machine queriesFail) inv (resultOf attempt) post w := by
  refine Meets.lift (Meets.ask hinv fun outcome w' hw => ?_)
  subst hw
  exact ⟨hinv, fun r hr => Except.ok.inj hr ▸ hpost outcome⟩

theorem holds_memory {post : Journal → World → Prop} (hinv : inv w)
    (hpost : post (w.journal d) w) : Holds (machine queriesFail) inv (memory d) post w := by
  refine Meets.lift (Meets.ask hinv fun answer w' ⟨hanswer, hw⟩ => ?_)
  subst hanswer hw
  exact ⟨hinv, fun a ha => Except.ok.inj ha ▸ hpost⟩

theorem holds_assign {journal : Journal} {post : Unit → World → Prop} (hinv : inv w)
    (hafter : inv (w.setJournal d journal)) (hpost : post () (w.setJournal d journal)) :
    Holds (machine queriesFail) inv (assign d journal) post w := by
  refine Meets.lift (Meets.ask hinv fun answer w' hw => ?_)
  subst hw
  exact ⟨hafter, fun _ _ => hpost⟩

/-- A publication that reports success has happened. -/
theorem published_ok {after w' : World} {answer : Except String Unit} {post : Unit → World → Prop}
    (h : published w after answer w') (hinv : inv w) (hafter : inv after)
    (hpost : post () after) : inv w' ∧ ∀ a, answer = .ok a → post a w' := by
  rcases h with ⟨rfl, rfl⟩ | ⟨error, rfl, rfl | rfl⟩
  · exact ⟨hafter, fun _ _ => hpost⟩
  · exact ⟨hinv, fun _ ha => nomatch ha⟩
  · exact ⟨hafter, fun _ ha => nomatch ha⟩

theorem holds_publishIntent {d : Directory} {id : Nat} {receipt : RootReceipt}
    {post : Unit → World → Prop} (hinv : inv w) (hafter : inv (w.setIntent d id receipt))
    (hpost : post () (w.setIntent d id receipt)) :
    Holds (machine queriesFail) inv (publishIntent d id receipt) post w :=
  Meets.ask hinv fun _ _ hstep => published_ok hstep hinv hafter hpost

theorem holds_publishPointer {d : Directory} {pointer : Pointer} {post : Unit → World → Prop}
    (hinv : inv w) (hafter : inv (w.setPointer d pointer))
    (hpost : post () (w.setPointer d pointer)) :
    Holds (machine queriesFail) inv (publishPointer d pointer) post w :=
  Meets.ask hinv fun _ _ hstep => published_ok hstep hinv hafter hpost

theorem holds_readBack {d : Directory} {name : AssetName} {post : Bytes → World → Prop}
    (hinv : inv w) (hpost : ∀ content, (w.folder d).asset name = some content → post content w) :
    Holds (machine queriesFail) inv (readBack d name) post w := by
  refine Meets.ask hinv fun answer w' ⟨hanswer, hw⟩ => ?_
  subst hw
  refine ⟨hinv, fun content hcontent => ?_⟩
  rcases hanswer with ⟨c, hc, hasset⟩ | ⟨error, herror⟩
  · rw [hcontent] at hc
    cases hc
    exact hpost content hasset
  · rw [hcontent] at herror
    exact nomatch herror

theorem holds_tryExists {d : Directory} {name : AssetName} {post : Bool → World → Prop}
    (hinv : inv w) (hpost : ∀ found, post found w) :
    Holds (machine queriesFail) inv (tryExists d name) post w := by
  refine Meets.ask hinv fun answer w' ⟨_, hw⟩ => ?_
  subst hw
  exact ⟨hinv, fun found _ => hpost found⟩

variable {name : AssetName}

theorem holds_createNew {post : Unit → World → Prop} (h : Inside isProtected d w₀ w)
    (hname : ¬isProtected name.revision) (hpost : post () (w.setAsset d name (some []))) :
    Holds (machine queriesFail) (Inside isProtected d w₀) (createNew d name) post w := by
  refine Meets.ask h fun answer w' hstep => ?_
  rcases hstep with ⟨-, hstep⟩ | ⟨error, rfl, rfl⟩
  · exact published_ok hstep h (h.setAsset name hname _) hpost
  · exact ⟨h, fun _ ha => nomatch ha⟩

theorem holds_append {content : Bytes} {post : Unit → World → Prop}
    (h : Inside isProtected d w₀ w) (hname : ¬isProtected name.revision)
    (hpost : post () (w.setAsset d name
      (((w.folder d).asset name).map fun before => before ++ content))) :
    Holds (machine queriesFail) (Inside isProtected d w₀) (append d name content) post w := by
  refine Meets.ask h fun answer w' hstep => ?_
  rcases hstep with ⟨rfl, rfl⟩ | ⟨error, torn, rfl, rfl⟩
  · exact ⟨h.setAsset name hname _, fun _ _ => hpost⟩
  · exact ⟨h.setAsset name hname _, fun _ ha => nomatch ha⟩

theorem holds_remove {post : Unit → World → Prop} (h : Inside isProtected d w₀ w)
    (hname : ¬isProtected name.revision) (hpost : post () (w.setAsset d name none)) :
    Holds (machine queriesFail) (Inside isProtected d w₀) (remove d name) post w :=
  Meets.ask h fun _ _ hstep => published_ok hstep h (h.setAsset name hname _) hpost

theorem holds_publishReceipt {content : Bytes} {post : Unit → World → Prop}
    (h : Inside isProtected d w₀ w) (hname : ¬isProtected name.revision)
    (hpost : post () (w.setAsset d name (some content))) :
    Holds (machine queriesFail) (Inside isProtected d w₀) (publishReceipt d name content) post w :=
  Meets.ask h fun _ _ hstep => published_ok hstep h (h.setAsset name hname _) hpost

/-- A writer that can go on. -/
theorem holds_ensureWritable {post : Unit → World → Prop} (hinv : inv w)
    (hpost : (w.journal d).poisoned = false → post () w) :
    Holds (machine queriesFail) inv (ensureWritable d) post w := by
  refine .andThen (holds_memory hinv (.andThen (holds_refuseIf hinv fun hwritable => ?_)))
  exact holds_attempt hinv (hpost (by simpa using hwritable))

/-- Abandoned files go only where no protected root is. -/
theorem holds_prepareRecipeRevision {revision : Nat} {post : Unit → World → Prop}
    (h : Inside isProtected d w₀ w) (hrefuses : (w.journal d).Refuses isProtected revision)
    (hpost : ∀ w', Inside isProtected d w₀ w' → w'.journal = w.journal →
      (w.journal d).poisoned = false → ¬(w.journal d).Reached revision → ¬isProtected revision →
      post () w') :
    Holds (machine queriesFail) (Inside isProtected d w₀) (prepareRecipeRevision d revision)
      post w := by
  refine .andThen (holds_ensureWritable h fun hwritable => ?_)
  refine .andThen (holds_memory h ?_)
  refine .andThen (holds_refuseIf h fun hnew => ?_)
  have hfree : ¬isProtected revision := fun hprotected => by
    rcases hrefuses hprotected with hp | hr
    · rw [hwritable] at hp
      exact nomatch hp
    · exact hnew hr
  refine .andThen (holds_remove h hfree ?_)
  have h := h.setAsset (.root revision) hfree none
  refine .andThen (holds_remove h hfree ?_)
  have h := h.setAsset (.receipt revision) hfree none
  exact holds_remove h hfree (hpost _ (h.setAsset (.owned revision) hfree none) rfl hwritable hnew hfree)

end Operations

/-! ## §4 Recipes -/

section Recipes

variable {queriesFail : Prop} {sha256 : Bytes → Digest} {revision : Nat} {appends : Bool}
  {draft : Draft}

theorem holds_removeIf {created : Bool} {name : AssetName} {post : Unit → World → Prop}
    (h : Inside isProtected d w₀ w) (hname : ¬isProtected name.revision)
    (hpost : ∀ w', Inside isProtected d w₀ w' → post () w') :
    Holds (machine queriesFail) (Inside isProtected d w₀) (removeIf created d name) post w := by
  cases created with
  | false => exact .pure h (hpost w h)
  | true =>
    exact holds_ignore (holds_remove h hname (hpost _ (h.setAsset name hname none))) hpost

/-- A recipe that failed takes its files with it. -/
theorem holds_failRecipe {α : Type} {owned json receipt : Bool} {error : String}
    {post : α → World → Prop} (h : Inside isProtected d w₀ w) (hfree : ¬isProtected revision) :
    Holds (machine queriesFail) (Inside isProtected d w₀)
      (do
        recipeCleanup d revision owned json receipt
        throw error : Task α) post w := by
  refine .andThen (.andThen (holds_removeIf h hfree fun w' h => ?_))
  refine .andThen (holds_removeIf h hfree fun w' h => ?_)
  exact holds_removeIf h hfree fun w' h => .throw h

theorem holds_continued {previous : Option OwnedStore} {post : Option OwnedStore → World → Prop}
    {inv : World → Prop} (hinv : inv w) (hnone : post none w)
    (hsome : ∀ store, previous = some store → post (some store) w) :
    Holds (machine queriesFail) inv (continued previous) post w := by
  cases previous with
  | none => exact .pure hinv hnone
  | some store =>
    refine .andThen (holds_tried hinv fun outcome => ?_)
    cases outcome with
    | ok u => exact .pure hinv (hsome store rfl)
    | error e => exact .pure hinv hnone

/-- A recipe over a store whose text has been appended. -/
theorem holds_writeRecipe {store : OwnedStore} {post : RootReceipt → World → Prop}
    (h : Inside isProtected d w₀ w) (hfree : ¬isProtected revision)
    (hstore : ¬isProtected store.created)
    (hempty : (w.folder d).asset (.root revision) = some [])
    (hpost : ∀ w', Inside isProtected d w₀ w' → w'.journal = w.journal →
      (w'.folder d).asset (.root revision) = some draft.recipe →
      (w'.folder d).asset store.name =
        ((w.folder d).asset store.name).map (fun before => before ++ draft.text) →
      post (rootReceipt sha256 revision appends store draft draft.recipe) w') :
    Holds (machine queriesFail) (Inside isProtected d w₀)
      (writeRecipe sha256 d revision appends store draft) post w := by
  have hne : AssetName.root revision ≠ store.name := nofun
  refine .andThen (holds_append h hstore ?_)
  have h₁ := h.setAsset store.name hstore
    (((w.folder d).asset store.name).map fun before => before ++ draft.text)
  refine .andThen (holds_refuseIf h₁ fun _ => ?_)
  refine .andThen (holds_attempt h₁ ?_)
  refine .andThen (holds_readBack h₁ fun content _ => ?_)
  refine .andThen (holds_refuseIf h₁ fun _ => ?_)
  refine .andThen (holds_refuseIf h₁ fun _ => ?_)
  refine .andThen (holds_append h₁ hfree ?_)
  rw [setAsset_asset hne, hempty, Option.map_some, List.nil_append]
  have h₂ := h₁.setAsset (.root revision) hfree (some draft.recipe)
  refine .andThen (holds_attempt h₂ ?_)
  refine .andThen (holds_readBack h₂ fun recipe hrecipe => ?_)
  rw [setAsset_same] at hrecipe
  cases hrecipe
  refine .andThen (holds_tryExists h₂ fun found => ?_)
  refine .andThen (holds_refuseIf h₂ fun _ => ?_)
  refine .pure h₂ (hpost _ h₂ rfl setAsset_same ?_)
  rw [setAsset_asset hne.symm, setAsset_same]

/-- The recipe and the receipt of a root, once its store is open. -/
theorem holds_recipeOver {store : OwnedStore} {created : Bool}
    {post : RootReceipt × Option OwnedStore → World → Prop} (h : Inside isProtected d w₀ w)
    (hfree : ¬isProtected revision) (hstore : ¬isProtected store.created)
    (hpost : ∀ w', Inside isProtected d w₀ w' → w'.journal = w.journal →
      (w'.folder d).asset (.root revision) = some draft.recipe →
      (w'.folder d).asset store.name =
        ((w.folder d).asset store.name).map (fun before => before ++ draft.text) →
      post (rootReceipt sha256 revision appends store draft draft.recipe,
        if appends then some ⟨store.created, store.sealed ++ draft.text, some revision⟩ else none)
        w') :
    Holds (machine queriesFail) (Inside isProtected d w₀)
      (recipeOver sha256 d revision appends created store draft) post w := by
  have hroot : store.name ≠ .root revision := nofun
  have hreceipt : store.name ≠ .receipt revision := nofun
  have hne : AssetName.root revision ≠ .receipt revision := nofun
  refine .andThen (holds_resultOf (holds_createNew h hfree ?_) fun e w' h' =>
    holds_failRecipe h' hfree)
  have h₁ := h.setAsset (.root revision) hfree (some [])
  refine .andThen (holds_resultOf (holds_writeRecipe h₁ hfree hstore setAsset_same
    fun w₂ h₂ hjournal hrecipe howned => ?_) fun e w' h' => holds_failRecipe h' hfree)
  rw [setAsset_asset hroot] at howned
  refine .andThen (holds_resultOf (holds_publishReceipt h₂ hfree ?_) fun e w' h' =>
    holds_failRecipe h' hfree)
  have h₃ := h₂.setAsset (.receipt revision) hfree
    (some (Json.bytes (rootReceipt sha256 revision appends store draft draft.recipe).json))
  refine .pure h₃ (hpost _ h₃ hjournal ?_ ?_)
  · rw [setAsset_asset hne, hrecipe]
  · rw [setAsset_asset hreceipt, howned]

/-- The root of a recipe, over the store it continued or created. -/
theorem holds_prepareRecipe {previous : Option OwnedStore}
    {post : RootReceipt × Option OwnedStore → World → Prop} (h : Inside isProtected d w₀ w)
    (hfree : ¬isProtected revision) (hprevious : ∀ s ∈ previous, ¬isProtected s.created)
    (hpost : ∀ store w', Inside isProtected d w₀ w' → w'.journal = w.journal →
      (previous = some store ∨ store = OwnedStore.new revision) →
      (w'.folder d).asset (.root revision) = some draft.recipe →
      (previous = none → (w'.folder d).asset (.owned revision) = some draft.text) →
      post (rootReceipt sha256 revision appends store draft draft.recipe,
        if appends then some ⟨store.created, store.sealed ++ draft.text, some revision⟩ else none)
        w') :
    Holds (machine queriesFail) (Inside isProtected d w₀)
      (prepareRecipe sha256 d revision appends previous draft) post w := by
  refine .andThen (holds_attempt h ?_)
  refine .andThen (holds_continued h ?_ fun store hstore => ?_)
  · -- A store is created for this root.
    refine .andThen (holds_createNew h hfree ?_)
    have hcreated := h.setAsset (.owned revision) hfree (some [])
    exact holds_recipeOver hcreated hfree hfree fun w' h' hjournal hroot howned =>
      hpost _ w' h' hjournal (.inr rfl) hroot fun _ => howned.trans (by rw [setAsset_same]; rfl)
  · exact holds_recipeOver h hfree (hprevious store hstore) fun w' h' hjournal hroot _ =>
      hpost _ w' h' hjournal (.inl hstore) hroot fun hnone => by
        rw [hstore] at hnone
        exact nomatch hnone

/-- The root of a document, for the directory's own protected revisions. -/
theorem holds_prepareRoot {previous : Option OwnedStore}
    {post : RootReceipt × Option OwnedStore → World → Prop} (h : Inside isProtected d w₀ w)
    (hfree : ¬isProtected revision) (hprevious : ∀ s ∈ previous, ¬isProtected s.created)
    (hpost : ∀ store w', Inside isProtected d w₀ w' → w'.journal = w.journal →
      (previous = some store ∨ store = OwnedStore.new revision) →
      (w'.folder d).asset (.root revision) = some draft.recipe →
      (previous = none → (w'.folder d).asset (.owned revision) = some draft.text) →
      post (rootReceipt sha256 revision appends store draft draft.recipe,
        if appends then some ⟨store.created, store.sealed ++ draft.text, some revision⟩ else none)
        w') :
    Holds (machine queriesFail) (Inside isProtected d w₀)
      (prepareRoot sha256 d revision appends previous draft) post w :=
  .andThen (holds_attempt h (holds_prepareRecipe h hfree hprevious hpost))

end Recipes

/-! ## §5 Records and superseded roots -/

section Records

variable {queriesFail : Prop}

/-- A removal, whatever it reports. -/
theorem holds_tryRemove {name : AssetName} {post : Except String Unit → World → Prop}
    (h : Inside isProtected d w₀ w) (hname : ¬isProtected name.revision)
    (hpost : ∀ outcome w', Inside isProtected d w₀ w' → w'.journal = w.journal →
      post outcome w') :
    Holds (machine queriesFail) (Inside isProtected d w₀) (resultOf (remove d name)) post w := by
  have hafter := h.setAsset name hname none
  refine Meets.lift (Meets.ask h fun outcome w' hstep => ?_)
  have hw : w' = w ∨ w' = w.setAsset d name none := by
    rcases hstep with ⟨-, rfl⟩ | ⟨error, -, hw⟩
    · exact .inr rfl
    · exact hw
  rcases hw with rfl | rfl
  · exact ⟨h, fun r hr => Except.ok.inj hr ▸ hpost outcome _ h rfl⟩
  · exact ⟨hafter, fun r hr => Except.ok.inj hr ▸ hpost outcome _ hafter rfl⟩

theorem holds_removeStale {names : List AssetName} {post : List AssetName → World → Prop}
    (h : Inside isProtected d w₀ w) (hnames : ∀ name ∈ names, ¬isProtected name.revision)
    (hpost : ∀ rest w', Inside isProtected d w₀ w' → w'.journal = w.journal →
      (∀ name ∈ rest, name ∈ names) → post rest w') :
    Holds (machine queriesFail) (Inside isProtected d w₀) (removeStale d names) post w := by
  induction names generalizing w post with
  | nil => exact .pure h (hpost [] w h rfl fun _ hname => hname)
  | cons name names ih =>
    refine .andThen (holds_tryRemove h (hnames name (List.mem_cons_self ..))
      fun outcome w' h' hjournal => ?_)
    refine .andThen (ih h' (fun n hn => hnames n (List.mem_cons_of_mem _ hn))
      fun rest w'' h'' hjournal' hrest => ?_)
    have hjournal := hjournal'.trans hjournal
    cases outcome with
    | ok u =>
      exact .pure h'' (hpost rest w'' h'' hjournal fun n hn => List.mem_cons_of_mem _ (hrest n hn))
    | error e =>
      refine .pure h'' (hpost (name :: rest) w'' h'' hjournal fun n hn => ?_)
      rcases List.mem_cons.mp hn with rfl | hn
      · exact List.mem_cons_self ..
      · exact List.mem_cons_of_mem _ (hrest n hn)

/-- Remembering a root removes no protected file. -/
theorem holds_rememberRoot {receipt : RootReceipt} {post : Unit → World → Prop}
    (h : Inside isProtected d w₀ w)
    (hsafe : JournalSafe isProtected ((w.journal d).remember receipt))
    (hpost : ∀ w', Inside isProtected d w₀ w' → post () w') :
    Holds (machine queriesFail) (Inside isProtected d w₀) (rememberRoot d receipt) post w := by
  refine .andThen (holds_memory h ?_)
  have h₁ := h.setJournal hsafe (.of_eq rfl rfl)
  refine .andThen (holds_assign h h₁ ?_)
  refine .andThen (holds_removeStale h₁ hsafe.stale fun rest w' h' hjournal hrest => ?_)
  have hsame : w'.journal d = (w.journal d).remember receipt := by rw [hjournal, setJournal_same]
  have hkept : JournalSafe isProtected
      { (w.journal d).remember receipt with stale := rest.drop (rest.length - 1024) } :=
    hsafe.setStale fun name hname => hrest name (List.mem_of_mem_drop hname)
  have h₂ := h'.setJournal hkept (.of_eq (by rw [hsame]) (by rw [hsame]))
  exact holds_assign h' h₂ (hpost _ h₂)

/-- A record past the durable ones, by a writer that can go on. -/
theorem holds_appendRecord {revision : Nat} {post : Unit → World → Prop}
    (h : Inside isProtected d w₀ w)
    (hpost : (w.journal d).poisoned = false →
      Inside isProtected d w₀
        (w.setJournal d { w.journal d with durable := some revision }) →
      post () (w.setJournal d { w.journal d with durable := some revision })) :
    Holds (machine queriesFail) (Inside isProtected d w₀) (appendRecord d revision) post w := by
  refine .andThen (holds_ensureWritable h fun hwritable => ?_)
  refine .andThen (holds_memory h ?_)
  refine .andThen (holds_refuseIf h fun hnew => ?_)
  refine .andThen (holds_attempt h ?_)
  refine .andThen (holds_tried h fun outcome => ?_)
  cases outcome with
  | ok u =>
    have h' := h.setJournal (h.safe.record hnew) (.record hnew)
    exact holds_assign h h' (hpost hwritable h')
  | error e =>
    have h' := h.setJournal h.safe.poison ⟨fun _ => rfl, fun _ => id⟩
    exact .andThen (holds_assign h h' (.throw h'))

theorem holds_checkpoint {inv : World → Prop} {post : Unit → World → Prop} (hinv : inv w)
    (hpost : post () w) : Holds (machine queriesFail) inv (checkpoint d) post w :=
  .andThen (holds_attempt hinv (.andThen (holds_ensureWritable hinv fun _ =>
    holds_attempt hinv hpost)))

/-- A checkpoint leaves the files of group commits alone, whatever it reports. -/
theorem holds_ignoreCheckpoint {inv : World → Prop} {post : Unit → World → Prop} (hinv : inv w)
    (hpost : post () w) : Holds (machine queriesFail) inv (ignore (checkpoint d)) post w := by
  have h : Holds (machine queriesFail) (fun w' => w' = w) (ignore (checkpoint d)) post w :=
    holds_ignore (holds_checkpoint rfl hpost) fun w' hw => hw ▸ hpost
  exact h.relax fun w' hw => hw ▸ hinv

end Records

/-! ## §6 Ordinary appends -/

section Appends

variable {queriesFail : Prop} {sha256 : Bytes → Digest}

/-- What the root of an append adds to its journal. -/
structure Appended (isProtected : Nat → Prop) (journal : Journal)
    (root : RootReceipt × Option OwnedStore) : Prop where
  free : ¬isProtected root.1.revision
  reached : journal.Reached root.1.revision
  ownedFree : ∀ name ∈ root.1.entry.owned, ¬isProtected name.revision
  ownedReached : ∀ name ∈ root.1.entry.owned, journal.Reached name.revision
  storeFree : ∀ store ∈ root.2, ¬isProtected store.created
  storeReached : ∀ store ∈ root.2, journal.Reached store.created

theorem holds_appendRoot {batch : DeferredAppend} {owned : Option OwnedStore}
    {post : RootReceipt × Option OwnedStore → World → Prop} (h : Inside isProtected d w₀ w)
    (hrefuses : (w.journal d).Refuses isProtected batch.revision)
    (hfree : ∀ store ∈ owned, ¬isProtected store.created)
    (hreached : (w.journal d).poisoned = false → ∀ store ∈ owned,
      (w.journal d).Reached store.created)
    (hpost : ∀ root w', Inside isProtected d w₀ w' → Appended isProtected (w'.journal d) root →
      post root w') :
    Holds (machine queriesFail) (Inside isProtected d w₀) (appendRoot sha256 d batch owned)
      post w := by
  refine .andThen (holds_attempt h ?_)
  refine .andThen (holds_prepareRecipeRevision h hrefuses
    fun w₁ h₁ hjournal₁ hwritable hnew hrevision => ?_)
  refine .andThen (holds_prepareRoot h₁ hrevision hfree
    fun store w₂ h₂ hjournal₂ hstore _ _ => ?_)
  have hsame : w₂.journal d = w.journal d := congrFun (hjournal₂.trans hjournal₁) d
  refine .andThen (holds_appendRecord h₂ fun _ h₃ => ?_)
  refine .andThen (holds_ignoreCheckpoint h₃ (.pure h₃ (hpost _ _ h₃ ?_)))
  rw [setJournal_same, hsame]
  have hstoreFree : ¬isProtected store.created := by
    rcases hstore with hstore | rfl
    · exact hfree store hstore
    · exact hrevision
  have hstoreReached : Journal.Reached { w.journal d with durable := some batch.revision }
      store.created := by
    rcases hstore with hstore | rfl
    · exact (Journal.Grows.record hnew).reached _ (hreached hwritable store hstore)
    · exact ⟨batch.revision, rfl, Nat.le_refl _⟩
  constructor
  · exact hrevision
  · exact ⟨batch.revision, rfl, Nat.le_refl _⟩
  · rintro name ⟨⟩
    exact hstoreFree
  · rintro name ⟨⟩
    exact hstoreReached
  · rintro s ⟨⟩
    exact hstoreFree
  · rintro s ⟨⟩
    exact hstoreReached

/-- An ordinary append keeps to what is not protected. -/
theorem holds_appendNow {batch : DeferredAppend} {post : Unit → World → Prop}
    (h : Inside isProtected d w₀ w)
    (hrefuses : (w₀.journal d).Refuses isProtected batch.revision)
    (hpost : ∀ w', Inside isProtected d w₀ w' → post () w') :
    Holds (machine queriesFail) (Inside isProtected d w₀) (appendNow sha256 d batch) post w := by
  refine .andThen (holds_memory h ?_)
  have h₁ := h.setJournal h.safe.dropStore (.of_eq rfl rfl)
  refine .andThen (holds_assign h h₁ ?_)
  have hjournal : (w.setJournal d { w.journal d with owned := none }).journal d =
      { w.journal d with owned := none } := setJournal_same
  refine .andThen (holds_resultOf (holds_appendRoot h₁ (h₁.grows.refuses hrefuses) h.safe.store ?_
    fun root w₂ h₂ happended => ?_) fun error w₂ h₂ => ?_)
  · rw [hjournal]
    exact fun hwritable store hstore =>
      h.safe.reached hwritable _ (.inr (.inr ⟨store, hstore, rfl⟩))
  · refine .andThen (holds_memory h₂ ?_)
    have hsafe := h₂.safe.setStore happended.storeReached happended.storeFree
    have h₃ := h₂.setJournal hsafe (.of_eq rfl rfl)
    refine .andThen (holds_assign h₂ h₃ (holds_rememberRoot h₃ ?_ hpost))
    rw [setJournal_same]
    refine hsafe.remember (fun hp => absurd hp happended.free)
      (fun name hname hp => absurd hp (happended.ownedFree name hname)) fun _ => ?_
    exact ⟨happended.reached, happended.ownedReached⟩
  · -- The files of the failed revision go again, unless the journal refuses.
    exact .andThen (holds_ignore (holds_prepareRecipeRevision h₂ (h₂.grows.refuses hrefuses)
      fun w' h' _ _ _ _ => .throw h') fun w' h' => .throw h')

theorem holds_flushDeferred {post : Unit → World → Prop} (h : Inside isProtected d w₀ w)
    (hrefuses : ∀ batch ∈ (w.journal d).deferred,
      (w₀.journal d).Refuses isProtected batch.revision)
    (hpost : ∀ w', Inside isProtected d w₀ w' → post () w') :
    Holds (machine queriesFail) (Inside isProtected d w₀) (flushDeferred sha256 d) post w := by
  refine .andThen (holds_memory h ?_)
  cases hdeferred : (w.journal d).deferred with
  | none => exact .pure h (hpost w h)
  | some batch =>
    have h₁ := h.setJournal (h.safe.defer none) (.of_eq rfl rfl)
    exact .andThen (holds_assign h h₁ (holds_appendNow h₁ (hrefuses batch hdeferred) hpost))

end Appends

end Reach

end BareLine.GroupRecovery
