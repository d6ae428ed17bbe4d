import BareLine.SaveTransaction.Shelter

/-!
# Publishing a save

- §1: names that change places.
- §2: `replace_by_rename`.
- §3: `replace_by_exchange`.
- §4: `rewrite_in_place`.
- §5: the publication step.
-/

namespace BareLine.SaveTransaction

open Lib

variable {d d' : Disk} {w w' w₁ : Publishing} {plan : Plan}

/-! ## §1 Names that change places -/

/-- The names that publishing changes. -/
def Movable (name : Name) : Prop := name = .target ∨ name = .stage ∨ name = .entry .displaced

theorem Movable.ne_manifest {name : Name} (h : Movable name) : Name.entry .manifest ≠ name := by
  rcases h with rfl | rfl | rfl <;> decide

theorem Movable.ne_editor {name : Name} (h : Movable name) : Name.entry .editor ≠ name := by
  rcases h with rfl | rfl | rfl <;> decide

theorem Sheltered.moved (h : Sheltered plan w₁) (hsteady : Steady w₁.disk d) (htidy : Tidy d)
    {source destination : Name} {node : Node} (hnode : d.names source = some node)
    (hsource : Movable source) (hdestination : Movable destination)
    (hfree : destination = .target → d.noReplace = true → d.names .target = none)
    (hkept : source = .target → destination = .stage ∨ destination = .entry .displaced)
    (hversion : (w₁.after d (.renameNoReplace source destination) (.ok ())
        (d.moved source destination node)).out = true →
      ∃ found bytes, (w₁.after d (.renameNoReplace source destination) (.ok ())
          (d.moved source destination node)).version = some (found, bytes) ∧
        ((d.moved source destination node).bytesAt (.entry .displaced) = some bytes ∨
          plan.strategy = .transactional ∧
            (d.moved source destination node).bytesAt .stage = some bytes)) :
    Sheltered plan (w₁.after d (.renameNoReplace source destination) (.ok ())
      (d.moved source destination node)) where
  tidy := htidy.moved hnode
  folder := hsteady.folder.trans h.folder
  lease := hsteady.exclusive.trans h.lease
  place := hsteady.place.trans h.place
  manifest := (moved_file_ne hsource.ne_manifest hdestination.ne_manifest).trans
    ((hsteady.file h.tidy (entry_ne_target _)).trans h.manifest)
  editor := (moved_file_ne hsource.ne_editor hdestination.ne_editor).trans
    ((hsteady.file h.tidy (entry_ne_target _)).trans h.editor)
  overwrote hno := by
    have hno : d.noReplace = true := hno
    show (w₁.overwrote || Publishing.loses d (d.moved source destination node)) = false
    rw [loses_moved hnode (fun htarget => hfree htarget hno) hkept, Bool.or_false]
    exact h.overwrote (hsteady.noReplace ▸ hno)
  version := hversion

theorem moved_at {source destination : Name} {node : Node} :
    (d.moved source destination node).bytesAt destination = some (d.object node).bytes := by
  rw [Disk.bytesAt, Disk.file, moved_names, if_pos rfl]
  rfl

/-! ## §2 `replace_by_rename` -/

/-- The operations that put the retained bytes back onto the object, as the disk is when they
are asked. -/
inductive Restores (file : Node) (bytes : Bytes) (d : Disk) : Op → Prop
  | opens : Restores file bytes d (.openAny (.entry .displaced))
  | kind (copy : Node) (h : d.names (.entry .displaced) = some copy) :
      Restores file bytes d (.kind copy)
  | reads (copy : Node) (h : d.names (.entry .displaced) = some copy) :
      Restores file bytes d (.read copy)
  | writes : Restores file bytes d (.write file bytes)
  | cuts (h : (d.object file).bytes.take bytes.length = bytes) :
      Restores file bytes d (.setLen file bytes.length)

/-- The last operation was one that puts the version back, and it was refused. -/
inductive PutBackRefused (strategy : SaveStrategy) (node : Node) (bytes : Bytes)
    (w : Publishing) : Prop
  | renaming (hstrategy : strategy.rewrites = false)
      (hname : w.disk.names (.entry .displaced) = some node)
      (h : RenameRefused (.entry .displaced) .target w)
  | exchanging (hstrategy : strategy = .transactional) (hname : w.disk.names .stage = some node)
      (e : Errno) (earlier : List (Op × Errno))
      (h : w.refused = (.exchange .stage .target, e) :: earlier)
  | restoring (hstrategy : strategy.rewrites = true) (op : Op) (e : Errno)
      (earlier : List (Op × Errno)) (hop : Restores node bytes w.disk op)
      (h : w.refused = (op, e) :: earlier)

/-- What is left of a publication that failed: nothing was displaced, or the version is back, or
the name has an object that is neither the version nor what was staged, or putting the version
back was refused. -/
inductive Withdrawn (strategy : SaveStrategy) (staged : Option Node) (w : Publishing) : Prop
  | untouched (h : w.version = none)
  | back (node : Node) (bytes : Bytes) (hversion : w.version = some (node, bytes))
      (hout : w.out = false) (hbytes : (w.disk.object node).bytes = bytes)
      (hname : strategy.rewrites = false → w.disk.names .target = some node)
  | taken (node : Node) (bytes : Bytes) (hversion : w.version = some (node, bytes))
      (hstrategy : strategy.rewrites = false) (other : Node)
      (hname : w.disk.names .target = some other) (hother : other ≠ node)
      (hstaged : staged ≠ some other)
  | refused (node : Node) (bytes : Bytes) (hversion : w.version = some (node, bytes))
      (h : PutBackRefused strategy node bytes w)

/-- The version a rename took aside. -/
theorem aside_meets (h : Sheltered plan w) :
    Meets Publishing.machine (Sheltered plan) (renameNoReplace .target (.entry .displaced)).run
      (fun r w' => (r = .ok () → At (.entry .displaced) w' ∧
          w'.disk.names .stage = w.disk.names .stage) ∧
        ∀ e, r = .error e → Rests w w') w := by
  refine (renameNoReplace_meets (fun w' => At (.entry .displaced) w' ∧
      w'.disk.names .stage = w.disk.names .stage) h
    (fun d hfolder => show d.hosts (.entry .displaced) = true from hfolder)
    fun w₁ d node hrests hsteady htidy hw₁ hnode _ => ?_).weaken
      fun r w' _ hr => ⟨hr.1, fun e he => (hr.2 e he).1⟩
  have hversion : w₁.versionAfter d (d.moved .target (.entry .displaced) node)
      (.renameNoReplace .target (.entry .displaced)) (.ok ()) =
      (some (node, (d.object node).bytes), true) := by
    show (Publishing.atTarget d, true) = _
    rw [Publishing.atTarget, hnode]
    rfl
  have hat : At (.entry .displaced) (w₁.after d (.renameNoReplace .target (.entry .displaced))
      (.ok ()) (d.moved .target (.entry .displaced) node)) :=
    ⟨node, (d.object node).bytes, congrArg Prod.fst hversion, by
      show (d.moved .target (.entry .displaced) node).names _ = _
      rw [moved_names, if_pos rfl], rfl⟩
  refine ⟨hw₁.moved hsteady htidy hnode (Or.inl rfl) (Or.inr (Or.inr rfl))
    (fun heq => nomatch heq) (fun _ => Or.inr rfl) fun _ => ?_, hat, ?_⟩
  · exact ⟨node, _, congrArg Prod.fst hversion, Or.inl moved_at⟩
  · show (d.moved .target (.entry .displaced) node).names .stage = _
    rw [moved_names, if_neg (stage_ne_entry _), if_neg stage_ne_target,
      hsteady.names _ stage_ne_target, hrests.steady.names _ stage_ne_target]

/-- Moving the stage onto the name, over nothing. -/
theorem stageOnto_meets (h : Sheltered plan w) (hat : At (.entry .displaced) w ∨ w.out = false) :
    Meets Publishing.machine (Sheltered plan) (renameNoReplace .stage .target).run
      (fun r w' => ∀ e, r = .error e → Rests w w') w := by
  refine (renameNoReplace_meets (fun _ => True) h (fun _ _ => rfl)
    fun w₁ d node hrests hsteady htidy hw₁ hnode hfree => ⟨?_, trivial⟩).weaken
      fun r w' _ hr e he => (hr.2 e he).1
  refine hw₁.moved hsteady htidy hnode (Or.inr (Or.inl rfl)) (Or.inl rfl) (fun _ => hfree)
    (fun heq => nomatch heq) fun hout => ?_
  have hout : w₁.out = true := hout
  have hat₁ : At (.entry .displaced) w₁ := by
    rcases hat with hat | hnot
    · exact hat.rests (entry_ne_target _) h.tidy hrests
    · rw [hrests.out, hnot] at hout
      cases hout
  obtain ⟨found, bytes, hversion, hfound, hbytes⟩ := hat₁
  refine ⟨found, bytes, hversion, Or.inl ?_⟩
  have hsame : (d.moved .stage .target node).file (.entry .displaced) =
      w₁.disk.file (.entry .displaced) :=
    (moved_file_ne (by decide) (by decide)).trans (hsteady.file hw₁.tidy (entry_ne_target _))
  rw [Disk.bytesAt, hsame, Disk.file, hfound, Option.map_some, Option.map_some, hbytes]

/-- Putting the version back. -/
theorem putBack_meets (h : Sheltered plan w) (hat : At (.entry .displaced) w)
    (hrenames : plan.strategy.rewrites = false) :
    Meets Publishing.machine (Sheltered plan) (renameNoReplace (.entry .displaced) .target).run
      (fun _ w' => Withdrawn plan.strategy (w.disk.names .stage) w') w := by
  refine (renameNoReplace_meets (fun w' => ∃ node bytes, w'.version = some (node, bytes) ∧
      w'.out = false ∧ (w'.disk.object node).bytes = bytes ∧ w'.disk.names .target = some node)
    h (fun _ _ => rfl) fun w₁ d node hrests hsteady htidy hw₁ hnode hfree => ⟨?_, ?_⟩).weaken ?_
  · exact hw₁.moved hsteady htidy hnode (Or.inr (Or.inr rfl)) (Or.inl rfl) (fun _ => hfree)
      (fun heq => nomatch heq) fun hout => nomatch hout
  · obtain ⟨found, bytes, hversion, hfound, hbytes⟩ := hat.rests (entry_ne_target _) h.tidy hrests
    have heq : found = node := by
      rw [hsteady.names _ (entry_ne_target _), hfound] at hnode
      exact Option.some.inj hnode
    subst heq
    refine ⟨found, bytes, hversion, rfl, ?_, ?_⟩
    · show (d.object found).bytes = bytes
      rw [hsteady.object found (hw₁.tidy.fresh _ _ hfound)]
      exact hbytes
    · show (d.moved (.entry .displaced) .target found).names .target = some found
      rw [moved_names, if_pos rfl]
  · rintro r w' hw' ⟨hok, herror⟩
    cases r with
    | ok _ =>
      obtain ⟨node, bytes, hversion, hout, hbytes, hname⟩ := hok rfl
      exact .back node bytes hversion hout hbytes fun _ => hname
    | error e =>
      obtain ⟨hrests, hrefused⟩ := herror e rfl
      obtain ⟨node, bytes, hversion, hname, -⟩ := hat.rests (entry_ne_target _) h.tidy hrests
      cases hrefused with
      | taken htaken =>
        -- No object has two names: the version is displaced and the staged object at its stage.
        obtain ⟨other, hother⟩ := Option.ne_none_iff_exists'.mp htaken
        refine .taken node bytes hversion hrenames other hother (fun heq => ?_) fun hstaged => ?_
        · rw [heq] at hother
          cases hw'.tidy.apart _ _ _ hother hname
        · rw [← hrests.steady.names _ stage_ne_target] at hstaged
          cases hw'.tidy.apart _ _ _ hother hstaged
      | failed hfailed => exact .refused node bytes hversion (.renaming hrenames hname hfailed)

theorem replaceByRename_meets (h : Sheltered plan w) (hnew : w.version = none)
    (hrenames : plan.strategy.rewrites = false) :
    Meets Publishing.machine (Sheltered plan) replaceByRename.run
      (fun r w' => ∀ e, r = .error e → Withdrawn plan.strategy (w.disk.names .stage) w') w := by
  refine Meets.andThen ((aside_meets h).weaken ?_)
  rintro (e | _) w₁ hw₁ ⟨hok, herror⟩
  · exact fun e' _ => .untouched ((herror e rfl).version.trans hnew)
  · obtain ⟨hat, hstage⟩ := hok rfl
    refine Meets.andThen (Meets.lift ((stageOnto_meets hw₁ (Or.inl hat)).weaken ?_))
    rintro r w₂ hw₂ herror
    show Meets _ _ _ _ w₂
    split
    · exact .pure hw₂ fun e he => nomatch he
    · next e =>
      have hrests := herror e rfl
      have hat₂ := hat.rests (entry_ne_target _) hw₁.tidy hrests
      rw [← hstage, ← hrests.steady.names _ stage_ne_target]
      refine Meets.andThen (Meets.lift ((putBack_meets hw₂ hat₂ hrenames).weaken ?_))
      exact fun r w₃ hw₃ hwithdrawn => .pure hw₃ fun _ _ => hwithdrawn

/-! ## §3 `replace_by_exchange` -/

/-- After an exchange of the stage and the target. -/
def Disk.swapped (d : Disk) (stage target : Node) : Disk :=
  (d.setName .stage (some target)).setName .target (some stage)

theorem swapped_names {stage target : Node} (name : Name) :
    (d.swapped stage target).names name =
      if name = .target then some stage else if name = .stage then some target
      else d.names name := by
  rw [Disk.swapped, Disk.setName_names, Disk.setName_names]

theorem swapped_file_ne {stage target : Node} {name : Name} (ht : name ≠ .target)
    (hs : name ≠ .stage) : (d.swapped stage target).file name = d.file name := by
  rw [Disk.swapped, file_setName_ne ht, file_setName_ne hs]

theorem Tidy.swapped (h : Tidy d) {stage target : Node} (hstage : d.names .stage = some stage)
    (htarget : d.names .target = some target) : Tidy (d.swapped stage target) where
  fresh name node hnode := by
    rw [swapped_names] at hnode
    split at hnode
    · cases hnode
      exact h.fresh _ _ hstage
    · split at hnode
      · cases hnode
        exact h.fresh _ _ htarget
      · exact h.fresh name node hnode
  apart a b node ha hb := by
    have hcase (name : Name) (hname : (d.swapped stage target).names name = some node) :
        ∃ other, d.names other = some node ∧ (other = .stage ∧ name = .target ∨
          other = .target ∧ name = .stage ∨ other = name ∧ name ≠ .target ∧ name ≠ .stage) := by
      rw [swapped_names] at hname
      split at hname
      · next heq => cases hname; exact ⟨_, hstage, Or.inl ⟨rfl, heq⟩⟩
      · next hnt =>
        split at hname
        · next heq => cases hname; exact ⟨_, htarget, Or.inr (Or.inl ⟨rfl, heq⟩)⟩
        · next hns => exact ⟨_, hname, Or.inr (Or.inr ⟨rfl, hnt, hns⟩)⟩
    obtain ⟨a', ha', hcasea⟩ := hcase a ha
    obtain ⟨b', hb', hcaseb⟩ := hcase b hb
    have hsame := h.apart a' b' node ha' hb'
    subst hsame
    rcases hcasea with ⟨rfl, rfl⟩ | ⟨rfl, rfl⟩ | ⟨rfl, hat, has⟩ <;>
      rcases hcaseb with ⟨hb1, hb2⟩ | ⟨hb1, hb2⟩ | ⟨hb1, hb2, hb3⟩ <;> simp_all

theorem loses_swapped {stage target : Node} (htarget : d.names .target = some target) :
    Publishing.loses d (d.swapped stage target) = false := by
  unfold Publishing.loses
  rw [htarget]
  simp [swapped_names]

theorem exchange_meets (post : Publishing → Prop) (h : Sheltered plan w)
    (hswap : ∀ d stage target, Steady w.disk d → Tidy d → d.names .stage = some stage →
      d.names .target = some target →
      (∀ node bytes, (w.after d (.exchange .stage .target) (.ok ())
          (d.swapped stage target)).out = true →
        (w.after d (.exchange .stage .target) (.ok ()) (d.swapped stage target)).version =
          some (node, bytes) → bytes = (d.object target).bytes ∧ plan.strategy = .transactional) ∧
      post (w.after d (.exchange .stage .target) (.ok ()) (d.swapped stage target))) :
    Meets Publishing.machine (Sheltered plan) (use (.exchange .stage .target)).run
      (fun r w' => (r = .ok () → post w') ∧ ∀ e, r = .error e → Rests w w' ∧
        w'.refused = (.exchange .stage .target, e) :: w.refused) w := by
  refine Meets.act h h.tidy fun d answer d' hsteady htidy hperforms => ?_
  have herror (e : Errno) (hanswer : answer = .error e) (hd : d' = d) :
      Sheltered plan (w.after d (.exchange .stage .target) answer d') ∧
        ((answer = .ok () → post (w.after d (.exchange .stage .target) answer d')) ∧
        ∀ e, answer = .error e → Rests w (w.after d (.exchange .stage .target) answer d') ∧
          (w.after d (.exchange .stage .target) answer d').refused =
            (.exchange .stage .target, e) :: w.refused) := by
    subst hanswer hd
    have hrests : Rests w (w.after d' (.exchange .stage .target) (.error e) d') := by
      refine ⟨hsteady, rfl, rfl, ?_⟩
      show (w.overwrote || Publishing.loses d' d') = _
      rw [loses_same rfl, Bool.or_false]
    refine ⟨h.rests hrests htidy, fun hok => (by cases hok), fun e' he => ?_⟩
    cases he
    exact ⟨hrests, rfl⟩
  rcases hperforms with hdoes | ⟨-, -, e, -, hanswer, hd | ⟨node, bytes, k, hop, -⟩⟩
  · simp only [Disk.does] at hdoes
    split at hdoes
    · cases hdoes; exact herror _ rfl rfl
    · split at hdoes
      · next stage target hstage htarget =>
        cases hdoes
        obtain ⟨hversion, hpost⟩ := hswap d stage target hsteady htidy hstage htarget
        refine ⟨⟨htidy.swapped hstage htarget, hsteady.folder.trans h.folder,
          hsteady.exclusive.trans h.lease, hsteady.place.trans h.place, ?_, ?_, fun hno => ?_,
          fun hout => ?_⟩, fun _ => hpost, fun _ he => (by cases he)⟩
        · exact (swapped_file_ne (by decide) (by decide)).trans
            ((hsteady.file h.tidy (entry_ne_target _)).trans h.manifest)
        · exact (swapped_file_ne (by decide) (by decide)).trans
            ((hsteady.file h.tidy (entry_ne_target _)).trans h.editor)
        · show (w.overwrote || Publishing.loses d (d.swapped stage target)) = false
          rw [loses_swapped htarget, Bool.or_false]
          exact h.overwrote (hsteady.noReplace ▸ hno)
        · have hsome : (w.after d (.exchange .stage .target) (.ok ())
              (d.swapped stage target)).version = some (target, (d.object target).bytes) := by
            have hwas : w.out = false := by
              by_contra hwas
              have hgone : (w.versionAfter d (d.swapped stage target) (.exchange .stage .target)
                  (.ok ())).2 = false := by
                show (if w.out = true then (w.version, false)
                  else (Publishing.atTarget d, true)).2 = false
                rw [if_pos (Bool.not_eq_false _ ▸ hwas)]
              cases hgone.symm.trans hout
            show (if w.out = true then (w.version, false)
              else (Publishing.atTarget d, true)).1 = _
            rw [hwas, if_neg (fun h => (by cases h)), Publishing.atTarget, htarget]
            rfl
          have hstrategy := (hversion _ _ hout hsome).2
          refine ⟨_, _, hsome, Or.inr ⟨hstrategy, ?_⟩⟩
          show (d.swapped stage target).bytesAt .stage = _
          rw [Disk.bytesAt, Disk.file, swapped_names, if_neg (by decide), if_pos rfl]
          rfl
      · cases hdoes; exact herror _ rfl rfl
  · exact herror e hanswer hd
  · cases hop

theorem replaceByExchange_meets (h : Sheltered plan w) (hnew : w.version = none)
    (hout : w.out = false) (hstrategy : plan.strategy = .transactional) :
    Meets Publishing.machine (Sheltered plan) replaceByExchange.run
      (fun r w' => ∀ e, r = .error e → Withdrawn plan.strategy (w.disk.names .stage) w') w := by
  have hrenames : plan.strategy.rewrites = false := by rw [hstrategy]; rfl
  refine Meets.andThen (Meets.lift ((exchange_meets (fun w' => w'.out = true ∧ At .stage w') h
    fun d stage target hsteady htidy hstage htarget => ⟨fun node bytes _ hversion => ?_, ?_⟩).weaken
      ?_))
  · have hwas : (w.after d (.exchange .stage .target) (.ok ()) (d.swapped stage target)).version =
        Publishing.atTarget d := by
      show (if w.out = true then (w.version, false) else (Publishing.atTarget d, true)).1 = _
      rw [hout, if_neg (fun h => nomatch h)]
    rw [hwas, Publishing.atTarget, htarget] at hversion
    cases hversion
    exact ⟨rfl, hstrategy⟩
  · have hwas : w.versionAfter d (d.swapped stage target) (.exchange .stage .target) (.ok ()) =
        (some (target, (d.object target).bytes), true) := by
      show (if w.out = true then (w.version, false) else (Publishing.atTarget d, true)) = _
      rw [hout, if_neg (fun h => nomatch h), Publishing.atTarget, htarget]
      rfl
    refine ⟨congrArg Prod.snd hwas, target, _, congrArg Prod.fst hwas, ?_, rfl⟩
    show (d.swapped stage target).names .stage = some target
    rw [swapped_names, if_neg (by decide), if_pos rfl]
  rintro r w₁ hw₁ ⟨hok, herror⟩
  show Meets _ _ _ _ w₁
  split
  · -- Without an exchange the stage is renamed over the target.
    obtain ⟨hrests, -⟩ := herror _ rfl
    rw [← hrests.steady.names _ stage_ne_target]
    refine Meets.andThen ((replaceByRename_meets hw₁ (hrests.version.trans hnew)
      hrenames).weaken ?_)
    rintro (e | _) w₂ hw₂ herror₂
    · exact fun e' _ => herror₂ e rfl
    · exact .pure hw₂ fun e he => nomatch he
  · next e _ =>
    exact .pure hw₁ fun e' _ => .untouched ((herror e rfl).1.version.trans hnew)
  · -- The version is under the name of the stage now, and gets one of its own.
    obtain ⟨hout₁, hat₁⟩ := hok rfl
    have hmove : Meets Publishing.machine (Sheltered plan)
        (renameNoReplace .stage (.entry .displaced)).run
        (fun r w' => ∀ e, r = .error e → Rests w₁ w') w₁ := by
      refine (renameNoReplace_meets (fun _ => True) hw₁
        (fun d hfolder => show d.hosts (.entry .displaced) = true from hfolder)
        fun w₂ d node hrests hsteady htidy hw₂ hnode _ => ⟨?_, trivial⟩).weaken
          fun r w' _ hr e he => (hr.2 e he).1
      refine hw₂.moved hsteady htidy hnode (Or.inr (Or.inl rfl)) (Or.inr (Or.inr rfl))
        (fun heq => nomatch heq) (fun heq => nomatch heq) fun _ => ?_
      obtain ⟨found, bytes, hversion, hfound, hbytes⟩ :=
        hat₁.rests stage_ne_target hw₁.tidy hrests
      have heq : found = node := by
        rw [hsteady.names _ stage_ne_target, hfound] at hnode
        exact Option.some.inj hnode
      subst heq
      refine ⟨found, bytes, hversion, Or.inl ?_⟩
      rw [moved_at, hsteady.object found (hw₂.tidy.fresh _ _ hfound), hbytes]
    refine Meets.andThen (Meets.lift (hmove.weaken ?_))
    rintro r w₂ hw₂ herror₂
    show Meets _ _ _ _ w₂
    split
    · exact .pure hw₂ fun e he => nomatch he
    · next e =>
      -- It got none, so the names are exchanged back.
      have hrests := herror₂ e rfl
      have hout₂ : w₂.out = true := hrests.out.trans hout₁
      obtain ⟨node, bytes, hversion, hnode, hbytes⟩ := hat₁.rests stage_ne_target hw₁.tidy hrests
      refine Meets.andThen (Meets.lift ((exchange_meets (fun w' =>
        Withdrawn plan.strategy (w.disk.names .stage) w') hw₂ fun d stage target hsteady htidy hstage htarget =>
          ⟨fun _ _ hback => ?_, ?_⟩).weaken ?_))
      · have hgone : (w₂.after d (.exchange .stage .target) (.ok ())
            (d.swapped stage target)).out = false := by
          show (if w₂.out = true then (w₂.version, false) else (Publishing.atTarget d, true)).2 = _
          rw [if_pos hout₂]
        exact nomatch hgone.symm.trans hback
      · have hkept : w₂.versionAfter d (d.swapped stage target) (.exchange .stage .target) (.ok ()) =
            (some (node, bytes), false) := by
          show (if w₂.out = true then (w₂.version, false) else (Publishing.atTarget d, true)) = _
          rw [if_pos hout₂, hversion]
        have heq : node = stage := by
          rw [hsteady.names _ stage_ne_target, hnode] at hstage
          exact Option.some.inj hstage
        subst heq
        refine .back node bytes (congrArg Prod.fst hkept) (congrArg Prod.snd hkept) ?_ fun _ => ?_
        · show (d.object node).bytes = bytes
          rw [hsteady.object node (hw₂.tidy.fresh _ _ hnode)]
          exact hbytes
        · show (d.swapped node target).names .target = some node
          rw [swapped_names, if_pos rfl]
      · rintro r w₃ hw₃ ⟨hok₃, herror₃⟩
        refine .pure hw₃ fun _ _ => ?_
        cases r with
        | ok _ => exact hok₃ rfl
        | error e₃ =>
          obtain ⟨hrests₃, hrefused⟩ := herror₃ e₃ rfl
          refine .refused node bytes (hrests₃.version.trans hversion) ?_
          exact .exchanging hstrategy ((hrests₃.steady.names _ stage_ne_target).trans hnode) e₃ _
            hrefused

end BareLine.SaveTransaction
