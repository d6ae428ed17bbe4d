import BareLine.SaveTransaction.Publication

/-!
# Rewriting the target in place

- §1: the account of an in-place save.
- §2: changing the object of the target.
- §3: `rewrite`.
- §4: the retained copy.
- §5: `rewrite_in_place`.
-/

namespace BareLine.SaveTransaction

open Lib

variable {d d' : Disk} {w w' : Publishing} {plan : Plan} {file source : Node} {bytes : Bytes}

/-! ## §1 The account of an in-place save -/

/-- The object that was opened under the target name; it may have lost that name since. -/
structure Opened (file : Node) (w : Publishing) : Prop where
  known : file < w.disk.fresh
  apart : ∀ name, name ≠ .target → w.disk.names name ≠ some file

theorem Opened.rests (h : Opened file w) (hw : Rests w w') : Opened file w' where
  known := Nat.lt_of_lt_of_le h.known hw.steady.fresh
  apart name hname := by
    rw [hw.steady.names name hname]
    exact h.apart name hname

/-- The displaced entry has what the object held before. -/
structure Retained (file : Node) (bytes : Bytes) (w : Publishing) : Prop where
  opened : Opened file w
  copy : w.disk.file (.entry .displaced) = some ⟨.regular, bytes⟩
  version : w.version = none ∧ (w.disk.object file).bytes = bytes ∨ w.version = some (file, bytes)
  out : w.out = ((w.disk.object file).bytes != bytes)

theorem Retained.rests (h : Retained file bytes w) (htidy : Tidy w.disk) (hw : Rests w w') :
    Retained file bytes w' where
  opened := h.opened.rests hw
  copy := (hw.steady.file htidy (entry_ne_target _)).trans h.copy
  version := by
    rw [hw.version, hw.steady.object file h.opened.known]
    exact h.version
  out := by
    rw [hw.out, hw.steady.object file h.opened.known]
    exact h.out

/-! ## §2 Changing the object of the target -/

/-- The operations that change an object. -/
def Changes (file : Node) (op : Op) : Prop :=
  (∃ content, op = .write file content) ∨ ∃ length, op = .setLen file length

theorem setBytes_same (d : Disk) (node : Node) : d.setBytes node (d.object node).bytes = d := by
  have : ({ d.object node with bytes := (d.object node).bytes } : Object) = d.object node := rfl
  rw [Disk.setBytes, this, Function.update_eq_self]

theorem Opened.foreign (h : Opened file w) (hsteady : Steady w.disk d) :
    Publishing.foreignTo d file = true := by
  rw [Publishing.foreignTo, List.all_eq_true]
  intro entry _
  rw [hsteady.names _ (entry_ne_target entry), bne_iff_ne]
  exact h.apart _ (entry_ne_target entry)

/-- What the account says after a change. -/
theorem Retained.account (h : Retained file bytes w) (hsteady : Steady w.disk d) (d' : Disk) {op : Op}
    (answer : op.Answer) (hop : Changes file op) :
    w.versionAfter d d' op answer =
      (some (file, bytes), (d'.object file).bytes != bytes) := by
  have hversion : w.version.getD (file, (d.object file).bytes) = (file, bytes) := by
    rw [hsteady.object file h.opened.known]
    rcases h.version with ⟨hnone, hsame⟩ | hsome
    · rw [hnone, Option.getD_none, hsame]
    · rw [hsome, Option.getD_some]
  have hforeign := h.opened.foreign hsteady
  rcases hop with ⟨content, rfl⟩ | ⟨length, rfl⟩
  · show (if Publishing.foreignTo d file then _ else _) = _
    rw [if_pos hforeign, hversion]
  · show (if Publishing.foreignTo d file then _ else _) = _
    rw [if_pos hforeign, hversion]

/-- The version stays in the displaced entry, whatever the object holds now. -/
theorem Retained.changed (h : Sheltered plan w) (hk : Retained file bytes w) (hsteady : Steady w.disk d)
    (htidy : Tidy d) {op : Op} (answer : op.Answer) (hop : Changes file op) (content : Bytes) :
    Sheltered plan (w.after d op answer (d.setBytes file content)) ∧
      Retained file bytes (w.after d op answer (d.setBytes file content)) := by
  have haccount := hk.account hsteady (d.setBytes file content) answer hop
  have hversion : (w.after d op answer (d.setBytes file content)).version = some (file, bytes) :=
    congrArg Prod.fst haccount
  have hfile {entry : Entry} : (d.setBytes file content).file (.entry entry) =
      w.disk.file (.entry entry) := by
    refine (file_setBytes_ne ?_ content).trans (hsteady.file h.tidy (entry_ne_target entry))
    rw [hsteady.names _ (entry_ne_target entry)]
    exact hk.opened.apart _ (entry_ne_target entry)
  have hcopy := hfile.trans hk.copy
  have hloses : Publishing.loses d (d.setBytes file content) = false :=
    loses_same (Disk.setBytes_names d file content)
  refine ⟨?_, ?_⟩
  · exact {
      tidy := htidy.same (Disk.setBytes_names d file content) (Disk.setBytes_fresh d file content)
      folder := hsteady.folder.trans h.folder
      lease := hsteady.exclusive.trans h.lease
      place := hsteady.place.trans h.place
      manifest := hfile.trans h.manifest
      editor := hfile.trans h.editor
      overwrote := fun hno => by
        show (w.overwrote || Publishing.loses d (d.setBytes file content)) = false
        rw [hloses, Bool.or_false]
        exact h.overwrote (hsteady.noReplace ▸ hno)
      version := fun _ => ⟨file, bytes, hversion, Or.inl (by
        show (d.setBytes file content).bytesAt (.entry .displaced) = some bytes
        rw [Disk.bytesAt, hcopy, Option.map_some])⟩ }
  · exact {
      opened := ⟨Nat.lt_of_lt_of_le hk.opened.known hsteady.fresh, fun name hname => by
        show d.names name ≠ some file
        rw [hsteady.names name hname]
        exact hk.opened.apart name hname⟩
      copy := hcopy
      version := Or.inr hversion
      out := congrArg Prod.snd haccount }

/-- A write, or the length set: the object holds a part of it where that write failed. -/
theorem change_meets {op : Op} (h : Sheltered plan w) (hk : Retained file bytes w)
    (hop : Changes file op) (content : Bytes)
    (hdoes : ∀ d : Disk, d.object file = w.disk.object file →
      ∃ answer, d.does op = (answer, d.setBytes file content) ∧ ∀ e, answer ≠ .error e) :
    Meets Publishing.machine (Sheltered plan) (use op).run (fun r w' => Retained file bytes w' ∧
      (∀ a, r = .ok a → (w'.disk.object file).bytes = content) ∧
      ∀ e, r = .error e → w'.refused = (op, e) :: w.refused ∧
        ((∃ length, op = .setLen file length) →
          (w'.disk.object file).bytes = (w.disk.object file).bytes)) w := by
  refine Meets.act h h.tidy fun d answer d' hsteady htidy hperforms => ?_
  have hfound := hsteady.object file hk.opened.known
  have hrefused (e : Errno) (he : answer = .error e) :
      (w.after d op answer d').refused = (op, e) :: w.refused := by
    subst he
    rfl
  obtain ⟨content', rfl, hcontent, hsame⟩ : ∃ content', d' = d.setBytes file content' ∧
      (∀ a, answer = .ok a → content' = content) ∧
      ((∃ length, op = .setLen file length) → ∀ e, answer = .error e →
        content' = (d.object file).bytes) := by
    rcases hperforms with hdone | ⟨-, -, e, -, hanswer, rfl | ⟨node, bytes', k, heq, rfl⟩⟩
    · obtain ⟨_, hvalue, hsound⟩ := hdoes d hfound
      have hpair := hdone.trans hvalue
      refine ⟨content, congrArg Prod.snd hpair, fun _ _ => rfl, fun _ e he => ?_⟩
      exact absurd ((congrArg Prod.fst hpair).symm.trans he) (hsound e)
    · refine ⟨_, (setBytes_same d' file).symm, fun a ha => ?_, fun _ _ _ => rfl⟩
      cases ha.symm.trans hanswer
    · have hnode : node = file := by
        rcases hop with ⟨_, hwrite⟩ | ⟨_, hset⟩
        · exact (Op.write.inj (heq.symm.trans hwrite)).1
        · cases heq.symm.trans hset
      subst hnode
      refine ⟨_, rfl, fun a ha => ?_, fun hset => ?_⟩
      · cases ha.symm.trans hanswer
      · obtain ⟨_, hset⟩ := hset
        cases heq.symm.trans hset
  obtain ⟨hsheltered, hkept⟩ := hk.changed h hsteady htidy answer hop content'
  have hholds : ((w.after d op answer (d.setBytes file content')).disk.object file).bytes =
      content' := by
    show ((d.setBytes file content').object file).bytes = content'
    rw [Disk.setBytes_object, if_pos rfl]
  refine ⟨hsheltered, hkept, fun a ha => hholds.trans (hcontent a ha), fun e he => ?_⟩
  refine ⟨hrefused e he, fun hset => ?_⟩
  rw [hholds, hsame hset e he, hfound]

/-! ## §3 `rewrite` -/

/-- What a rewrite of the object is used for: it holds what the source held, or one of the
operations was refused. -/
def Rewritten (file source : Node) (wanted : Bytes) (w w' : Publishing) : Prop :=
  (w'.disk.object file).bytes = wanted ∨ ∃ op e earlier, w'.refused = (op, e) :: earlier ∧
    (op = .read source ∧ Rests w w' ∨ op = .write file wanted ∨
      op = .setLen file wanted.length ∧ (w'.disk.object file).bytes.take wanted.length = wanted)

theorem rewrite_meets (h : Sheltered plan w) (hk : Retained file bytes w) :
    Meets Publishing.machine (Sheltered plan) (rewrite file source).run
      (fun _ w' => Retained file bytes w' ∧ (source < w.disk.fresh →
        Rewritten file source (w.disk.object source).bytes w w')) w := by
  refine Meets.andThen ((Sheltered.look (show Op.idle (.read source) from trivial) h).weaken ?_)
  rintro (e | found) w₁ hw₁ ⟨h₁, -, hread, hrefused⟩
  · exact ⟨hk.rests h.tidy h₁, fun _ => Or.inr ⟨_, e, _, hrefused e rfl, Or.inl ⟨rfl, h₁⟩⟩⟩
  have hk₁ := hk.rests h.tidy h₁
  have hwanted (hknown : source < w.disk.fresh) : (w.disk.object source).bytes = found := by
    rcases hread found rfl with hop | hvalue
    · cases hop
    · simp only [Disk.does] at hvalue
      split at hvalue
      · cases hvalue
      · cases hvalue
        rw [h₁.steady.object source hknown]
  suffices hsuffices : Meets Publishing.machine (Sheltered plan) (ExceptT.run do
      use (.write file found)
      use (.setLen file found.length)
      use .sync) (fun _ w' => Retained file bytes w' ∧ Rewritten file source found w w') w₁ by
    refine hsuffices.weaken fun r w' _ hpost => ⟨hpost.1, fun hknown => ?_⟩
    rw [hwanted hknown]
    exact hpost.2
  -- The write puts the new bytes in front, and the length cuts what is left of the old ones.
  refine Meets.andThen ((change_meets hw₁ hk₁ (Or.inl ⟨found, rfl⟩)
    (Disk.overwritten (w₁.disk.object file).bytes found)
    fun d hd => ⟨.ok (), by rw [← hd]; rfl, fun e he => (by cases he)⟩).weaken ?_)
  rintro (e | _) w₂ hw₂ ⟨hk₂, hwritten, herror⟩
  · exact ⟨hk₂, Or.inr ⟨_, e, _, (herror e rfl).1, Or.inr (Or.inl rfl)⟩⟩
  have hcut : ((w₂.disk.object file).bytes).take found.length = found := by
    rw [hwritten () rfl, Disk.overwritten, List.take_left]
  refine Meets.andThen ((change_meets hw₂ hk₂ (Or.inr ⟨found.length, rfl⟩) found
    fun d hd => ⟨.ok (), by
      show (_, d.setBytes file ((d.object file).bytes.take found.length)) = _
      rw [hd, hcut], fun e he => (by cases he)⟩).weaken ?_)
  rintro (e | _) w₃ hw₃ ⟨hk₃, hset, herror₃⟩
  · obtain ⟨hrefused₃, hsame⟩ := herror₃ e rfl
    refine ⟨hk₃, Or.inr ⟨_, e, _, hrefused₃, Or.inr (Or.inr ⟨rfl, ?_⟩)⟩⟩
    rw [hsame ⟨_, rfl⟩, hcut]
  -- The object holds the bytes already; only their flush can fail now.
  refine (Sheltered.look (show Op.idle .sync from trivial) hw₃).weaken ?_
  rintro r w₄ hw₄ ⟨h₄, -, -, -⟩
  refine ⟨hk₃.rests hw₃.tidy h₄, Or.inl ?_⟩
  rw [h₄.steady.object file hk₃.opened.known, hset () rfl]

/-- The proposed bytes onto the object. -/
theorem rewriteStage_meets (h : Sheltered plan w) (hk : Retained file bytes w) :
    Meets Publishing.machine (Sheltered plan) (rewriteFrom file (use (.openAny .stage))).run
      (fun _ w' => Retained file bytes w') w := by
  refine Meets.andThen ((Sheltered.look (show Op.idle (.openAny .stage) from trivial) h).weaken ?_)
  rintro (e | source) w₁ hw₁ ⟨h₁, -, -, -⟩
  · exact hk.rests h.tidy h₁
  exact (rewrite_meets hw₁ (hk.rests h.tidy h₁)).weaken fun _ _ _ hpost => hpost.1

/-- The retained bytes back onto the object: it holds them again, or one of the operations that
restore it was refused. -/
theorem rewriteBack_meets (h : Sheltered plan w) (hk : Retained file bytes w) :
    Meets Publishing.machine (Sheltered plan)
      (rewriteFrom file (openRegular (.entry .displaced))).run
      (fun _ w' => Retained file bytes w' ∧ ((w'.disk.object file).bytes = bytes ∨
        ∃ op e earlier, w'.refused = (op, e) :: earlier ∧ Restores file bytes w'.disk op)) w := by
  obtain ⟨copy, hname, hobject⟩ := names_of_file hk.copy
  refine Meets.andThen (Meets.andThen ((Sheltered.look
    (show Op.idle (.openAny (.entry .displaced)) from trivial) h).weaken ?_))
  rintro (e | found) w₁ hw₁ ⟨h₁, -, hopen, hrefused⟩
  · exact ⟨hk.rests h.tidy h₁, Or.inr ⟨_, e, _, hrefused e rfl, .opens⟩⟩
  have hk₁ := hk.rests h.tidy h₁
  have hname₁ := (h₁.steady.names _ (entry_ne_target .displaced)).trans hname
  have hcopy : found = copy := by
    rcases hopen found rfl with hop | hvalue
    · cases hop
    · simp only [Disk.does, hname₁] at hvalue
      exact (Except.ok.inj hvalue).symm
  subst hcopy
  have hknown := h.tidy.fresh _ _ hname
  have hobject₁ := (h₁.steady.object found hknown).trans hobject
  refine Meets.andThen ((Sheltered.look (show Op.idle (.kind found) from trivial) hw₁).weaken ?_)
  rintro (e | kind) w₂ hw₂ ⟨h₂, -, hkind, hrefused₂⟩
  · refine ⟨hk₁.rests hw₁.tidy h₂, Or.inr ⟨_, e, _, hrefused₂ e rfl, .kind found ?_⟩⟩
    exact (h₂.steady.names _ (entry_ne_target _)).trans hname₁
  have hknown₁ := Nat.lt_of_lt_of_le hknown h₁.steady.fresh
  have hobject₂ := (h₂.steady.object found hknown₁).trans hobject₁
  have hregular : kind = .regular := by
    rcases hkind kind rfl with hop | hvalue
    · cases hop
    · simp only [Disk.does, hobject₂] at hvalue
      exact (Except.ok.inj hvalue).symm
  refine Meets.refuse hw₂ (fun hnot => absurd hregular hnot) fun _ => ?_
  refine Meets.pure hw₂ ?_
  refine (rewrite_meets hw₂ (hk₁.rests hw₁.tidy h₂)).weaken ?_
  rintro r w₃ hw₃ ⟨hk₃, hrewritten⟩
  have hrewritten := hrewritten (Nat.lt_of_lt_of_le hknown₁ h₂.steady.fresh)
  rw [hobject₂] at hrewritten
  rcases hrewritten with hbytes | ⟨op, e, earlier, hrefused₃, hop⟩
  · exact ⟨hk₃, Or.inl hbytes⟩
  refine ⟨hk₃, Or.inr ⟨op, e, earlier, hrefused₃, ?_⟩⟩
  rcases hop with ⟨rfl, h₃⟩ | rfl | ⟨rfl, hcut⟩
  · refine .reads found ((h₃.steady.names _ (entry_ne_target _)).trans ?_)
    exact (h₂.steady.names _ (entry_ne_target _)).trans hname₁
  · exact .writes
  · exact .cuts hcut

/-! ## §4 The retained copy -/

/-- The copy is complete before the object changes. -/
theorem retain_meets (h : Sheltered plan w) (hopened : Opened file w) (hnew : w.version = none)
    (hout : w.out = false) :
    Meets Publishing.machine (Sheltered plan) (retain file).run (fun r w' =>
      (r = .ok () → ∃ bytes, Retained file bytes w') ∧ ∀ e, r = .error e → w'.version = none) w := by
  refine Meets.andThen ((Meets.create h h.tidy
    (fun node w₁ hborn => h.born (by decide) (by decide) hborn)
    fun w₁ h₁ htidy => h.rests h₁ htidy).weaken ?_)
  rintro (e | copy) w₁ hw₁ ⟨hok, herror⟩
  · exact ⟨fun hok => (nomatch hok), fun e' he => (herror e rfl).1.version.trans hnew⟩
  have hborn := hok copy rfl
  have hopened₁ : Opened file w₁ := by
    refine ⟨Nat.lt_of_lt_of_le hopened.known hborn.fresh, fun name hname heq => ?_⟩
    by_cases hd : name = .entry .displaced
    · rw [hd, hborn.name] at heq
      exact absurd (Option.some.inj heq)
        (Nat.ne_of_gt (Nat.lt_of_lt_of_le hopened.known hborn.new))
    · rw [hborn.names name hname hd] at heq
      exact hopened.apart name hname heq
  have hnew₁ := hborn.version.trans hnew
  refine Meets.andThen ((Sheltered.look (show Op.idle (.read file) from trivial) hw₁).weaken ?_)
  rintro (e | bytes) w₂ hw₂ ⟨h₂, -, hread, -⟩
  · exact ⟨fun hok => (nomatch hok), fun _ _ => h₂.version.trans hnew₁⟩
  have hopened₂ := hopened₁.rests h₂
  have hname₂ : w₂.disk.names (.entry .displaced) = some copy :=
    (h₂.steady.names _ (entry_ne_target _)).trans hborn.name
  have hobject₂ : w₂.disk.object copy = ⟨.regular, []⟩ :=
    (h₂.steady.object copy (hw₁.tidy.fresh _ _ hborn.name)).trans hborn.object
  have hnew₂ := h₂.version.trans hnew₁
  have hout₂ : w₂.out = false := (h₂.out.trans hborn.out).trans hout
  have hbytes : (w₂.disk.object file).bytes = bytes := by
    rcases hread bytes rfl with hop | hvalue
    · cases hop
    · simp only [Disk.does] at hvalue
      split at hvalue
      · cases hvalue
      · exact Except.ok.inj hvalue
  refine Meets.andThen ((Meets.writeEntry bytes hw₂ hw₂.tidy hname₂ fun w₃ hedits =>
    hw₂.edits (by decide) (by decide) (fun _ => hout₂) hname₂ hedits).weaken ?_)
  rintro (e | _) w₃ hw₃ ⟨hedits, hwritten, -⟩
  · exact ⟨fun hok => (nomatch hok), fun _ _ => hedits.version.trans hnew₂⟩
  have hne : file ≠ copy := fun heq => hopened₂.apart _ (entry_ne_target _) (heq ▸ hname₂)
  have hfile : w₃.disk.object file = w₂.disk.object file :=
    hedits.objects file hopened₂.known hne
  have hcopied : (w₃.disk.object copy).bytes = bytes := hwritten rfl (by rw [hobject₂])
  have hkind : (w₃.disk.object copy).kind = .regular := by
    rw [hedits.kind (hw₂.tidy.fresh _ _ hname₂), hobject₂]
  have hkept : Retained file bytes w₃ := by
    refine ⟨⟨Nat.lt_of_lt_of_le hopened₂.known hedits.fresh, fun name hname => ?_⟩, ?_,
      Or.inl ⟨hedits.version.trans hnew₂, ?_⟩, ?_⟩
    · rw [hedits.names name hname]
      exact hopened₂.apart name hname
    · rw [Disk.file, hedits.names _ (entry_ne_target _), hname₂, Option.map_some, ← hkind,
        ← hcopied]
    · rw [hfile, hbytes]
    · rw [hedits.out, hout₂, hfile, hbytes, bne_self_eq_false]
  refine (Sheltered.look (show Op.idle .sync from trivial) hw₃).weaken ?_
  rintro r w₄ hw₄ ⟨h₄, -, -, -⟩
  exact ⟨fun _ => ⟨bytes, hkept.rests hw₃.tidy h₄⟩, fun _ _ => by
    rw [h₄.version, hedits.version, hnew₂]⟩

/-! ## §5 `rewrite_in_place` -/

/-- A failed rewrite leaves the object as it was, unless restoring it failed. -/
theorem rewriteInPlace_meets (h : Sheltered plan w) (hnew : w.version = none)
    (hout : w.out = false) (hrewrites : plan.strategy.rewrites = true) :
    Meets Publishing.machine (Sheltered plan) rewriteInPlace.run
      (fun r w' => ∀ e, r = .error e → Withdrawn plan.strategy (w.disk.names .stage) w') w := by
  refine Meets.andThen ((Sheltered.look (show Op.idle (.openAny .target) from trivial) h).weaken ?_)
  rintro (e | file) w₁ hw₁ ⟨h₁, -, hopen, -⟩
  · exact fun _ _ => .untouched (h₁.version.trans hnew)
  have hname : w₁.disk.names .target = some file := by
    rcases hopen file rfl with hop | hvalue
    · cases hop
    · simp only [Disk.does] at hvalue
      split at hvalue
      · next node hnode => rw [hnode, Except.ok.inj hvalue]
      · cases hvalue
  have hopened : Opened file w₁ := ⟨hw₁.tidy.fresh _ _ hname, fun name hne heq =>
    hne (hw₁.tidy.apart _ _ _ heq hname)⟩
  refine Meets.andThen ((Sheltered.look (show Op.idle (.kind file) from trivial) hw₁).weaken ?_)
  rintro (e | kind) w₂ hw₂ ⟨h₂, -, -, -⟩
  · exact fun _ _ => .untouched ((h₂.version.trans h₁.version).trans hnew)
  have hnew₂ := (h₂.version.trans h₁.version).trans hnew
  have hout₂ := (h₂.out.trans h₁.out).trans hout
  refine Meets.refuse hw₂ (fun _ _ _ => .untouched hnew₂) fun _ => ?_
  refine Meets.andThen ((retain_meets hw₂ (hopened.rests h₂) hnew₂ hout₂).weaken ?_)
  rintro (e | _) w₃ hw₃ ⟨hretained, herror⟩
  · exact fun _ _ => .untouched (herror e rfl)
  obtain ⟨bytes, hkept⟩ := hretained rfl
  refine Meets.andThen (Meets.lift ((rewriteStage_meets hw₃ hkept).weaken ?_))
  intro r w₄ hw₄ hkept₄
  show Meets _ _ _ _ w₄
  split
  · exact .pure hw₄ fun e he => (by cases he)
  -- The retained bytes go back.
  · refine Meets.andThen (Meets.lift ((rewriteBack_meets hw₄ hkept₄).weaken ?_))
    rintro r w₅ hw₅ ⟨hkept₅, hback⟩
    refine Meets.pure hw₅ fun _ _ => ?_
    rcases hkept₅.version with ⟨hnone, -⟩ | hsome
    · exact .untouched hnone
    rcases hback with hbytes | ⟨op, e₅, earlier, hrefused, hop⟩
    · refine .back file bytes hsome ?_ hbytes fun hnot => ?_
      · rw [hkept₅.out, hbytes, bne_self_eq_false]
      · rw [hrewrites] at hnot
        cases hnot
    · exact .refused file bytes hsome (.restoring hrewrites op e₅ earlier hop hrefused)

end BareLine.SaveTransaction
