import BareLine.Document.GroupEffects

/-!
# When a relieved group edit is admitted

`group_admissible` adds up what the members of a budget need and what eviction can free
before anything is evicted.  While nobody else takes room from those budgets, that sum is
kept by every eviction, slot and charge of the loop after it, so the edit is not refused
any more.
-/

namespace BareLine

open Lib BareLine.Tree

/-! ## §1 What documents hold of a budget -/

/-- Bytes of an entry's claims. -/
def History.claimBytes (e : History) : Nat := e.undoReservation.sum + e.structureCharge.getD 0

/-- What dropping the entry gives back. -/
def History.releases (env : Env) (e : History) : Nat :=
  if env.chargeShared e then 0 else e.claimBytes

namespace Document

/-- What dropping all entries gives back. -/
def entryBytes (env : Env) (d : Document) : Nat :=
  ((d.undo.entries ++ d.redo.entries).map (History.releases env)).sum

/-- The slots of both stacks. -/
def slotBytes (env : Env) (d : Document) : Nat :=
  d.undo.capacity * env.layout.history + d.redo.capacity * env.layout.history

/-- Only the oldest entries of both stacks are gone; the slots stay. -/
def Drains (d d' : Document) : Prop :=
  ∃ n m, d' = { d with undo := d.undo.drain n, redo := d.redo.drain m }

namespace Drains

theorem refl (d : Document) : Drains d d := ⟨0, 0, rfl⟩

theorem trans {a b c : Document} (h : Drains a b) (h' : Drains b c) : Drains a c := by
  obtain ⟨n, m, rfl⟩ := h
  obtain ⟨n', m', rfl⟩ := h'
  refine ⟨n + n', m + m', ?_⟩
  simp only [HistoryStack.drain, List.drop_drop]

theorem dropOldest (d : Document) (fromRedo : Bool) : Drains d (d.dropOldest fromRedo) := by
  cases fromRedo
  · exact ⟨1, 0, rfl⟩
  · exact ⟨0, 1, rfl⟩

theorem evicts {d d' : Document} (h : Drains d d') : Evicts d d' := by
  obtain ⟨n, m, rfl⟩ := h
  exact ⟨⟨n, rfl⟩, ⟨m, rfl⟩, rfl⟩

theorem slotBytes {d d' : Document} (h : Drains d d') (env : Env) :
    d'.slotBytes env = d.slotBytes env := by
  obtain ⟨n, m, rfl⟩ := h
  rfl

theorem entryBytes_le {d d' : Document} (h : Drains d d') (env : Env) :
    d'.entryBytes env ≤ d.entryBytes env := by
  obtain ⟨n, m, rfl⟩ := h
  rw [Document.entryBytes, Document.entryBytes]
  have hsub := (List.drop_sublist n d.undo.entries).append (List.drop_sublist m d.redo.entries)
  exact (hsub.map (History.releases env)).sum_le_sum fun _ _ => Nat.zero_le _

theorem hasSlot {d d' : Document} (h : Drains d d') (hd : d.HasSlot) : d'.HasSlot := by
  obtain ⟨n, m, rfl⟩ := h
  rw [HasSlot] at *
  simp only [HistoryStack.drain_entries, HistoryStack.drain_capacity, List.length_drop]
  omega

end Drains

theorem evictOldestEntry_drains {env : Env} {d d' : Document} {keep : Nat × Nat} {text : Bool}
    {released : Nat} (h : d.evictOldestEntry env keep text = some (released, d')) :
    Drains d d' := by
  obtain ⟨fromRedo, rfl, -⟩ := evictOldestEntry_some h
  exact Drains.dropOldest d fromRedo

theorem relieveRedoFrom_drains (env : Env) (demand : Demand) (d : Document) (released : Nat) :
    Drains d (relieveRedoFrom env demand d released).2 := by
  fun_induction relieveRedoFrom env demand d released with
  | case1 d released hroom hnil => exact Drains.refl d
  | case2 d released hroom furthest rest hcons released' ih =>
    exact (Drains.dropOldest d true).trans ih
  | case3 d released hroom => exact Drains.refl d

theorem relieveRedo_drains (env : Env) (d : Document) (demand : Demand) :
    Drains d (d.relieveRedo env demand).2 := by
  cases demand with
  | edit history => exact relieveRedoFrom_drains _ _ _ _
  | text bytes => exact relieveRedoFrom_drains _ _ _ _
  | undo => exact Drains.refl d
  | redo => exact Drains.refl d

/-- A document without entries holds slots only. -/
theorem entryBytes_eq_zero {d : Document} (env : Env) (h : d.historyLength = 0) :
    d.entryBytes env = 0 := by
  rw [historyLength, Nat.add_eq_zero_iff, List.length_eq_zero_iff, List.length_eq_zero_iff] at h
  rw [entryBytes, h.1, h.2]
  rfl

/-- Nothing is evictable only when nothing is left. -/
theorem historyLength_of_oldestHistory {d : Document} (h : d.oldestHistory (0, 0) = none) :
    d.historyLength = 0 := by
  have hfirst : ∀ stack : HistoryStack, ((stack.entries.head?.filter fun _ =>
      decide (stack.entries.length > 0)).map History.sequence) = none →
        stack.entries.length = 0 := by
    intro stack hnone
    cases hentries : stack.entries with
    | nil => rfl
    | cons e es =>
      rw [hentries] at hnone
      simp at hnone
  rw [oldestHistory] at h
  split at h
  · exact nomatch h
  · exact nomatch h
  · rename_i redo hevictable
    subst h
    rw [evictable] at hevictable
    obtain ⟨hundo, hredo⟩ := Prod.mk.inj hevictable
    rw [historyLength, hfirst _ hundo, hfirst _ hredo]

/-- What `freeable_history` finds is there to be freed. -/
theorem freeableHistory_le (env : Env) (d : Document) (enough : Nat) :
    d.freeableHistory env (0, 0) enough ≤ d.entryBytes env := by
  have hfrom : ∀ (entries : List History) (found : Nat),
      freeableFrom (fun e _ => if env.chargeShared e then 0
        else saturatingAdd e.undoReservation.sum (e.structureCharge.getD 0)) enough found entries ≤
        found + (entries.map (History.releases env)).sum := by
    intro entries
    induction entries with
    | nil => exact fun _ => Nat.le_refl _
    | cons e rest ih =>
      intro found
      rw [freeableFrom, List.map_cons, List.sum_cons]
      split
      · exact Nat.le_add_right _ _
      · refine (ih _).trans ?_
        have hone : (if env.chargeShared e then 0
            else saturatingAdd e.undoReservation.sum (e.structureCharge.getD 0)) ≤
            e.releases env := by
          rw [History.releases]
          split
          · exact Nat.le_refl _
          · exact Nat.min_le_left _ _
        have hsum := Nat.min_le_left (found + if env.chargeShared e then 0
          else saturatingAdd e.undoReservation.sum (e.structureCharge.getD 0)) usizeMax
        rw [saturatingAdd]
        omega
  refine (hfrom _ 0).trans ?_
  rw [Nat.zero_add, entryBytes, evictableEntries, evictableEntries, Nat.sub_zero, Nat.sub_zero,
    List.take_length, List.take_length]

end Document

/-! ## §2 Sums over a budget -/

namespace GroupWorld

variable (w : GroupWorld)

/-- What the listed documents of a budget have together. -/
def sumOver (ids : List Nat) (budget : Nat) (f : Nat → Nat) : Nat :=
  (ids.map fun id => if w.budget id = budget then f id else 0).sum

variable {w} {ids : List Nat} {budget : Nat}

theorem sumOver_le {f g : Nat → Nat} (h : ∀ id ∈ ids, f id ≤ g id) :
    w.sumOver ids budget f ≤ w.sumOver ids budget g := by
  refine List.sum_le_sum fun id hid => ?_
  split
  · exact h id hid
  · exact Nat.le_refl _

theorem sumOver_add (f g : Nat → Nat) :
    w.sumOver ids budget (fun id => f id + g id) =
      w.sumOver ids budget f + w.sumOver ids budget g := by
  rw [sumOver, sumOver, sumOver, ← List.sum_map_add]
  congr 1
  refine List.map_congr_left fun id _ => ?_
  split <;> rfl

theorem sumOver_zero (w : GroupWorld) (ids : List Nat) (budget : Nat) :
    w.sumOver ids budget (fun _ => 0) = 0 := by
  rw [sumOver]
  simp

/-- One document's part. -/
theorem sumOver_single (hnodup : ids.Nodup) (id n : Nat) :
    w.sumOver ids budget (fun i => if i = id then n else 0) ≤
      if w.budget id = budget then n else 0 := by
  induction ids with
  | nil => exact Nat.zero_le _
  | cons first rest ih =>
    obtain ⟨hfirst, hrest⟩ := List.nodup_cons.mp hnodup
    rw [sumOver, List.map_cons, List.sum_cons, ← sumOver]
    by_cases heq : first = id
    · subst heq
      have hzero : w.sumOver rest budget (fun i => if i = first then n else 0) =
          w.sumOver rest budget fun _ => 0 := by
        rw [sumOver, sumOver]
        congr 1
        refine List.map_congr_left fun i hi => ?_
        have hne : i ≠ first := fun heq => hfirst (heq ▸ hi)
        rw [if_neg hne]
      rw [hzero, sumOver_zero, if_pos rfl, Nat.add_zero]
    · rw [if_neg heq, ite_self, Nat.zero_add]
      exact ih hrest

theorem le_sumOver {f : Nat → Nat} {id : Nat} (hid : id ∈ ids) :
    f id ≤ w.sumOver ids (w.budget id) f := by
  have hmem : f id ∈ ids.map fun i => if w.budget i = w.budget id then f i else 0 :=
    List.mem_map.mpr ⟨id, hid, if_pos rfl⟩
  exact List.le_sum_of_mem hmem

end GroupWorld

/-- Slots of the listed documents. -/
def slotsOf (w : GroupWorld) (ids : List Nat) (documents : Nat → Document) (budget : Nat) : Nat :=
  w.sumOver ids budget fun id => (documents id).slotBytes (w.env id)

/-- Entries of the listed documents. -/
def entriesOf (w : GroupWorld) (ids : List Nat) (documents : Nat → Document) (budget : Nat) :
    Nat :=
  w.sumOver ids budget fun id => (documents id).entryBytes (w.env id)

/-- Claims of the members charged so far. -/
def chargedOf (w : GroupWorld) (charged : List Member) (budget : Nat) : Nat :=
  (charged.map fun member =>
    if w.budget member.id = budget then member.prepared.entry.claimBytes else 0).sum

/-- What members still need. -/
def needsOf (w : GroupWorld) (documents : Nat → Document) (members : List Member)
    (budget : Nat) : Nat :=
  (members.map fun member => if w.budget member.id = budget then
    (documents member.id).historyNeed (w.env member.id) member.demand else 0).sum

/-- Everything that a group operation holds of a budget. -/
def heldOf (w : GroupWorld) (ids : List Nat) (documents : Nat → Document)
    (charged : List Member) (budget : Nat) : Nat :=
  slotsOf w ids documents budget + entriesOf w ids documents budget + chargedOf w charged budget

/-- Nobody else takes room from the budgets while a group operation holds these documents:
what is left is what others leave, which never shrinks, less what the documents and the
charged members hold. -/
structure Undisturbed (w : GroupWorld) (ids : List Nat) (documents : Nat → Document) : Prop where
  layout : ∀ id, 0 < (w.env id).layout.history
  room : ∃ room : Nat → Nat → Nat, (∀ turn budget, room turn budget ≤ room (turn + 1) budget) ∧
    (∀ turn budget, room turn budget < usizeMax) ∧
    (∀ budget, heldOf w ids documents [] budget ≤ room 0 budget) ∧
    ∀ turn documents charged budget, w.available turn documents charged budget =
      room turn budget - heldOf w ids documents charged budget

/-! ## §3 Eviction that makes room -/

/-- Every document only loses its oldest entries. -/
def AllDrain (documents documents' : Nat → Document) : Prop :=
  ∀ id, Document.Drains (documents id) (documents' id)

theorem AllDrain.refl (documents : Nat → Document) : AllDrain documents documents :=
  fun _ => Document.Drains.refl _

theorem AllDrain.trans {a b c : Nat → Document} (h : AllDrain a b) (h' : AllDrain b c) :
    AllDrain a c := fun id => (h id).trans (h' id)

theorem AllDrain.update {documents : Nat → Document} {id : Nat} {d : Document}
    (h : Document.Drains (documents id) d) :
    AllDrain documents (Function.update documents id d) := by
  intro i
  by_cases hi : i = id
  · subst hi
    rwa [Function.update_self]
  · rw [Function.update_of_ne hi]
    exact Document.Drains.refl _

section Eviction

variable {w : GroupWorld} {ids : List Nat} {documents documents' : Nat → Document}

theorem AllDrain.slotsOf (h : AllDrain documents documents') (budget : Nat) :
    slotsOf w ids documents' budget = slotsOf w ids documents budget := by
  rw [BareLine.slotsOf, BareLine.slotsOf]
  congr 1
  funext id
  exact (h id).slotBytes _

theorem AllDrain.entriesOf_le (h : AllDrain documents documents') (w : GroupWorld)
    (ids : List Nat) (budget : Nat) :
    entriesOf w ids documents' budget ≤ entriesOf w ids documents budget :=
  GroupWorld.sumOver_le fun id _ => (h id).entryBytes_le _

/-- Fewer entries need no more slots. -/
theorem HistoryStack.growthBytes_drain (stack : HistoryStack) (n size : Nat) :
    (stack.drain n).growthBytes size 1 ≤ stack.growthBytes size 1 := by
  have hlen : (stack.drain n).entries.length ≤ stack.entries.length := by
    rw [drain_entries, List.length_drop]
    exact Nat.sub_le _ _
  have hrequested : saturatingAdd (stack.drain n).entries.length 1 ≤
      saturatingAdd stack.entries.length 1 := by
    rw [saturatingAdd, saturatingAdd]
    omega
  rw [growthBytes, growthBytes]
  by_cases hfits : saturatingAdd stack.entries.length 1 ≤ stack.capacity
  · have hdrained : saturatingAdd (stack.drain n).entries.length 1 ≤ (stack.drain n).capacity :=
      hrequested.trans hfits
    rw [if_pos hdrained]
    exact Nat.zero_le _
  · rw [if_neg hfits]
    split
    · exact Nat.zero_le _
    · refine min_le_min_right _ (Nat.mul_le_mul_right _ ?_)
      rw [drain_capacity]
      omega

theorem Document.Drains.historyNeed_le {d d' : Document} (h : Document.Drains d d') (env : Env)
    (demand : Demand) : d'.historyNeed env demand ≤ d.historyNeed env demand := by
  obtain ⟨n, m, rfl⟩ := h
  have hundo := d.undo.growthBytes_drain n env.layout.history
  have hredo := d.redo.growthBytes_drain m env.layout.history
  cases demand with
  | edit history =>
    simp only [Document.historyNeed, saturatingAdd]
    omega
  | undo => exact hredo
  | redo => exact hundo
  | text bytes => exact Nat.le_refl _

theorem AllDrain.needsOf_le (h : AllDrain documents documents') (members : List Member)
    (budget : Nat) : needsOf w documents' members budget ≤ needsOf w documents members budget := by
  refine List.sum_le_sum fun member _ => ?_
  split
  · exact (h member.id).historyNeed_le _ _
  · exact Nat.le_refl _

/-- Each eviction leaves fewer entries. -/
theorem evictOldest_some {budget : Nat}
    (h : evictOldest w documents ids budget = some documents') :
    AllDrain documents documents' ∧ historyEntries documents' ids < historyEntries documents ids := by
  obtain ⟨found, hfound, h⟩ := Option.bind_eq_some_iff.mp h
  obtain ⟨⟨released, d⟩, hevict, rfl⟩ := Option.map_eq_some_iff.mp h
  have hdrain := Document.evictOldestEntry_drains hevict
  obtain ⟨-, -, hlt⟩ := Document.evictOldestEntry_some hevict
  refine ⟨AllDrain.update hdrain, ?_⟩
  refine List.sum_lt_sum _ _ (fun id _ => ?_) ⟨found.2, (oldestAmong_mem hfound).1, ?_⟩
  · by_cases hid : id = found.2
    · subst hid
      rw [Function.update_self]
      exact Nat.le_of_lt hlt
    · rw [Function.update_of_ne hid]
  · rw [Function.update_self]
    exact hlt

/-- Eviction stops only when the budget's documents have no entries left. -/
theorem oldestAmong_none {budget : Nat} (h : oldestAmong w documents budget ids = none) :
    ∀ id ∈ ids, w.budget id = budget → (documents id).historyLength = 0 := by
  induction ids with
  | nil => exact fun _ h => absurd h List.not_mem_nil
  | cons first rest ih =>
    rw [oldestAmong] at h
    split at h
    · rename_i hfirst
      intro id hid hbudget
      obtain rfl | hid := List.mem_cons.mp hid
      · rw [if_pos hbudget] at hfirst
        exact Document.historyLength_of_oldestHistory hfirst
      · exact ih h id hid hbudget
    · cases h
    · split_ifs at h

/-- An entry that is listed as the oldest can be dropped. -/
theorem evictOldest_none {budget : Nat} (h : evictOldest w documents ids budget = none) :
    ∀ id ∈ ids, w.budget id = budget → (documents id).historyLength = 0 := by
  refine oldestAmong_none (Option.eq_none_iff_forall_ne_some.mpr fun found hfound => ?_)
  rw [evictOldest, hfound, Option.bind_some, Option.map_eq_none_iff] at h
  obtain ⟨-, -, holdest⟩ := oldestAmong_mem hfound
  rw [Document.evictOldestEntry, Option.map_eq_none_iff] at h
  rw [Document.oldestHistory] at holdest
  split at h
  · cases h
  · cases h
  · cases h
  · rename_i hevictable
    rw [hevictable] at holdest
    cases holdest

/-- The loop ends with room for the member when empty histories would leave it. -/
theorem evictWhile_room (w : GroupWorld) (ids : List Nat) (turn : Nat) (charged : List Member)
    (member : Member) (fuel : Nat)
    (documents : Nat → Document) (hfuel : historyEntries documents ids ≤ fuel)
    (hroom : ∀ documents', AllDrain documents documents' →
      (∀ id ∈ ids, w.budget id = w.budget member.id → (documents' id).historyLength = 0) →
      (documents' member.id).lacksRoom (w.view turn documents' charged member.id) member.demand =
        false) :
    AllDrain documents (evictWhile w turn charged ids member fuel documents) ∧
    ((evictWhile w turn charged ids member fuel documents) member.id).lacksRoom
      (w.view turn (evictWhile w turn charged ids member fuel documents) charged member.id)
      member.demand = false := by
  induction fuel generalizing documents with
  | zero =>
    refine ⟨AllDrain.refl _, hroom documents (AllDrain.refl _) fun id hid _ => ?_⟩
    have hle : (documents id).historyLength ≤ historyEntries documents ids :=
      List.le_sum_of_mem (List.mem_map_of_mem (f := fun id => (documents id).historyLength) hid)
    exact Nat.le_zero.mp (hle.trans hfuel)
  | succ fuel ih =>
    generalize hleft : evictWhile w turn charged ids member (fuel + 1) documents = left
    rw [evictWhile] at hleft
    split at hleft
    · split at hleft
      · rename_i hnone
        subst hleft
        exact ⟨AllDrain.refl _, hroom documents (AllDrain.refl _) (evictOldest_none hnone)⟩
      · rename_i documents₁ hsome
        subst hleft
        obtain ⟨hdrain, hlt⟩ := evictOldest_some hsome
        obtain ⟨hall, hfits⟩ := ih documents₁ (by omega) fun documents' hd =>
          hroom documents' (hdrain.trans hd)
        exact ⟨hdrain.trans hall, hfits⟩
    · rename_i hlacks
      subst hleft
      exact ⟨AllDrain.refl _, Bool.eq_false_of_not_eq_true hlacks⟩

end Eviction

/-! ## §4 Slots and charges -/

/-- A slot that the budget has room for is granted and costs its growth at most. -/
theorem HistoryStack.tryReserve_of_growth {stack : HistoryStack} {size available : Nat}
    (hsize : 0 < size) (hslots : stack.capacity * size < usizeMax) (havailable : available < usizeMax)
    (hgrowth : stack.growthBytes size 1 ≤ available) :
    ∃ stack', stack.tryReserve size available 1 = .ok stack' ∧
      stack'.capacity * size ≤ stack.capacity * size + stack.growthBytes size 1 := by
  have hcapacity : stack.capacity < usizeMax :=
    Nat.lt_of_le_of_lt (Nat.le_mul_of_pos_right _ hsize) hslots
  rw [growthBytes] at hgrowth ⊢
  rw [tryReserve]
  by_cases hlen : stack.entries.length + 1 ≤ usizeMax
  · have hsat : saturatingAdd stack.entries.length 1 = stack.entries.length + 1 :=
      Nat.min_eq_left hlen
    rw [checkedAdd, if_pos hlen]
    rw [hsat] at hgrowth ⊢
    dsimp only
    by_cases hfits : stack.entries.length + 1 ≤ stack.capacity
    · rw [if_pos hfits]
      exact ⟨stack, rfl, Nat.le_add_right _ _⟩
    · rw [if_neg hfits] at hgrowth ⊢
      -- The doubled allocation fits, so none of its steps saturates.
      have hbytes : max (max (stack.entries.length + 1) (saturatingMul stack.capacity 2)) 1 * size ≤
          available := by
        rw [saturatingMul] at hgrowth
        omega
      have hrequested : max (max (stack.entries.length + 1) (saturatingMul stack.capacity 2)) 1 <
          usizeMax :=
        Nat.lt_of_le_of_lt (Nat.le_mul_of_pos_right _ hsize) (Nat.lt_of_le_of_lt hbytes havailable)
      have hdoubled : saturatingMul stack.capacity 2 = stack.capacity * 2 := by
        rw [saturatingMul] at hrequested ⊢
        omega
      rw [hdoubled] at hgrowth hbytes hrequested ⊢
      have hproduct : saturatingMul (max (max (stack.entries.length + 1) (stack.capacity * 2)) 1)
          size = max (max (stack.entries.length + 1) (stack.capacity * 2)) 1 * size :=
        Nat.min_eq_left (by omega)
      rw [if_neg hfits, checkedMul, if_pos (by omega)]
      dsimp only
      rw [checkedMul, if_pos (by omega)]
      dsimp only
      rw [if_pos hbytes, hproduct]
      exact ⟨_, rfl, Nat.le_add_left _ _⟩
  · have hsat : saturatingAdd stack.entries.length 1 = usizeMax := Nat.min_eq_right (by omega)
    rw [hsat, if_neg (by omega), saturatingMul] at hgrowth
    have hlarge : usizeMax ≤ max (max usizeMax (saturatingMul stack.capacity 2)) 1 * size :=
      le_trans (by omega) (Nat.le_mul_of_pos_right _ hsize)
    omega

namespace Document

/-- A group member's demand is what its charge takes. -/
theorem charge_of_available {env : Env} {d : Document} {p : PreparedEdit}
    (h : d.entryCharge env p.entry.edits ≤ env.historyAvailable d) :
    ∃ p', d.charge env p 0 = some p' ∧
      p'.entry.claimBytes = d.entryCharge env p.entry.edits := by
  have hroom : ([] : List Nat).sum ≤ env.historyAvailable d ∧
      ([] : List Nat).sum + d.entryCharge env p.entry.edits ≤ env.historyAvailable d := by
    rw [List.sum_nil, Nat.zero_add]
    exact ⟨Nat.zero_le _, h⟩
  rw [charge]
  dsimp only
  rw [if_neg (Nat.lt_irrefl 0), if_pos hroom]
  refine ⟨_, rfl, ?_⟩
  rw [History.claimBytes, List.sum_nil, Nat.zero_add]
  rfl

theorem entryCharge_congr {env env' : Env} {d d' : Document} (edits : List OwnedEdit)
    (hroot : d'.current.root = d.current.root) (hlayout : env'.layout = env.layout) :
    d'.entryCharge env' edits = d.entryCharge env edits := by
  rw [entryCharge, entryCharge, hroot, hlayout]

end Document

/-! ## §5 The whole loop -/

section Loop

variable {w : GroupWorld} {ids : List Nat} {room : Nat → Nat → Nat}

/-- The budgets hold what is there, and will hold what the other members need once all
entries are gone. -/
structure Fits (w : GroupWorld) (ids : List Nat) (room : Nat → Nat → Nat) (turn : Nat)
    (documents : Nat → Document) (charged rest : List Member) : Prop where
  held : ∀ budget, heldOf w ids documents charged budget ≤ room turn budget
  enough : ∀ budget, needsOf w documents rest budget + slotsOf w ids documents budget +
    chargedOf w charged budget ≤ room 1 budget

/-- Staged members ask for what their charge takes. -/
def Demands (w : GroupWorld) (documents : Nat → Document) (members : List Member) : Prop :=
  ∀ member ∈ members, member.demand =
    .edit ((documents member.id).entryCharge (w.env member.id) member.prepared.entry.edits)

theorem Fits.drain {turn : Nat} {documents documents' : Nat → Document} {charged rest : List Member}
    (h : Fits w ids room turn documents charged rest) (hdrain : AllDrain documents documents') :
    Fits w ids room turn documents' charged rest := by
  refine ⟨fun budget => ?_, fun budget => ?_⟩
  · have hheld := h.held budget
    have hentries := hdrain.entriesOf_le w ids budget
    rw [heldOf] at hheld ⊢
    rw [hdrain.slotsOf budget]
    omega
  · have henough := h.enough budget
    have hneeds := hdrain.needsOf_le (w := w) rest budget
    rw [hdrain.slotsOf budget]
    omega

theorem Demands.congr {documents documents' : Nat → Document} {members : List Member}
    (h : Demands w documents members) (hcurrent : ∀ id, (documents' id).current = (documents id).current) :
    Demands w documents' members := by
  intro member hmember
  rw [h member hmember, Document.entryCharge_congr _ (by rw [hcurrent]) rfl]

theorem room_le (hmono : ∀ turn budget, room turn budget ≤ room (turn + 1) budget) {a b : Nat}
    (h : a ≤ b) (budget : Nat) : room a budget ≤ room b budget := by
  induction h with
  | refl => exact Nat.le_refl _
  | step _ ih => exact ih.trans (hmono _ _)

/-- What a member sees of its budget is what the documents leave of it. -/
theorem GroupWorld.view_available (w : GroupWorld) (turn : Nat) (documents : Nat → Document)
    (charged : List Member) (id : Nat) :
    (w.view turn documents charged id).historyAvailable (documents id) =
      w.available turn documents charged (w.budget id) := by
  show w.available turn (Function.update documents id (documents id)) charged (w.budget id) = _
  rw [Function.update_eq_self]

theorem lacksRoom_view {turn : Nat} {documents : Nat → Document} {charged : List Member}
    {id history : Nat} :
    (documents id).lacksRoom (w.view turn documents charged id) (.edit history) = false ↔
      (documents id).historyNeed (w.env id) (.edit history) ≤
        w.available turn documents charged (w.budget id) := by
  rw [Document.lacksRoom, Document.shortfall, w.view_available, decide_eq_false_iff_not,
    Nat.not_lt, Nat.le_zero, Nat.sub_eq_zero_iff_le]
  · rfl
  · exact fun _ h => nomatch h

section Undisturbed

variable (hmono : ∀ turn budget, room turn budget ≤ room (turn + 1) budget)
  (hlimit : ∀ turn budget, room turn budget < usizeMax)
  (havailable : ∀ turn documents charged budget, w.available turn documents charged budget =
    room turn budget - heldOf w ids documents charged budget)

include hmono havailable in
/-- Relief makes room for the next member. -/
theorem relieveMember_fits {turn : Nat} (hturn : 1 ≤ turn) {documents : Nat → Document}
    {charged rest : List Member} {member : Member} {history : Nat}
    (hdemand : member.demand = .edit history)
    (h : Fits w ids room turn documents charged (member :: rest)) :
    AllDrain documents (relieveMember w turn charged ids member documents) ∧
    ((relieveMember w turn charged ids member documents) member.id).historyNeed
      (w.env member.id) member.demand ≤
        w.available turn (relieveMember w turn charged ids member documents) charged
          (w.budget member.id) := by
  have hredo : AllDrain documents (Function.update documents member.id
      ((documents member.id).relieveRedo (w.view turn documents charged member.id)
        member.demand).2) := AllDrain.update (Document.relieveRedo_drains _ _ _)
  obtain ⟨hdrain, hroom⟩ := evictWhile_room w ids turn charged member
    (historyEntries (Function.update documents member.id
      ((documents member.id).relieveRedo (w.view turn documents charged member.id)
        member.demand).2) ids) _ (Nat.le_refl _) fun documents' hall hempty => by
      have hfits := h.drain (hredo.trans hall)
      have hentries : entriesOf w ids documents' (w.budget member.id) = 0 := by
        refine Nat.eq_zero_of_le_zero ((List.sum_le_sum fun id hid => ?_).trans_eq
          (w.sumOver_zero ids (w.budget member.id)))
        split
        · rename_i hbudget
          exact Nat.le_of_eq (Document.entryBytes_eq_zero _ (hempty id hid hbudget))
        · exact Nat.le_refl _
      have henough := hfits.enough (w.budget member.id)
      have hheld := hfits.held (w.budget member.id)
      have hturns := room_le hmono hturn (w.budget member.id)
      rw [needsOf, List.map_cons, List.sum_cons, if_pos rfl, hdemand] at henough
      rw [heldOf, hentries] at hheld
      rw [hdemand, lacksRoom_view, havailable, heldOf, hentries]
      omega
  refine ⟨hredo.trans hdrain, ?_⟩
  rw [hdemand] at hroom ⊢
  rw [relieveMember, hdemand]
  exact lacksRoom_view.mp hroom

/-- A slot costs one document's growth. -/
theorem slotsOf_reserve (hnodup : ids.Nodup) {documents : Nat → Document} {id growth : Nat}
    {undo : HistoryStack}
    (hgrowth : undo.capacity * (w.env id).layout.history ≤
      (documents id).undo.capacity * (w.env id).layout.history + growth) (budget : Nat) :
    slotsOf w ids (Function.update documents id { documents id with undo := undo }) budget ≤
      slotsOf w ids documents budget + if w.budget id = budget then growth else 0 := by
  refine le_trans ?_ (Nat.add_le_add_left (GroupWorld.sumOver_single hnodup id growth) _)
  rw [slotsOf, slotsOf, ← GroupWorld.sumOver_add]
  refine GroupWorld.sumOver_le fun i _ => ?_
  by_cases hi : i = id
  · subst hi
    rw [Function.update_self, if_pos rfl, Document.slotBytes, Document.slotBytes]
    dsimp only
    omega
  · rw [Function.update_of_ne hi]
    exact Nat.le_add_right _ _

theorem entriesOf_reserve (w : GroupWorld) (ids : List Nat) {documents : Nat → Document} {id : Nat}
    {undo : HistoryStack}
    (hentries : undo.entries = (documents id).undo.entries) (budget : Nat) :
    entriesOf w ids (Function.update documents id { documents id with undo := undo }) budget =
      entriesOf w ids documents budget := by
  rw [entriesOf, entriesOf]
  congr 1
  funext i
  by_cases hi : i = id
  · subst hi
    rw [Function.update_self, Document.entryBytes, Document.entryBytes, hentries]
  · rw [Function.update_of_ne hi]

/-- Members that are not updated need what they needed. -/
theorem needsOf_update {documents : Nat → Document} {id : Nat} (d : Document)
    {members : List Member} (hid : id ∉ members.map Member.id) (budget : Nat) :
    needsOf w (Function.update documents id d) members budget = needsOf w documents members budget := by
  rw [needsOf, needsOf]
  congr 1
  refine List.map_congr_left fun member hmember => ?_
  have hne : member.id ≠ id := fun heq => hid (heq ▸ List.mem_map_of_mem hmember)
  rw [Function.update_of_ne hne]

include hmono hlimit havailable in
/-- A member that has room is given its slot and charged. -/
theorem admitOne (hlayout : ∀ id, 0 < (w.env id).layout.history) (hnodup : ids.Nodup) {turn : Nat}
    {documents : Nat → Document} {charged rest : List Member} {member : Member}
    (hmember : member.id ∈ ids) (hother : member.id ∉ rest.map Member.id)
    (hdemand : member.demand =
      .edit ((documents member.id).entryCharge (w.env member.id) member.prepared.entry.edits))
    (hneed : (documents member.id).historyNeed (w.env member.id) member.demand ≤
      w.available turn documents charged (w.budget member.id))
    (h : Fits w ids room turn documents charged (member :: rest)) :
    ∃ undo prepared, (documents member.id).undo.tryReserve (w.env member.id).layout.history
        (w.available (turn + 1) documents charged (w.budget member.id)) 1 = .ok undo ∧
      ({ documents member.id with undo := undo } : Document).charge
        (w.view (turn + 2) (Function.update documents member.id
          { documents member.id with undo := undo }) charged member.id) member.prepared 0 =
            some prepared ∧
      Fits w ids room (turn + 3)
        (Function.update documents member.id { documents member.id with undo := undo })
        (charged ++ [{ member with prepared := prepared }]) rest := by
  have hheld := h.held (w.budget member.id)
  have hturn₁ := hmono turn (w.budget member.id)
  have hturn₂ : room (turn + 1) (w.budget member.id) ≤ room (turn + 2) (w.budget member.id) :=
    hmono (turn + 1) (w.budget member.id)
  have hlarge := hlimit turn (w.budget member.id)
  have hlarge₁ := hlimit (turn + 1) (w.budget member.id)
  rw [hdemand, havailable, Document.historyNeed, saturatingAdd] at hneed
  have hslots : (documents member.id).slotBytes (w.env member.id) ≤
      slotsOf w ids documents (w.budget member.id) :=
    GroupWorld.le_sumOver (f := fun id => (documents id).slotBytes (w.env id)) hmember
  rw [Document.slotBytes] at hslots
  rw [heldOf] at hheld hneed
  have hgrowth : (documents member.id).undo.growthBytes (w.env member.id).layout.history 1 ≤
      w.available (turn + 1) documents charged (w.budget member.id) := by
    rw [havailable, heldOf]
    omega
  have hlimited : w.available (turn + 1) documents charged (w.budget member.id) < usizeMax := by
    rw [havailable]
    omega
  obtain ⟨undo, hreserve, hcost⟩ := HistoryStack.tryReserve_of_growth (hlayout member.id)
    (by omega) hlimited hgrowth
  have hentries := (HistoryStack.tryReserve_ok hreserve).1
  have hslots' := slotsOf_reserve (w := w) hnodup hcost
  have hentries' := entriesOf_reserve w ids hentries
  have hcharge : ({ documents member.id with undo := undo } : Document).entryCharge
      (w.view (turn + 2) (Function.update documents member.id
        { documents member.id with undo := undo }) charged member.id) member.prepared.entry.edits =
      (documents member.id).entryCharge (w.env member.id) member.prepared.entry.edits :=
    Document.entryCharge_congr _ rfl rfl
  have hleft : (documents member.id).entryCharge (w.env member.id) member.prepared.entry.edits ≤
      w.available (turn + 2) (Function.update documents member.id
        { documents member.id with undo := undo }) charged (w.budget member.id) := by
    have hcost' := hslots' (w.budget member.id)
    rw [if_pos rfl] at hcost'
    rw [havailable, heldOf, hentries']
    omega
  have hview := w.view_available (turn + 2) (Function.update documents member.id
    { documents member.id with undo := undo }) charged member.id
  rw [Function.update_self] at hview
  obtain ⟨prepared, hprepared, hclaim⟩ := Document.charge_of_available
    (hcharge.trans_le (hleft.trans_eq hview.symm))
  rw [hcharge] at hclaim
  have hclaims : ∀ budget, chargedOf w (charged ++ [{ member with prepared := prepared }]) budget =
      chargedOf w charged budget + if w.budget member.id = budget then
        (documents member.id).entryCharge (w.env member.id) member.prepared.entry.edits else 0 := by
    intro budget
    rw [chargedOf, List.map_append, List.sum_append, List.map_singleton, List.sum_singleton, hclaim]
    rfl
  refine ⟨undo, prepared, hreserve, hprepared, fun budget => ?_, fun budget => ?_⟩
  · have hall := h.held budget
    have h₁ := room_le hmono (Nat.le_add_right turn 3) budget
    have hcost' := hslots' budget
    rw [heldOf] at hall ⊢
    rw [hentries', hclaims]
    split_ifs at hcost' ⊢ with hbudget
    · subst hbudget
      omega
    · omega
  · have hall := h.enough budget
    have hcost' := hslots' budget
    rw [needsOf, List.map_cons, List.sum_cons, ← needsOf, hdemand, Document.historyNeed,
      saturatingAdd] at hall
    rw [needsOf_update _ hother, hclaims]
    split_ifs at hcost' hall ⊢ with hbudget
    · subst hbudget
      omega
    · omega

include hmono hlimit havailable in
/-- The loop admits every member. -/
theorem admitMembers_ok (hlayout : ∀ id, 0 < (w.env id).layout.history) (hnodup : ids.Nodup)
    {turn : Nat} (hturn : 1 ≤ turn) {documents : Nat → Document} {charged rest : List Member}
    (hrest : (rest.map Member.id).Nodup) (hids : ∀ member ∈ rest, member.id ∈ ids)
    (hdemands : Demands w documents rest) (h : Fits w ids room turn documents charged rest) :
    ∃ members documents', admitMembers w true ids turn documents charged rest =
        (.ok members, documents') ∧
      (∀ id, (documents id).HasSlot ∨ id ∈ rest.map Member.id → (documents' id).HasSlot) ∧
      ∀ budget, slotsOf w ids documents' budget < usizeMax := by
  induction rest generalizing turn documents charged with
  | nil =>
    refine ⟨charged, documents, rfl, fun id hid => ?_, fun budget => ?_⟩
    · exact hid.resolve_right List.not_mem_nil
    · have hheld := h.held budget
      have hlarge := hlimit turn budget
      rw [heldOf] at hheld
      omega
  | cons member rest ih =>
    obtain ⟨hother, hrest⟩ := List.nodup_cons.mp hrest
    have hdemand := hdemands member List.mem_cons_self
    obtain ⟨hdrain, hneed⟩ := relieveMember_fits hmono havailable hturn hdemand h
    rw [admitMembers]
    dsimp only
    rw [if_pos rfl]
    generalize relieveMember w turn charged ids member documents = documents₁ at hdrain hneed ⊢
    have hcurrent : ∀ id, (documents₁ id).current = (documents id).current :=
      fun id => (hdrain id).evicts.current
    have hdemands₁ := hdemands.congr hcurrent
    obtain ⟨undo, prepared, hreserve, hcharge, hfits⟩ := admitOne hmono hlimit havailable hlayout
      hnodup (hids member List.mem_cons_self) hother (hdemands₁ member List.mem_cons_self) hneed
      (h.drain hdrain)
    rw [hreserve]
    dsimp only
    rw [Function.update_self, hcharge]
    dsimp only
    obtain ⟨members, documents', heq, hslots, hlimited⟩ := ih (Nat.le_add_right_of_le hturn) hrest
      (fun other hmem => hids other (List.mem_cons_of_mem _ hmem))
      (fun other hmem => by
        have hne : other.id ≠ member.id := fun heq => hother (heq ▸ List.mem_map_of_mem hmem)
        rw [Function.update_of_ne hne]
        exact hdemands₁ other (List.mem_cons_of_mem _ hmem)) hfits
    refine ⟨members, documents', heq, fun id hid => hslots id ?_, hlimited⟩
    by_cases hmember : id = member.id
    · subst hmember
      rw [Function.update_self]
      exact .inl (HistoryStack.tryReserve_ok hreserve).2
    · rw [Function.update_of_ne hmember]
      refine hid.imp (hdrain id).hasSlot fun hmem => ?_
      exact (List.mem_cons.mp hmem).resolve_left hmember

end Undisturbed

/-- Members that have their slots are committed. -/
theorem reserveSlots_ok (hlayout : ∀ id, 0 < (w.env id).layout.history)
    {documents : Nat → Document} (hlimited : ∀ budget, slotsOf w ids documents budget < usizeMax)
    (charged : List Member) (turn : Nat) {members : List Member}
    (hids : ∀ member ∈ members, member.id ∈ ids)
    (hslots : ∀ member ∈ members, (documents member.id).HasSlot)
    (hvalid : ∀ member ∈ members, (documents member.id).validatePrepared member.prepared = .ok ()) :
    reserveSlots w charged turn documents members = (.ok (), documents) := by
  induction members generalizing turn with
  | nil => rfl
  | cons member rest ih =>
    have hslot := hslots member List.mem_cons_self
    rw [Document.HasSlot] at hslot
    -- The slots that are there are counted by the budget, so their number is small.
    have hcapacity : (documents member.id).undo.capacity < usizeMax := by
      have hle : (documents member.id).slotBytes (w.env member.id) ≤
          slotsOf w ids documents (w.budget member.id) :=
        GroupWorld.le_sumOver (f := fun id => (documents id).slotBytes (w.env id))
          (hids member List.mem_cons_self)
      have hsize := Nat.le_mul_of_pos_right (documents member.id).undo.capacity (hlayout member.id)
      have hlarge := hlimited (w.budget member.id)
      rw [Document.slotBytes] at hle
      omega
    have hreserve : ∀ available, (documents member.id).undo.tryReserve
        (w.env member.id).layout.history available 1 = .ok (documents member.id).undo := by
      intro available
      rw [HistoryStack.tryReserve, checkedAdd, if_pos (by omega)]
      dsimp only
      rw [if_pos (by omega)]
    rw [reserveSlots, hvalid member List.mem_cons_self]
    dsimp only
    rw [hreserve]
    dsimp only
    have hself : Function.update documents member.id
        { documents member.id with undo := (documents member.id).undo } = documents :=
      Function.update_eq_self _ _
    rw [hself]
    exact ih (turn + 1) (fun other h => hids other (List.mem_cons_of_mem _ h))
      (fun other h => hslots other (List.mem_cons_of_mem _ h))
      (fun other h => hvalid other (List.mem_cons_of_mem _ h))

end Loop

/-! ## §6 What `group_admissible` promises -/

section Admissible

variable {w : GroupWorld} {ids : List Nat} {documents : Nat → Document}

/-- The need of a budget's members, added up without overflow. -/
theorem needsOf_fold (w : GroupWorld) (documents : Nat → Document) (budget : Nat)
    (members : List Member) {start : Nat} (hstart : start ≤ usizeMax) :
    (members.filter fun other => w.budget other.id == budget).foldl
      (fun sum other => saturatingAdd sum
        ((documents other.id).historyNeed (w.env other.id) other.demand)) start =
      min (start + needsOf w documents members budget) usizeMax := by
  induction members generalizing start with
  | nil => exact (Nat.min_eq_left hstart).symm
  | cons member rest ih =>
    rw [needsOf, List.map_cons, List.sum_cons, ← needsOf, List.filter_cons]
    by_cases hbudget : w.budget member.id = budget
    · have hsum : saturatingAdd start ((documents member.id).historyNeed (w.env member.id)
          member.demand) ≤ usizeMax := Nat.min_le_right _ _
      rw [if_pos (beq_iff_eq.mpr hbudget), if_pos hbudget, List.foldl_cons, ih hsum, saturatingAdd]
      omega
    · rw [if_neg fun h => hbudget (beq_iff_eq.mp h), if_neg hbudget, ih hstart, Nat.zero_add]

/-- What is missing is covered only by what can be freed. -/
theorem missing_covered (w : GroupWorld) (documents : Nat → Document) (budget : Nat)
    (ids : List Nat) {missing : Nat}
    (h : (ids.filter fun id => w.budget id == budget).foldl
      (fun missing id => missing - (documents id).freeableHistory (w.env id) (0, 0) missing)
        missing = 0) :
    missing ≤ entriesOf w ids documents budget := by
  induction ids generalizing missing with
  | nil => exact Nat.le_of_eq h
  | cons id rest ih =>
    rw [entriesOf, GroupWorld.sumOver, List.map_cons, List.sum_cons, ← GroupWorld.sumOver, ← entriesOf]
    rw [List.filter_cons] at h
    by_cases hbudget : w.budget id = budget
    · rw [if_pos (beq_iff_eq.mpr hbudget), List.foldl_cons] at h
      have hrest := ih h
      have hfreed := (documents id).freeableHistory_le (w.env id) missing
      rw [if_pos hbudget]
      omega
    · rw [if_neg fun heq => hbudget (beq_iff_eq.mp heq)] at h
      rw [if_neg hbudget, Nat.zero_add]
      exact ih h

theorem needsOf_eq_zero {members : List Member} {budget : Nat}
    (h : ∀ member ∈ members, w.budget member.id ≠ budget) :
    needsOf w documents members budget = 0 := by
  refine Nat.eq_zero_of_le_zero ((List.sum_le_sum fun member hmember => ?_).trans_eq
    (show (members.map fun _ => 0).sum = 0 by simp))
  rw [if_neg (h member hmember)]

/-- Admissible members fit. -/
theorem groupAdmissible_fits {room : Nat → Nat → Nat}
    (hmono : ∀ turn budget, room turn budget ≤ room (turn + 1) budget)
    (hlimit : ∀ turn budget, room turn budget < usizeMax)
    (havailable : ∀ turn documents charged budget, w.available turn documents charged budget =
      room turn budget - heldOf w ids documents charged budget)
    (hheld : ∀ budget, heldOf w ids documents [] budget ≤ room 0 budget) {members : List Member}
    (h : groupAdmissible w documents ids members = true) :
    Fits w ids room 2 documents [] members := by
  refine ⟨fun budget => (hheld budget).trans (room_le hmono (Nat.zero_le 2) budget),
    fun budget => ?_⟩
  have hnow : heldOf w ids documents [] budget ≤ room 1 budget :=
    (hheld budget).trans (hmono 0 budget)
  have hlarge := hlimit 1 budget
  have hcharged : chargedOf w [] budget = 0 := rfl
  rw [heldOf, hcharged] at hnow
  rw [hcharged]
  by_cases hmember : ∃ member ∈ members, w.budget member.id = budget
  · obtain ⟨member, hmember, rfl⟩ := hmember
    have hfits := List.all_eq_true.mp h member hmember
    have hmissing := missing_covered w documents (w.budget member.id) ids (beq_iff_eq.mp hfits)
    rw [needsOf_fold w documents _ members (Nat.zero_le _), havailable, heldOf, hcharged] at hmissing
    omega
  · have hnone : needsOf w documents members budget = 0 :=
      needsOf_eq_zero fun member hmem heq => hmember ⟨member, hmem, heq⟩
    rw [hnone]
    omega

/-- Staged members ask for what their charge takes. -/
theorem stageMembers_demands {targets : List (Nat × EditTransaction)} {members : List Member}
    (h : stageMembers w documents targets = .ok members) : Demands w documents members := by
  induction targets generalizing members with
  | nil =>
    cases h
    exact fun _ hmem => absurd hmem List.not_mem_nil
  | cons target rest ih =>
    rw [stageMembers] at h
    split at h
    · cases h
    rename_i prepared heap hstage
    split at h
    · cases h
    rename_i others hothers
    cases h
    refine List.forall_mem_cons.mpr ⟨?_, ih hothers⟩
    have hsaturated : (documents target.1).entryCharge (w.env target.1) prepared.entry.edits ≤
        usizeMax := Nat.min_le_right _ _
    show (documents target.1).editDemand (w.env target.1) prepared 0 =
      .edit ((documents target.1).entryCharge (w.env target.1) prepared.entry.edits)
    rw [Document.editDemand, saturatingMul, Nat.zero_mul, saturatingAdd]
    congr 1
    omega

end Admissible

/-! ## §7 Refusals cost no history -/

/-- Different neighbours. -/
theorem neighbours_of_nodup {ids : List Nat} (h : ids.Nodup) :
    ((ids.zip ids.tail).any fun pair => pair.1 == pair.2) = false := by
  induction ids with
  | nil => rfl
  | cons first rest ih =>
    obtain ⟨hfirst, hrest⟩ := List.nodup_cons.mp h
    cases rest with
    | nil => rfl
    | cons second rest =>
      rw [List.tail_cons, List.zip_cons_cons, List.any_cons, Bool.or_eq_false_iff]
      refine ⟨beq_eq_false_iff_ne.mpr fun heq => hfirst ?_, ih hrest⟩
      exact (show first = second from heq) ▸ List.mem_cons_self

theorem groupMembers_of_nodup (documents : List Document)
    (hnodup : (documents.map fun d => d.current.documentId).Nodup) (hfew : 2 ≤ documents.length)
    (hmany : documents.length ≤ MAX_GROUP_DOCUMENTS) :
    ∃ ids, groupMembers documents = .ok ids := by
  have hsorted : ((documents.map fun d => d.current.documentId).insertionSort (· ≤ ·)).Nodup :=
    (List.perm_insertionSort _ _).nodup_iff.mpr hnodup
  rw [groupMembers, if_neg (by omega)]
  dsimp only
  rw [neighbours_of_nodup hsorted]
  exact ⟨_, rfl⟩

/-- Documents that a group edit may lock: its members and free peers. -/
def lockable (w : GroupWorld) (participants : List Nat) : List Nat :=
  participants ++ w.registered.filter fun id => !participants.any fun other => other == id

theorem lockable_nodup (w : GroupWorld) {participants : List Nat} (h : participants.Nodup) :
    (lockable w participants).Nodup := by
  refine List.nodup_append.mpr ⟨h, w.nodup.filter _, fun a ha b hb heq => ?_⟩
  subst heq
  have hnot := (List.mem_filter.mp hb).2
  rw [Bool.not_eq_true', List.any_eq_false] at hnot
  exact hnot a ha (beq_self_eq_true a)

section Refusal

variable {w : GroupWorld}

/-- A group edit that is refused at its commit leaves every history alone. -/
theorem groupCommit_refused {turn group : Nat} {documents : Nat → Document}
    {charged : List Member} {e : Error} (h : (groupCommit w turn group documents charged).1 = .error e) :
    AllSame documents (groupCommit w turn group documents charged).2 := by
  rw [groupCommit] at h ⊢
  split
  · exact AllSame.refl _
  rename_i ids hmembers
  rw [hmembers] at h
  obtain ⟨hreserved, -, -⟩ := reserveSlots_spec (w := w) charged turn documents charged
  dsimp only at h ⊢
  generalize reserveSlots w charged turn documents charged = answer at h hreserved ⊢
  obtain ⟨reserved, documents₁⟩ := answer
  cases reserved with
  | error e => exact hreserved
  | ok u => cases h

/-- A member that was staged and admitted is still valid, as eviction keeps the current state. -/
theorem validatePrepared_charged {documents documents₁ : Nat → Document}
    {targets : List (Nat × EditTransaction)} {members charged : List Member}
    (hstaged : List.Forall₂ (fun target member => member.id = target.1 ∧ target.2.edits ≠ [] ∧
      Staged (w.env target.1) (documents target.1) target.2 member.prepared) targets members)
    (hcharged : List.Forall₂ Charged members charged)
    (hcurrent : ∀ id, (documents₁ id).current = (documents id).current) :
    ∀ member ∈ charged, (documents₁ member.id).validatePrepared member.prepared = .ok () := by
  intro member hmember
  obtain ⟨before, hbefore, hid, -, ⟨_, _, _, hprepared⟩, -⟩ := exists_of_forall₂
    (List.Forall₂.flip (R := fun b a => Charged a b) hcharged) member hmember
  obtain ⟨target, -, htarget, -, hstagedMember⟩ := exists_of_forall₂
    (List.Forall₂.flip (R := fun (b : Member) (a : Nat × EditTransaction) => b.id = a.1 ∧
      a.2.edits ≠ [] ∧ Staged (w.env a.1) (documents a.1) a.2 b.prepared) hstaged) before hbefore
  obtain ⟨hdocument, hrevision, -⟩ := hstagedMember.ids
  rw [← htarget] at hdocument hrevision
  rw [Document.validatePrepared, hprepared, hid, hcurrent, if_neg (not_not.mpr hdocument),
    if_neg (not_not.mpr hrevision)]

/-- While nobody disturbs its budgets, a refused group edit leaves every history alone. -/
theorem applyGroup_undisturbed (group : Nat) {documents : Nat → Document}
    (hroot : ∀ id, RootWf .resident (documents id).current.root)
    (hids : ∀ id, (documents id).current.documentId = id)
    (targets : List (Participant × EditTransaction))
    (hnodup : (targets.map fun target => target.1.id).Nodup) (hfew : 2 ≤ targets.length)
    (hmany : targets.length ≤ MAX_GROUP_DOCUMENTS)
    (hundisturbed : Undisturbed w (lockable w (targets.map fun target => target.1.id)) documents)
    {e : Error} (h : (applyGroup w group documents targets).1 = .error e) :
    AllSame documents (applyGroup w group documents targets).2 := by
  rw [applyGroup] at h ⊢
  split
  · exact AllSame.refl _
  rename_i members hstage
  rw [hstage] at h
  have hstaged := stageMembers_spec hroot hstage
  have hmemberIds : members.map Member.id = targets.map fun target => target.1.id := by
    rw [map_eq_of_forall₂ (f := Prod.fst) hstaged fun a b h => h.1, List.map_map]
    rfl
  have hlength : members.length = targets.length := by
    rw [← List.length_map (f := Member.id), hmemberIds, List.length_map]
  dsimp only at h ⊢
  cases hrelieve : (pressured w documents members && groupAdmissible w documents
      (members.map Member.id ++ if pressured w documents members = true then
        w.registered.filter fun id => !members.any fun member => member.id == id else [])
      members) with
  | false =>
    rw [hrelieve] at h
    obtain ⟨-, hsame, hadmitted⟩ := admitMembers_spec (w := w) false (members.map Member.id ++
      if pressured w documents members = true then
        w.registered.filter fun id => !members.any fun member => member.id == id else []) 2
      documents [] members
    have hsame := hsame rfl
    generalize admitMembers w false _ 2 documents [] members = answer at h hsame ⊢
    obtain ⟨result, documents₁⟩ := answer
    cases result with
    | error e => exact hsame
    | ok charged =>
      exact hsame.trans (groupCommit_refused h)
  | true =>
    -- The whole group was found admissible, so nothing refuses it any more.
    exfalso
    rw [hrelieve] at h
    obtain ⟨hpressured, hadmissible⟩ := Bool.and_eq_true_iff.mp hrelieve
    have hlocked : (members.map Member.id ++ if pressured w documents members = true then
        w.registered.filter fun id => !members.any fun member => member.id == id else []) =
        lockable w (targets.map fun target => target.1.id) := by
      rw [if_pos hpressured, lockable, ← hmemberIds]
      congr 1
      refine List.filter_congr fun id _ => ?_
      rw [List.any_map]
      rfl
    rw [hlocked] at h hadmissible
    obtain ⟨hlayout, room, hmono, hlimit, hheld, havailable⟩ := hundisturbed
    have hnodupMembers : (members.map Member.id).Nodup := hmemberIds ▸ hnodup
    have hin : ∀ member ∈ members, member.id ∈ lockable w (targets.map fun target => target.1.id) :=
      fun member hmember => List.mem_append_left _ (hmemberIds ▸ List.mem_map_of_mem hmember)
    have hfits := groupAdmissible_fits hmono hlimit havailable hheld hadmissible
    obtain ⟨charged, documents₁, haccept, hslots, hlimited⟩ := admitMembers_ok hmono hlimit havailable
      hlayout (lockable_nodup w hnodup) (Nat.le_succ 1) hnodupMembers hin
      (stageMembers_demands hstage) hfits
    obtain ⟨hevict, -, hadmitted⟩ := admitMembers_spec (w := w) true
      (lockable w (targets.map fun target => target.1.id)) 2 documents [] members
    rw [haccept] at h hevict hadmitted
    obtain ⟨admitted, heq, hcharged⟩ := hadmitted charged rfl
    have hall : charged = admitted := heq
    subst hall
    have hchargedIds : charged.map Member.id = members.map Member.id :=
      map_eq_of_forall₂ hcharged fun a b h => h.1
    have hcurrent : ∀ id, (documents₁ id).current = (documents id).current :=
      fun id => (hevict id).current
    have hdocIds : (charged.map fun member => documents₁ member.id).map
        (fun d => d.current.documentId) = members.map Member.id := by
      rw [List.map_map, ← hchargedIds]
      refine List.map_congr_left fun member _ => ?_
      rw [Function.comp_apply, hcurrent, hids]
    have hchargedLength : charged.length = targets.length := by
      rw [← List.length_map (f := Member.id), hchargedIds, List.length_map, hlength]
    obtain ⟨memberIds, hmembers⟩ := groupMembers_of_nodup
      (charged.map fun member => documents₁ member.id) (hdocIds ▸ hnodupMembers)
      (by rw [List.length_map]; omega) (by rw [List.length_map]; omega)
    have hchargedMem : ∀ member ∈ charged, member.id ∈ members.map Member.id :=
      fun member hmember => hchargedIds ▸ List.mem_map_of_mem hmember
    have hreserve := reserveSlots_ok hlayout hlimited charged (3 * members.length + 2)
      (fun member hmember => List.mem_append_left _ (hmemberIds ▸ hchargedMem member hmember))
      (fun member hmember => hslots member.id (.inr (hchargedMem member hmember)))
      (validatePrepared_charged hstaged hcharged hcurrent)
    dsimp only at h
    rw [groupCommit, hmembers] at h
    dsimp only at h
    rw [hreserve] at h
    cases h

end Refusal

end BareLine
