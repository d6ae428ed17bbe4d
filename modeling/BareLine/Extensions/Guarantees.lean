import BareLine.Extensions.Broker

/-!
# Extension edits pass only with a live grant

- §1: what `expire` and `authorize` do to a session.
- §2: the bounds of a session, kept by every call.
- §3: what a call can do to one transaction.
- §4: what a committed transaction has behind it.
- §5: what the checks of a commit accept.
- §6: whole runs.
-/

namespace BareLine.Extensions

open Lib

/-! ## §1 Expiry and authorisation -/

namespace ExtensionSession

/-- The session differs in its requests and transactions only. -/
structure SameGrants (s s' : ExtensionSession) : Prop where
  id : s'.id = s.id
  generation : s'.generation = s.generation
  grants : s'.grants = s.grants
  enabled : s'.enabled = s.enabled
  budget : s'.budget = s.budget

theorem SameGrants.refl (s : ExtensionSession) : SameGrants s s := ⟨rfl, rfl, rfl, rfl, rfl⟩

theorem SameGrants.trans {s s' s'' : ExtensionSession} (h : SameGrants s s')
    (h' : SameGrants s' s'') : SameGrants s s'' :=
  ⟨h'.id.trans h.id, h'.generation.trans h.generation, h'.grants.trans h.grants,
    h'.enabled.trans h.enabled, h'.budget.trans h.budget⟩

private theorem foldl_cancel (s : ExtensionSession) (ids : List Nat) :
    SameGrants s (ids.foldl cancel s) ∧
    (∀ k d, (ids.foldl cancel s).pending.lookup k = some d ↔
      k ∉ ids ∧ s.pending.lookup k = some d) ∧
    ∀ k st, (ids.foldl cancel s).staged.lookup k = some st ↔
      k ∉ ids ∧ s.staged.lookup k = some st := by
  induction ids generalizing s with
  | nil => exact ⟨.refl s, fun k d => by simp, fun k st => by simp⟩
  | cons id ids ih =>
    obtain ⟨hsame, hpending, hstaged⟩ := ih (s.cancel id)
    have hcancel : SameGrants s (s.cancel id) := ⟨rfl, rfl, rfl, rfl, rfl⟩
    refine ⟨hcancel.trans hsame, fun k d => ?_, fun k st => ?_⟩
    · rw [List.foldl_cons, hpending]
      by_cases hk : k = id <;> simp [cancel, hk]
    · rw [List.foldl_cons, hstaged]
      by_cases hk : k = id <;> simp [cancel, hk]

theorem expire_same (s : ExtensionSession) (now : Nat) : SameGrants s (s.expire now) :=
  (foldl_cancel s _).1

/-- Exactly the requests whose deadline has come are gone. -/
theorem expire_pending {s : ExtensionSession} {now k d : Nat} :
    (s.expire now).pending.lookup k = some d ↔ s.pending.lookup k = some d ∧ now < d := by
  rw [expire, (foldl_cancel s _).2.1 k, Table.mem_keysWhere]
  constructor
  · rintro ⟨hkept, hlookup⟩
    exact ⟨hlookup, by simpa [hlookup] using hkept⟩
  · rintro ⟨hlookup, hlt⟩
    exact ⟨by simpa [hlookup] using hlt, hlookup⟩

/-- A transaction stays as it was, or its request has expired. -/
theorem expire_staged {s : ExtensionSession} {now k : Nat} {st : Staged} :
    (s.expire now).staged.lookup k = some st ↔
      s.staged.lookup k = some st ∧ ∀ d, s.pending.lookup k = some d → now < d := by
  rw [expire, (foldl_cancel s _).2.2 k, Table.mem_keysWhere]
  constructor
  · rintro ⟨hkept, hlookup⟩
    exact ⟨hlookup, fun d hd => by simpa [hd] using hkept⟩
  · rintro ⟨hlookup, hlt⟩
    refine ⟨?_, hlookup⟩
    rintro ⟨d, hd, hle⟩
    exact absurd (hlt d hd) (by simpa using hle)

end ExtensionSession

/-- A message whose sender holds, now, the right to edit the document. -/
structure Granted (s : ExtensionSession) (document generation : Nat) (m : Envelope) : Prop where
  sender : m.extensionId = s.id
  enabled : s.enabled = true
  current : s.generation = generation
  context : m.context = ⟨.documentEdit, .document document, generation⟩
  grant : ⟨.documentEdit, .document document⟩ ∈ s.grants

theorem Granted.of_same {s s' : ExtensionSession} (hs : s.SameGrants s') {document generation : Nat}
    {m : Envelope} (h : Granted s' document generation m) : Granted s document generation m :=
  ⟨h.sender.trans hs.id, hs.enabled ▸ h.enabled, hs.generation ▸ h.current, h.context,
    hs.grants ▸ h.grant⟩

theorem ExtensionSession.checkGrant_ok {s : ExtensionSession} {c : Capability} {sc : Scope}
    (h : s.checkGrant c sc = .ok ()) : ⟨c, sc⟩ ∈ s.grants := by
  unfold checkGrant at h
  split_ifs at h with hcond
  obtain ⟨-, hany⟩ := Bool.and_eq_true_iff.mp hcond
  obtain ⟨g, hg, hmatch⟩ := List.any_eq_true.mp hany
  obtain ⟨hc, hsc⟩ := Bool.and_eq_true_iff.mp hmatch
  have heq : g = ⟨c, sc⟩ := by
    cases g
    exact congrArg₂ Grant.mk (beq_iff_eq.mp hc) (beq_iff_eq.mp hsc)
  exact heq ▸ hg

/-- An authorised request that edits a document carries a live grant for it. -/
theorem ExtensionSession.authorize_granted {s : ExtensionSession} {m : Envelope} {document : Nat}
    (h : s.authorize m = .ok ())
    (hexpected : s.expected m.request = .ok (some (.documentEdit, .document document))) :
    Granted s document s.generation m := by
  unfold authorize at h
  split_ifs at h with hdenied
  simp only [hexpected] at h
  split_ifs at h with hscope
  simp only [Bool.or_eq_true, Bool.not_eq_true', bne_iff_ne, ne_eq, not_or, not_not] at hdenied hscope
  obtain ⟨⟨⟨henabled, hsender⟩, -⟩, hgeneration⟩ := hdenied
  refine ⟨hsender, by simpa using henabled, rfl, ?_, checkGrant_ok h⟩
  rw [← hscope.1, ← hscope.2, ← hgeneration]

/-! ## §2 What a call can do -/

/-- The time of a call. -/
def Op.clock : Op → Option Nat
  | .start _ now | .beginEdits _ _ now | .append _ now | .commitChecked _ _ now _ | .expire now
  | .acceptReply _ _ now => some now
  | .approve _ | .revoke | .cancel _ => none

/-- One more request waits. -/
def ExtensionSession.enqueue (s : ExtensionSession) (id now : Nat) : ExtensionSession :=
  { s with pending := s.pending.insert id (now + s.budget.timeoutMs) }

def ExtensionSession.stage (s : ExtensionSession) (k : Nat) (st : Staged) : ExtensionSession :=
  { s with staged := s.staged.insert k st }

section Calls

variable (postcard : Bytes → Option SeqAccess)

/-- Everything one call can do to a session, with its answer. -/
inductive Change (s : ExtensionSession) : Op → ExtensionSession → Outcome → Prop
  | approved (grants : List Grant) : Change s (.approve grants) (s.approve grants) (.ok none)
  | revoked : Change s .revoke s.revoke (.ok none)
  | canceled (k : Nat) : Change s (.cancel k) (s.cancel k) (.ok none)
  | expired (now : Nat) : Change s (.expire now) (s.expire now) (.ok none)
  /-- `begin_edits` refuses another request or another revision before it looks at the clock. -/
  | unseen (m : Envelope) (current now : Nat) (e : BrokerError)
      (h : ∀ document, m.request ≠ .beginEdits document current) :
      Change s (.beginEdits m current now) s (.error e)
  | refused {op : Op} {now : Nat} (e : BrokerError) (hclock : op.clock = some now) :
      Change s op (s.expire now) (.error e)
  | dropped {op : Op} {now : Nat} (k : Nat) (e : BrokerError) (hclock : op.clock = some now) :
      Change s op ((s.expire now).cancel k) (.error e)
  | started (m : Envelope) (now : Nat)
      (hroom : (s.expire now).pending.size < MAX_PENDING)
      (hfresh : (s.expire now).pending.lookup m.requestId = none) :
      Change s (.start m now) ((s.expire now).enqueue m.requestId now) (.ok none)
  | begun (m : Envelope) (document revision now : Nat)
      (hroom : (s.expire now).pending.size < MAX_PENDING)
      (hfresh : (s.expire now).pending.lookup m.requestId = none)
      (hrequest : m.request = .beginEdits document revision)
      (hgranted : Granted (s.expire now) document (s.expire now).generation m) :
      Change s (.beginEdits m revision now)
        (((s.expire now).enqueue m.requestId now).stage m.requestId ⟨document, revision, []⟩)
        (.ok none)
  | appended (m : Envelope) (transaction now : Nat) (chunk : Bytes) (staged : Staged)
      (hrequest : m.request = .appendChunk transaction chunk)
      (hstaged : (s.expire now).staged.lookup transaction = some staged)
      (hgranted : Granted (s.expire now) staged.document (s.expire now).generation m)
      (hroom : saturatingAdd ((s.expire now).staged.weight fun st => st.bytes.length)
        chunk.length ≤ MEMORY_LIMIT / 2) :
      Change s (.append m now)
        ((s.expire now).stage transaction
          ⟨staged.document, staged.revision, staged.bytes ++ chunk⟩)
        (.ok none)
  | answered (k generation now : Nat) :
      Change s (.acceptReply k generation now) ((s.expire now).cancel k) (.ok none)
  | committed (m : Envelope) (transaction revision now : Nat)
      (validate : List TextEdit → Except BrokerError Unit) (staged : Staged)
      (edits : List TextEdit) (hrequest : m.request = .commitEdits transaction revision)
      (hstaged : (s.expire now).staged.lookup transaction = some staged)
      (hgranted : Granted (s.expire now) staged.document (s.expire now).generation m)
      (hrevision : staged.revision = revision)
      (hdecoded : (postcard staged.bytes).bind visitSeq = some edits)
      (hvalid : validate edits = .ok ()) :
      Change s (.commitChecked m revision now validate) ((s.expire now).cancel transaction)
        (.ok (some edits))

variable {postcard}

theorem start_cases (s : ExtensionSession) (m : Envelope) (now : Nat) :
    (∃ e, s.start m now = (s.expire now, .error e)) ∨
    ((s.expire now).authorize m = .ok () ∧ (s.expire now).pending.lookup m.requestId = none ∧
      (s.expire now).pending.size < MAX_PENDING ∧
      s.start m now = ((s.expire now).enqueue m.requestId now, .ok ())) := by
  unfold ExtensionSession.start
  cases hauthorize : (s.expire now).authorize m with
  | error e => exact Or.inl ⟨e, by simp only [hauthorize]⟩
  | ok u =>
    simp only [hauthorize]
    split_ifs with hdup hfull
    · exact Or.inl ⟨_, rfl⟩
    · exact Or.inl ⟨_, rfl⟩
    · exact Or.inr ⟨trivial, by simpa using hdup, Nat.lt_of_not_le hfull, rfl⟩

theorem beginEdits_change (s : ExtensionSession) (m : Envelope) (current now : Nat) :
    Change postcard s (.beginEdits m current now)
      (s.step postcard (.beginEdits m current now)).1
      (s.step postcard (.beginEdits m current now)).2 := by
  by_cases hmatch : ∃ document, m.request = .beginEdits document current
  · obtain ⟨document, hrequest⟩ := hmatch
    simp only [ExtensionSession.step, replied, ExtensionSession.beginEdits, hrequest, ne_eq,
      not_true_eq_false, if_false]
    rcases start_cases s m now with ⟨e, hstart⟩ | ⟨hauthorize, hfresh, hroom, hstart⟩
    · simp only [hstart]
      exact .refused e rfl
    · simp only [hstart]
      have hexpected : (s.expire now).expected m.request =
          .ok (some (.documentEdit, .document document)) := by
        rw [hrequest]
        rfl
      have hgranted := ExtensionSession.authorize_granted hauthorize hexpected
      exact .begun m document current now hroom hfresh hrequest hgranted
  · have hother := not_exists.mp hmatch
    have hresult : ∃ e, s.beginEdits m current now = (s, .error e) := by
      unfold ExtensionSession.beginEdits
      split
      · rename_i document revision hrequest
        have hne : revision ≠ current := fun h => hother document (h ▸ hrequest)
        exact ⟨_, if_pos hne⟩
      · exact ⟨_, rfl⟩
    obtain ⟨e, hresult⟩ := hresult
    simp only [ExtensionSession.step, replied, hresult]
    exact .unseen m current now e hother

theorem append_change (s : ExtensionSession) (m : Envelope) (now : Nat) :
    Change postcard s (.append m now) (s.step postcard (.append m now)).1
      (s.step postcard (.append m now)).2 := by
  simp only [ExtensionSession.step, replied, ExtensionSession.append]
  cases hauthorize : (s.expire now).authorize m with
  | error e => exact .refused e rfl
  | ok u =>
    cases hrequest : m.request with
    | appendChunk transaction chunk =>
      simp only []
      split_ifs with hlong hfull
      · exact .dropped transaction _ rfl
      · exact .dropped transaction _ rfl
      · cases hstaged : (s.expire now).staged.lookup transaction with
        | none => exact .refused _ rfl
        | some staged =>
          have hexpected : (s.expire now).expected m.request =
              .ok (some (.documentEdit, .document staged.document)) := by
            rw [hrequest, ExtensionSession.expected, hstaged]
          have hgranted := ExtensionSession.authorize_granted hauthorize hexpected
          exact .appended m transaction now chunk staged hrequest hstaged hgranted
            (Nat.le_of_not_lt hfull)
    | _ => exact .refused _ rfl

theorem commitChecked_change (s : ExtensionSession) (m : Envelope) (current now : Nat)
    (validate : List TextEdit → Except BrokerError Unit) :
    Change postcard s (.commitChecked m current now validate)
      (s.step postcard (.commitChecked m current now validate)).1
      (s.step postcard (.commitChecked m current now validate)).2 := by
  simp only [ExtensionSession.step, replied, ExtensionSession.commitChecked]
  cases hauthorize : (s.expire now).authorize m with
  | error e => exact .refused e rfl
  | ok u =>
    cases hrequest : m.request with
    | commitEdits transaction revision =>
      cases hstaged : (s.expire now).staged.lookup transaction with
      | none =>
        simp only [hstaged]
        exact .refused _ rfl
      | some staged =>
        simp only [hstaged]
        split_ifs with hstale
        · exact .dropped transaction _ rfl
        · have hsame := not_or.mp hstale
          cases hdecoded : (postcard staged.bytes).bind visitSeq with
          | none => exact .dropped transaction _ rfl
          | some edits =>
            cases hvalid : validate edits with
            | error e =>
              simp only [hvalid]
              exact .dropped transaction _ rfl
            | ok u =>
              simp only [hvalid]
              have hexpected : (s.expire now).expected m.request =
                  .ok (some (.documentEdit, .document staged.document)) := by
                rw [hrequest, ExtensionSession.expected, hstaged]
              have hgranted := ExtensionSession.authorize_granted hauthorize hexpected
              obtain rfl : revision = current := by simpa using hsame.1
              exact .committed m transaction revision now validate staged edits hrequest hstaged
                hgranted (by simpa using hsame.2) hdecoded hvalid
    | _ => exact .refused _ rfl

variable (postcard) in
/-- Every call does one of these. -/
theorem step_change (s : ExtensionSession) (op : Op) :
    Change postcard s op (s.step postcard op).1 (s.step postcard op).2 := by
  cases op with
  | approve grants => exact .approved grants
  | revoke => exact .revoked
  | start m now =>
    simp only [ExtensionSession.step, replied]
    rcases start_cases s m now with ⟨e, hstart⟩ | ⟨-, hfresh, hroom, hstart⟩
    · rw [hstart]
      exact .refused e rfl
    · rw [hstart]
      exact .started m now hroom hfresh
  | beginEdits m current now => exact beginEdits_change s m current now
  | append m now => exact append_change s m now
  | commitChecked m current now validate => exact commitChecked_change s m current now validate
  | cancel k => exact .canceled k
  | expire now => exact .expired now
  | acceptReply k generation now =>
    simp only [ExtensionSession.step, replied, ExtensionSession.acceptReply]
    split_ifs with hdenied hpending
    · exact .refused _ rfl
    · exact .answered k generation now
    · exact .refused _ rfl

end Calls

/-- Only a commit hands out edits. -/
theorem Change.yields {postcard : Bytes → Option SeqAccess} {s s' : ExtensionSession} {op : Op}
    {edits : List TextEdit} (h : Change postcard s op s' (.ok (some edits))) :
    ∃ m tx revision now validate staged, op = .commitChecked m revision now validate ∧
      m.request = .commitEdits tx revision ∧ (s.expire now).staged.lookup tx = some staged ∧
      Granted (s.expire now) staged.document (s.expire now).generation m ∧
      staged.revision = revision ∧ (postcard staged.bytes).bind visitSeq = some edits ∧
      validate edits = .ok () := by
  cases h with
  | committed m tx revision now validate staged _ hrequest hstaged hgranted hrevision hdecoded
      hvalid =>
    exact ⟨m, tx, revision, now, validate, staged, rfl, hrequest, hstaged, hgranted, hrevision,
      hdecoded, hvalid⟩

/-! ## §3 Bounds -/


/-- What holds of a session after every call. -/
structure Bounded (s : ExtensionSession) : Prop where
  staged_pending : ∀ k, (s.staged.lookup k).isSome → (s.pending.lookup k).isSome
  pending_le : s.pending.size ≤ MAX_PENDING
  staged_le : s.staged.weight (fun st => st.bytes.length) ≤ MEMORY_LIMIT / 2

theorem Bounded.cleared {s : ExtensionSession} (hp : s.pending = .empty) (hs : s.staged = .empty) :
    Bounded s := by
  refine ⟨fun k hk => ?_, ?_, ?_⟩
  · rw [hs] at hk
    cases hk
  · rw [hp]
    exact Nat.zero_le _
  · rw [hs]
    exact Nat.zero_le _

/-- Dropping a request with its transaction. -/
theorem Bounded.remove {s : ExtensionSession} (h : Bounded s) (k : Nat) :
    Bounded { s with pending := s.pending.remove k, staged := s.staged.remove k } := by
  refine ⟨fun j hj => ?_, ?_, ?_⟩
  · simp only [Table.lookup_remove] at hj ⊢
    split_ifs at hj ⊢ with hjk
    · exact hj
    · exact h.staged_pending j hj
  · exact Nat.le_trans (Table.size_remove_le _ _) h.pending_le
  · exact Nat.le_trans (Table.weight_remove_le _ _ _) h.staged_le

theorem Bounded.cancel {s : ExtensionSession} (h : Bounded s) (k : Nat) : Bounded (s.cancel k) :=
  h.remove k

theorem Bounded.expire {s : ExtensionSession} (h : Bounded s) (now : Nat) :
    Bounded (s.expire now) := by
  unfold ExtensionSession.expire
  generalize s.pending.keysWhere _ = ids
  induction ids generalizing s with
  | nil => exact h
  | cons id ids ih => exact ih (h.cancel id)

theorem Bounded.enqueue {s : ExtensionSession} (h : Bounded s)
    (hroom : s.pending.size < MAX_PENDING) (id now : Nat) : Bounded (s.enqueue id now) := by
  refine ⟨fun k hk => ?_, ?_, h.staged_le⟩
  · simp only [ExtensionSession.enqueue, Table.lookup_insert]
    split_ifs
    · rfl
    · exact h.staged_pending k hk
  · exact Nat.le_trans (Table.size_insert_le _ _ _) hroom

/-- Staging for a pending request, within the limit. -/
theorem Bounded.stage {s : ExtensionSession} (h : Bounded s) {k : Nat} {st : Staged}
    (hpending : (s.pending.lookup k).isSome)
    (hroom : st.bytes.length + (s.staged.remove k).weight (fun st => st.bytes.length) ≤
      MEMORY_LIMIT / 2) : Bounded (s.stage k st) := by
  refine ⟨fun j hj => ?_, h.pending_le, ?_⟩
  · simp only [ExtensionSession.stage, Table.lookup_insert] at hj ⊢
    split_ifs at hj with hjk
    · exact hjk ▸ hpending
    · exact h.staged_pending j hj
  · rw [ExtensionSession.stage, Table.weight_insert]
    exact hroom

/-- The limit is far below where a sum of lengths saturates. -/
theorem add_le_of_saturatingAdd_le {a b limit : Nat} (hlimit : limit < usizeMax)
    (h : saturatingAdd a b ≤ limit) : a + b ≤ limit := by
  unfold saturatingAdd at h
  omega

theorem Bounded.change {postcard : Bytes → Option SeqAccess} {s s' : ExtensionSession} {op : Op}
    {out : Outcome} (h : Bounded s) (hc : Change postcard s op s' out) : Bounded s' := by
  cases hc with
  | approved grants => exact .cleared rfl rfl
  | revoked => exact .cleared rfl rfl
  | canceled k => exact h.cancel k
  | expired now => exact h.expire now
  | unseen m current now e hother => exact h
  | refused e hclock => exact h.expire _
  | dropped k e hclock => exact (h.expire _).cancel k
  | started m now hroom hfresh => exact (h.expire now).enqueue hroom _ _
  | begun m document revision now hroom hfresh hrequest hgranted =>
    have hbase := h.expire now
    refine (hbase.enqueue hroom _ _).stage ?_ ?_
    · simp only [ExtensionSession.enqueue, Table.lookup_insert_self]
      rfl
    · have hle := Nat.le_trans (Table.weight_remove_le (fun st => st.bytes.length)
        (s.expire now).staged m.requestId) hbase.staged_le
      simpa [ExtensionSession.enqueue] using hle
  | appended m transaction now chunk staged hrequest hstaged hgranted hroom =>
    have hbase := h.expire now
    refine hbase.stage (hbase.staged_pending transaction (by rw [hstaged]; rfl)) ?_
    have htotal := add_le_of_saturatingAdd_le (by decide) hroom
    rw [Table.weight_eq_add_remove hstaged] at htotal
    simp only [List.length_append]
    omega
  | answered k generation now => exact (h.expire now).cancel k
  | committed m transaction revision now validate staged edits hrequest hstaged hgranted hrevision
      hdecoded hvalid => exact (h.expire now).cancel transaction

/-- After a call that looked at the clock, every deadline lies ahead. -/
theorem Change.deadline {postcard : Bytes → Option SeqAccess} {s s' : ExtensionSession} {op : Op}
    {out : Outcome} (hc : Change postcard s op s' out) {now k d : Nat}
    (hclock : op.clock = some now)
    (hseen : ∀ m revision, op = .beginEdits m revision now →
      ∃ document, m.request = .beginEdits document revision)
    (hd : s'.pending.lookup k = some d) : now < d := by
  have hcancel : ∀ t j, ((s.expire t).cancel j).pending.lookup k = some d → t < d := by
    intro t j hlookup
    simp only [ExtensionSession.cancel, Table.lookup_remove] at hlookup
    split_ifs at hlookup
    exact (ExtensionSession.expire_pending.mp hlookup).2
  have henqueue : ∀ t id, ((s.expire t).enqueue id t).pending.lookup k = some d → t < d := by
    intro t id hlookup
    simp only [ExtensionSession.enqueue, Table.lookup_insert] at hlookup
    split_ifs at hlookup
    · obtain rfl := Option.some.inj hlookup
      have hpos : 0 < (s.expire t).budget.timeoutMs := by
        cases (s.expire t).budget <;> decide
      omega
    · exact (ExtensionSession.expire_pending.mp hlookup).2
  cases hc with
  | approved grants => cases hclock
  | revoked => cases hclock
  | canceled j => cases hclock
  | expired t =>
    cases hclock
    exact (ExtensionSession.expire_pending.mp hd).2
  | unseen m current t e hother =>
    cases hclock
    obtain ⟨document, hrequest⟩ := hseen m current rfl
    exact absurd hrequest (hother document)
  | refused e hclock' =>
    obtain rfl := Option.some.inj (hclock.symm.trans hclock')
    exact (ExtensionSession.expire_pending.mp hd).2
  | dropped j e hclock' =>
    obtain rfl := Option.some.inj (hclock.symm.trans hclock')
    exact hcancel _ j hd
  | started m t hroom hfresh =>
    cases hclock
    exact henqueue _ _ hd
  | begun m document revision t hroom hfresh hrequest hgranted =>
    cases hclock
    exact henqueue _ _ hd
  | appended m transaction t chunk staged hrequest hstaged hgranted hroom =>
    cases hclock
    exact (ExtensionSession.expire_pending.mp hd).2
  | answered j generation t =>
    cases hclock
    exact hcancel _ j hd
  | committed m transaction revision t validate staged edits hrequest hstaged hgranted hrevision
      hdecoded hvalid =>
    cases hclock
    exact hcancel _ transaction hd

/-! ## §4 One transaction -/

/-- The event accepts the begin of a transaction. -/
structure Event.Begins (e : Event) (tx : Nat) (m : Envelope) (document revision now : Nat) :
    Prop where
  op : e.op = .beginEdits m revision now
  accepted : e.outcome = .ok none
  id : m.requestId = tx
  request : m.request = .beginEdits document revision

/-- The chunk the event adds to a transaction. -/
def Event.chunk (tx : Nat) (e : Event) : Option Bytes :=
  match e.op, e.outcome with
  | .append m _, .ok _ =>
    match m.request with
    | .appendChunk transaction chunk => if transaction = tx then some chunk else none
    | _ => none
  | _, _ => none

/-- The event hands out the edits of a transaction. -/
def Event.Yields (e : Event) (tx : Nat) : Prop :=
  ∃ m revision now validate edits, e.op = .commitChecked m revision now validate ∧
    m.request = .commitEdits tx revision ∧ e.outcome = .ok (some edits)

/-- The event leaves a transaction open, and adds a chunk to it under its grant only. -/
structure Undisturbed (tx document generation : Nat) (e : Event) : Prop where
  approve : ∀ grants, e.op ≠ .approve grants
  revoke : e.op ≠ .revoke
  cancel : e.op ≠ .cancel tx
  begins : ∀ m d r now, ¬e.Begins tx m d r now
  yields : ¬e.Yields tx
  chunk : ∀ m now c, e.op = .append m now → e.chunk tx = some c →
    Granted e.before document generation m

/-- What stands behind the bytes staged for a transaction: its begin was granted, nothing
ended it since, and the bytes are the chunks accepted since, in order. -/
structure Backing (s : ExtensionSession) (tx : Nat) (st : Staged) (begun : Event)
    (newer : List Event) (m : Envelope) (now : Nat) : Prop where
  begins : begun.Begins tx m st.document st.revision now
  granted : Granted begun.before st.document s.generation m
  deadline : s.pending.lookup tx = some (now + s.budget.timeoutMs)
  undisturbed : ∀ e ∈ newer, Undisturbed tx st.document s.generation e
  bytes : (newer.filterMap (Event.chunk tx)).flatten = st.bytes

/-- A transaction that was begun in the past and is still open. -/
def Opened (past : List Event) (s : ExtensionSession) (tx : Nat) (st : Staged) : Prop :=
  ∃ older begun newer m now, past = older ++ begun :: newer ∧ Backing s tx st begun newer m now

/-- One more event that leaves the transaction open. -/
theorem Opened.snoc {past : List Event} {s s' : ExtensionSession} {tx : Nat} {st st' : Staged}
    {e : Event} (h : Opened past s tx st) (hsame : s.SameGrants s')
    (hpending : s'.pending.lookup tx = s.pending.lookup tx)
    (hdocument : st'.document = st.document) (hrevision : st'.revision = st.revision)
    (hbytes : st'.bytes = st.bytes ++ (e.chunk tx).getD [])
    (he : Undisturbed tx st.document s.generation e) : Opened (past ++ [e]) s' tx st' := by
  obtain ⟨older, begun, newer, m, now, rfl, hback⟩ := h
  refine ⟨older, begun, newer ++ [e], m, now, by simp, ?_⟩
  constructor
  · rw [hdocument, hrevision]
    exact hback.begins
  · rw [hdocument, hsame.generation]
    exact hback.granted
  · rw [hpending, hsame.budget]
    exact hback.deadline
  · rw [hdocument, hsame.generation]
    intro e' he'
    rcases List.mem_append.mp he' with hold | hnew
    · exact hback.undisturbed e' hold
    · rw [List.mem_singleton.mp hnew]
      exact he
  · rw [List.filterMap_append, List.flatten_append, hback.bytes, hbytes]
    cases hchunk : e.chunk tx with
    | none => simp [hchunk]
    | some c => simp [hchunk]

/-- A refusal leaves every transaction that survives it open. -/
theorem undisturbed_error {s s' : ExtensionSession} {op : Op} {now : Nat} (e : BrokerError)
    (hclock : op.clock = some now) (tx document generation : Nat) :
    Undisturbed tx document generation ⟨s, op, s', .error e⟩ ∧
      Event.chunk tx ⟨s, op, s', .error e⟩ = none := by
  have hchunk : Event.chunk tx ⟨s, op, s', .error e⟩ = none := by
    cases op <;> rfl
  refine ⟨⟨?_, ?_, ?_, ?_, ?_, ?_⟩, hchunk⟩
  · rintro grants rfl
    cases hclock
  · rintro rfl
    cases hclock
  · rintro rfl
    cases hclock
  · intro m d r now hbegins
    cases hbegins.accepted
  · rintro ⟨m, revision, now, validate, edits, -, -, hout⟩
    cases hout
  · intro m now c hop hsome
    rw [hchunk] at hsome
    cases hsome

/-- A call that leaves a transaction alone. -/
inductive Idle (tx : Nat) : Op → Prop
  | start (m : Envelope) (now : Nat) : Idle tx (.start m now)
  | beginEdits {m : Envelope} (current now : Nat) (h : m.requestId ≠ tx) :
      Idle tx (.beginEdits m current now)
  | commitChecked {m : Envelope} {transaction revision : Nat} (current now : Nat)
      (validate : List TextEdit → Except BrokerError Unit)
      (hrequest : m.request = .commitEdits transaction revision) (h : transaction ≠ tx) :
      Idle tx (.commitChecked m current now validate)
  | cancel {k : Nat} (h : k ≠ tx) : Idle tx (.cancel k)
  | expire (now : Nat) : Idle tx (.expire now)
  | acceptReply (k generation now : Nat) : Idle tx (.acceptReply k generation now)

theorem undisturbed_idle {s s' : ExtensionSession} {op : Op} {out : Outcome} {tx : Nat}
    (hop : Idle tx op) (document generation : Nat) :
    Undisturbed tx document generation ⟨s, op, s', out⟩ ∧ Event.chunk tx ⟨s, op, s', out⟩ = none := by
  refine ⟨⟨?_, ?_, ?_, ?_, ?_, ?_⟩, by cases hop <;> rfl⟩
  · rintro grants rfl
    cases hop
  · rintro rfl
    cases hop
  · rintro rfl
    cases hop with
    | cancel hne => exact hne rfl
  · rintro m document revision now ⟨rfl, -, hid, -⟩
    cases hop with
    | beginEdits _ _ hne => exact hne hid
  · rintro ⟨m, revision, now, validate, edits, rfl, hrequest, -⟩
    cases hop with
    | commitChecked _ _ _ hother hne =>
      rw [hrequest] at hother
      exact hne (Request.commitEdits.inj hother).1.symm
  · rintro m now c rfl
    cases hop

/-- A chunk goes to one transaction, under the grant for its document. -/
theorem undisturbed_appended {s s' : ExtensionSession} {m : Envelope} {now tx transaction : Nat}
    {chunk : Bytes} (hrequest : m.request = .appendChunk transaction chunk)
    {document generation : Nat} (hgranted : tx = transaction → Granted s document generation m) :
    Undisturbed tx document generation ⟨s, .append m now, s', .ok none⟩ := by
  refine ⟨by simp, by simp, by simp, ?_, ?_, ?_⟩
  · intro m' d r now' hbegins
    cases hbegins.op
  · rintro ⟨m', revision', now', validate, edits, hop, -⟩
    cases hop
  · intro m' now' c hop hsome
    cases hop
    simp only [Event.chunk, hrequest] at hsome
    split_ifs at hsome with htx
    exact hgranted htx.symm

theorem lookup_cancel {s : ExtensionSession} {tx k : Nat} {st : Staged}
    (h : (s.cancel k).staged.lookup tx = some st) :
    k ≠ tx ∧ s.staged.lookup tx = some st ∧
      (s.cancel k).pending.lookup tx = s.pending.lookup tx := by
  simp only [ExtensionSession.cancel, Table.lookup_remove] at h ⊢
  split_ifs at h with hk
  exact ⟨fun heq => hk heq.symm, h, if_neg hk⟩

/-- A transaction that outlives `expire` is what it was, and so is its deadline. -/
theorem lookup_expire {s : ExtensionSession} {now tx : Nat} {st : Staged} (hb : Bounded s)
    (h : (s.expire now).staged.lookup tx = some st) :
    s.staged.lookup tx = some st ∧
      (s.expire now).pending.lookup tx = s.pending.lookup tx := by
  obtain ⟨hstaged, hahead⟩ := ExtensionSession.expire_staged.mp h
  obtain ⟨d, hd⟩ := Option.isSome_iff_exists.mp (hb.staged_pending tx (by rw [hstaged]; rfl))
  rw [hd]
  exact ⟨hstaged, ExtensionSession.expire_pending.mpr ⟨hd, hahead d hd⟩⟩

/-- Whatever a call does, what is staged after it has its begin and its chunks behind it. -/
theorem Opened.change {postcard : Bytes → Option SeqAccess} {past : List Event}
    {s s' : ExtensionSession} {op : Op} {out : Outcome} (hb : Bounded s)
    (h : ∀ tx st, s.staged.lookup tx = some st → Opened past s tx st)
    (hc : Change postcard s op s' out) {tx : Nat} {st : Staged}
    (hst : s'.staged.lookup tx = some st) : Opened (past ++ [⟨s, op, s', out⟩]) s' tx st := by
  -- A transaction the call does not touch.
  have hquiet : ∀ {e : Event} {s₁ : ExtensionSession}, s.staged.lookup tx = some st →
      s.SameGrants s₁ → s₁.pending.lookup tx = s.pending.lookup tx →
      Undisturbed tx st.document s.generation e ∧ e.chunk tx = none →
      Opened (past ++ [e]) s₁ tx st := by
    intro e s₁ hold hsame hpending he
    refine (h tx st hold).snoc hsame hpending rfl rfl ?_ he.1
    rw [he.2]
    exact (List.append_nil _).symm
  cases hc with
  | approved grants => cases hst
  | revoked => cases hst
  | canceled k =>
    obtain ⟨hk, hold, hpending⟩ := lookup_cancel hst
    exact hquiet hold ⟨rfl, rfl, rfl, rfl, rfl⟩ hpending
      (undisturbed_idle (.cancel hk) _ _)
  | expired now =>
    obtain ⟨hold, hpending⟩ := lookup_expire hb hst
    exact hquiet hold (s.expire_same now) hpending
      (undisturbed_idle (.expire now) _ _)
  | unseen m current now e hother =>
    exact hquiet hst (.refl s) rfl (undisturbed_error e rfl _ _ _)
  | refused e hclock =>
    obtain ⟨hold, hpending⟩ := lookup_expire hb hst
    exact hquiet hold (s.expire_same _) hpending (undisturbed_error e hclock _ _ _)
  | @dropped _ now k e hclock =>
    obtain ⟨-, hmid, hcancel⟩ := lookup_cancel hst
    obtain ⟨hold, hpending⟩ := lookup_expire hb hmid
    have hsame := s.expire_same now
    exact hquiet hold (hsame.trans ⟨rfl, rfl, rfl, rfl, rfl⟩)
      (hcancel.trans hpending) (undisturbed_error e hclock _ _ _)
  | started m now hroom hfresh =>
    obtain ⟨hold, hpending⟩ := lookup_expire hb hst
    have hne : tx ≠ m.requestId := by
      rintro rfl
      have hsome := (hb.expire now).staged_pending _ (Option.isSome_of_eq_some hst)
      rw [hfresh] at hsome
      cases hsome
    have hsame := s.expire_same now
    refine hquiet hold (hsame.trans ⟨rfl, rfl, rfl, rfl, rfl⟩)
      ?_ (undisturbed_idle (.start m now) _ _)
    rw [← hpending]
    simp only [ExtensionSession.enqueue, Table.lookup_insert, if_neg hne]
  | begun m document revision now hroom hfresh hrequest hgranted =>
    have hsame := s.expire_same now
    by_cases htx : tx = m.requestId
    · -- The transaction begins here.
      subst htx
      simp only [ExtensionSession.stage, Table.lookup_insert_self, Option.some.injEq] at hst
      subst hst
      refine ⟨past, _, [], m, now, rfl, ⟨rfl, rfl, rfl, hrequest⟩, ?_, ?_, ?_, rfl⟩
      · have hgranted := hgranted.of_same hsame
        exact hgranted
      · simp [ExtensionSession.stage, ExtensionSession.enqueue]
      · intro e he
        cases he
    · simp only [ExtensionSession.stage, ExtensionSession.enqueue, Table.lookup_insert,
        if_neg htx] at hst
      obtain ⟨hold, hpending⟩ := lookup_expire hb hst
      refine hquiet hold (hsame.trans ⟨rfl, rfl, rfl, rfl, rfl⟩) ?_
        (undisturbed_idle (.beginEdits _ _ fun heq => htx heq.symm) _ _)
      rw [← hpending]
      simp only [ExtensionSession.stage, ExtensionSession.enqueue, Table.lookup_insert, if_neg htx]
  | appended m transaction now chunk staged hrequest hstaged hgranted hroom =>
    have hsame := s.expire_same now
    have hsame' : s.SameGrants ((s.expire now).stage transaction
        ⟨staged.document, staged.revision, staged.bytes ++ chunk⟩) :=
      hsame.trans ⟨rfl, rfl, rfl, rfl, rfl⟩
    have hgranted := hgranted.of_same hsame
    rw [hsame.generation] at hgranted
    by_cases htx : tx = transaction
    · subst htx
      simp only [ExtensionSession.stage, Table.lookup_insert_self, Option.some.injEq] at hst
      subst hst
      obtain ⟨hold, hpending⟩ := lookup_expire hb hstaged
      refine (h tx staged hold).snoc hsame' hpending rfl rfl ?_
        (undisturbed_appended hrequest fun _ => hgranted)
      simp [Event.chunk, hrequest]
    · simp only [ExtensionSession.stage, Table.lookup_insert, if_neg htx] at hst
      obtain ⟨hold, hpending⟩ := lookup_expire hb hst
      refine hquiet hold hsame' hpending
        ⟨undisturbed_appended hrequest fun heq => absurd heq htx, ?_⟩
      have hne : transaction ≠ tx := fun heq => htx heq.symm
      simp [Event.chunk, hrequest, hne]
  | answered k generation now =>
    obtain ⟨-, hmid, hcancel⟩ := lookup_cancel hst
    obtain ⟨hold, hpending⟩ := lookup_expire hb hmid
    have hsame := s.expire_same now
    exact hquiet hold (hsame.trans ⟨rfl, rfl, rfl, rfl, rfl⟩)
      (hcancel.trans hpending)
      (undisturbed_idle (.acceptReply k generation now) _ _)
  | committed m transaction revision now validate staged edits hrequest hstaged hgranted hrevision
      hdecoded hvalid =>
    obtain ⟨hne, hmid, hcancel⟩ := lookup_cancel hst
    obtain ⟨hold, hpending⟩ := lookup_expire hb hmid
    have hsame := s.expire_same now
    exact hquiet hold (hsame.trans ⟨rfl, rfl, rfl, rfl, rfl⟩) (hcancel.trans hpending)
      (undisturbed_idle (.commitChecked _ _ _ hrequest hne) _ _)

/-! ## §5 What a commit accepts -/

/-- Edits a document can take in one go. -/
structure OrderedEdits (text : Bytes) (edits : List TextEdit) : Prop where
  sorted : edits.Pairwise fun a b => a.range.stop ≤ b.range.start
  inside : ∀ e ∈ edits, e.range.start ≤ e.range.stop ∧ e.range.stop ≤ text.length
  boundaries : ∀ e ∈ edits, atBoundary text e.range.start = true ∧
    atBoundary text e.range.stop = true

private theorem validateEdits_go {text : Bytes} {edits : List TextEdit} {stop : Nat}
    (h : validateEdits.go text edits stop = .ok ()) :
    (∀ e ∈ edits, stop ≤ e.range.start) ∧ OrderedEdits text edits := by
  induction edits generalizing stop with
  | nil => exact ⟨by simp, .nil, by simp, by simp⟩
  | cons e rest ih =>
    rw [validateEdits.go] at h
    split_ifs at h with hbad
    simp only [not_or, not_not, Nat.not_lt] at hbad
    obtain ⟨hstart, horder, hinside, hbs, hbn⟩ := hbad
    obtain ⟨hafter, hrest⟩ := ih h
    refine ⟨?_, List.pairwise_cons.mpr ⟨hafter, hrest.sorted⟩, ?_, ?_⟩
    · intro x hx
      rcases List.mem_cons.mp hx with rfl | hx
      · exact hstart
      · exact Nat.le_trans hstart (Nat.le_trans horder (hafter x hx))
    · intro x hx
      rcases List.mem_cons.mp hx with rfl | hx
      · exact ⟨horder, hinside⟩
      · exact hrest.inside x hx
    · intro x hx
      rcases List.mem_cons.mp hx with rfl | hx
      · exact ⟨hbs, hbn⟩
      · exact hrest.boundaries x hx

theorem validateEdits_ordered {edits : List TextEdit} {text : Bytes}
    (h : validateEdits edits text = .ok ()) : OrderedEdits text edits :=
  (validateEdits_go h).2

private theorem validateSnapshot_go {source : Tree.Root} (hwf : Tree.RootWf .resident source)
    {edits : List TextEdit} {previous : Nat}
    (h : validateSnapshot.go source edits previous = .ok ()) :
    validateEdits.go (Tree.text source) edits previous = .ok () := by
  have hboundary : ∀ o, validateSnapshot.isBoundary source o = true →
      o ≤ (Tree.text source).length ∧ atBoundary (Tree.text source) o = true := by
    intro o ho
    obtain ⟨hle, hb⟩ := Bool.and_eq_true_iff.mp ho
    rw [Tree.boundary_eq hwf] at hb
    rw [hwf.bytes] at hle
    exact ⟨of_decide_eq_true hle, hb⟩
  induction edits generalizing previous with
  | nil => rfl
  | cons e rest ih =>
    rw [validateSnapshot.go] at h
    split_ifs at h with hbad
    simp only [not_or, not_not, Nat.not_lt] at hbad
    obtain ⟨hstart, horder, hbs, hbn⟩ := hbad
    have hgood : ¬(e.range.start < previous ∨ e.range.start > e.range.stop ∨
        e.range.stop > (Tree.text source).length ∨
        ¬atBoundary (Tree.text source) e.range.start = true ∨
        ¬atBoundary (Tree.text source) e.range.stop = true) := by
      simp only [not_or, not_not, Nat.not_lt]
      exact ⟨hstart, horder, (hboundary _ hbn).1, (hboundary _ hbs).2, (hboundary _ hbn).2⟩
    rw [validateEdits.go, if_neg hgood]
    exact ih h

theorem validateSnapshot_ordered {source : Tree.Root} (hwf : Tree.RootWf .resident source)
    {edits : List TextEdit} (h : validateSnapshot source edits = .ok ()) :
    OrderedEdits (Tree.text source) edits := by
  unfold validateSnapshot at h
  split_ifs at h
  exact validateEdits_ordered (validateSnapshot_go hwf h)

private theorem visitElements_eq {elements : List (Option TextEdit)} {edits result : List TextEdit}
    {bytes : Nat} (h : visitElements elements edits bytes = some result) :
    ∃ more, elements = more.map some ∧ result = edits ++ more := by
  fun_induction visitElements elements edits bytes with
  | case1 edits bytes => exact ⟨[], rfl, by simpa using h.symm⟩
  | case2 rest edits bytes => cases h
  | case3 edit rest edits bytes hmany => cases h
  | case4 edit rest edits bytes hmany total hlarge => cases h
  | case5 edit rest edits bytes hmany total hlarge ih =>
    obtain ⟨more, hrest, hresult⟩ := ih h
    exact ⟨edit :: more, by rw [hrest]; rfl, by rw [hresult, List.append_assoc]; rfl⟩

/-- Accepted edits are the whole sequence, in order. -/
theorem visitSeq_elements {seq : SeqAccess} {edits : List TextEdit}
    (h : visitSeq seq = some edits) : seq.elements = edits.map some := by
  unfold visitSeq at h
  split_ifs at h
  obtain ⟨more, helements, hedits⟩ := visitElements_eq h
  rw [helements, hedits]
  rfl

/-! ## §6 Runs -/

section Runs

variable (postcard : Bytes → Option SeqAccess)

theorem play_concat (s : ExtensionSession) (ops : List Op) (op : Op) :
    play postcard s (ops ++ [op]) = play postcard s ops ++ [(final postcard s ops).event postcard op] ∧
      final postcard s (ops ++ [op]) = ((final postcard s ops).step postcard op).1 := by
  induction ops generalizing s with
  | nil => exact ⟨rfl, rfl⟩
  | cons o ops ih =>
    obtain ⟨hplay, hfinal⟩ := ih (s.step postcard o).1
    simp only [List.cons_append, play, final, hplay, hfinal]
    exact ⟨trivial, trivial⟩

/-- An event of a run is a call made in the session the calls before it led to. -/
theorem play_split {s : ExtensionSession} {ops : List Op} {past future : List Event} {e : Event}
    (h : play postcard s ops = past ++ e :: future) :
    ∃ ops₁ op, past = play postcard s ops₁ ∧ e = (final postcard s ops₁).event postcard op := by
  induction past generalizing s ops with
  | nil =>
    cases ops with
    | nil => cases h
    | cons op ops => exact ⟨[], op, rfl, (List.cons.inj h).1.symm⟩
  | cons p past ih =>
    cases ops with
    | nil => cases h
    | cons o ops =>
      obtain ⟨hp, hrest⟩ := List.cons.inj h
      obtain ⟨ops₁, op, hpast, he⟩ := ih hrest
      exact ⟨o :: ops₁, op, by rw [hpast, ← hp]; rfl, he⟩

/-- In every session a run reaches the bounds hold, and what is staged was begun. -/
theorem run_invariant {id : Bytes} {budget : ExecutionBudget} {s : ExtensionSession}
    (h : ExtensionSession.newWithBudget id budget = .ok s) (ops : List Op) :
    Bounded (final postcard s ops) ∧ ∀ tx st,
      (final postcard s ops).staged.lookup tx = some st →
        Opened (play postcard s ops) (final postcard s ops) tx st := by
  induction ops using List.reverseRecOn with
  | nil =>
    unfold ExtensionSession.newWithBudget at h
    split_ifs at h
    cases h
    exact ⟨.cleared rfl rfl, fun tx st hst => nomatch hst⟩
  | append_singleton ops op ih =>
    obtain ⟨hbounded, hopened⟩ := ih
    obtain ⟨hplay, hfinal⟩ := play_concat postcard s ops op
    have hchange := step_change postcard (final postcard s ops) op
    rw [hplay, hfinal]
    exact ⟨hbounded.change hchange, fun tx st hst => Opened.change hbounded hopened hchange hst⟩

/-- What stands behind the edits a commit hands out. -/
structure Justified (begun : Event) (newer : List Event) (e : Event) (edits : List TextEdit)
    (tx document revision : Nat) (opening commit : Envelope) (begunAt now : Nat)
    (validate : List TextEdit → Except BrokerError Unit) : Prop where
  begins : begun.Begins tx opening document revision begunAt
  begin_granted : Granted begun.before document e.before.generation opening
  commits : e.op = .commitChecked commit revision now validate
  request : commit.request = .commitEdits tx revision
  commit_granted : Granted e.before document e.before.generation commit
  deadline : now < begunAt + e.before.budget.timeoutMs
  undisturbed : ∀ x ∈ newer, Undisturbed tx document e.before.generation x
  decoded : ∃ seq, postcard (newer.filterMap (Event.chunk tx)).flatten = some seq ∧
    seq.elements = edits.map some
  valid : validate edits = .ok ()

theorem yields_justified {id : Bytes} {budget : ExecutionBudget} {s : ExtensionSession}
    (h : ExtensionSession.newWithBudget id budget = .ok s) {ops : List Op}
    {past future : List Event} {e : Event} (hplay : play postcard s ops = past ++ e :: future)
    {edits : List TextEdit} (hout : e.outcome = .ok (some edits)) :
    ∃ older begun newer tx document revision opening commit begunAt now validate,
      past = older ++ begun :: newer ∧ Justified postcard begun newer e edits tx document revision
        opening commit begunAt now validate := by
  obtain ⟨ops₁, op, rfl, rfl⟩ := play_split postcard hplay
  obtain ⟨hbounded, hopened⟩ := run_invariant postcard h ops₁
  have hchange := step_change postcard (final postcard s ops₁) op
  have hanswer : ((final postcard s ops₁).step postcard op).2 = .ok (some edits) := hout
  rw [hanswer] at hchange
  obtain ⟨m, tx, revision, now, validate, staged, hop, hrequest, hstaged, hgranted, hrevision,
    hdecoded, hvalid⟩ := hchange.yields
  obtain ⟨hold, hpending⟩ := lookup_expire hbounded hstaged
  obtain ⟨older, begun, newer, opening, begunAt, hpast, hback⟩ := hopened tx staged hold
  have hsame := (final postcard s ops₁).expire_same now
  refine ⟨older, begun, newer, tx, staged.document, revision, opening, m, begunAt, now, validate,
    hpast, ?_⟩
  constructor
  · exact hrevision ▸ hback.begins
  · exact hback.granted
  · exact hop
  · exact hrequest
  · have hgranted := hgranted.of_same hsame
    rw [hsame.generation] at hgranted
    exact hgranted
  · have hahead := hpending.trans hback.deadline
    exact (ExtensionSession.expire_pending.mp hahead).2
  · exact hback.undisturbed
  · rw [hback.bytes]
    obtain ⟨seq, hseq, hvisit⟩ := Option.bind_eq_some_iff.mp hdecoded
    exact ⟨seq, hseq, visitSeq_elements hvisit⟩
  · exact hvalid

/-- Two yields of one transaction id have a begin of it between them. -/
theorem yields_once {id : Bytes} {budget : ExecutionBudget} {s : ExtensionSession}
    (h : ExtensionSession.newWithBudget id budget = .ok s) {ops : List Op}
    {past between future : List Event} {e e' : Event} {tx : Nat}
    (hplay : play postcard s ops = past ++ e :: (between ++ e' :: future))
    (hy : e.Yields tx) (hy' : e'.Yields tx) :
    ∃ x ∈ between, ∃ m document revision now, x.Begins tx m document revision now := by
  have hsplit : play postcard s ops = (past ++ e :: between) ++ e' :: future := by
    rw [hplay, List.append_assoc]
    rfl
  obtain ⟨m', revision', now', validate', edits, hop', hrequest', hout'⟩ := hy'
  obtain ⟨older, begun, newer, tx', document, revision, opening, commit, begunAt, now, validate,
    hpast, hjust⟩ := yields_justified postcard h hsplit hout'
  obtain rfl : tx' = tx := by
    have hcommit := (hjust.commits.symm.trans hop')
    obtain ⟨rfl, -⟩ := Op.commitChecked.inj hcommit
    exact (Request.commitEdits.inj (hjust.request.symm.trans hrequest')).1
  have hnotNewer : e ∉ newer := fun he => (hjust.undisturbed e he).yields hy
  have hnotBegun : e ≠ begun := by
    rintro rfl
    obtain ⟨m, r, t, v, es, hop, -⟩ := hy
    exact nomatch hjust.begins.op.symm.trans hop
  -- The begin stands after the first yield, since only quiet events follow it.
  rcases List.append_eq_append_iff.mp hpast with ⟨front, -, hrest⟩ | ⟨front, -, hrest⟩
  · cases front with
    | nil => exact absurd (List.cons.inj hrest).1 hnotBegun
    | cons x front =>
      refine ⟨begun, ?_, opening, document, revision, begunAt, hjust.begins⟩
      rw [(List.cons.inj hrest).2]
      simp
  · cases front with
    | nil => exact absurd (List.cons.inj hrest).1.symm hnotBegun
    | cons x front =>
      refine absurd ?_ hnotNewer
      rw [(List.cons.inj hrest).2]
      simp

/-- Every run of an extension session: each pending and staged entry is bounded, nothing
survives a revoke, a cancel or a deadline seen, and edits come out of a commit only for one
begin, its chunks and the commit granted under the current generation, at most once. -/
theorem edits_need_live_grant {id : Bytes} {budget : ExecutionBudget} {s : ExtensionSession}
    (h : ExtensionSession.newWithBudget id budget = .ok s) (ops : List Op) :
    Bounded (final postcard s ops) ∧
    (∀ past e future, play postcard s ops = past ++ e :: future →
      (e.op = .revoke ∨ (∃ grants, e.op = .approve grants) →
        e.after.pending = .empty ∧ e.after.staged = .empty) ∧
      (∀ k, e.op = .cancel k →
        e.after.pending.lookup k = none ∧ e.after.staged.lookup k = none) ∧
      (∀ now, e.op.clock = some now →
        (∀ m revision, e.op = .beginEdits m revision now →
          ∃ document, m.request = .beginEdits document revision) →
        ∀ k d, e.after.pending.lookup k = some d → now < d) ∧
      ∀ edits, e.outcome = .ok (some edits) →
        ∃ older begun newer tx document revision opening commit begunAt now validate,
          past = older ++ begun :: newer ∧
          Justified postcard begun newer e edits tx document revision opening commit begunAt now
            validate ∧
          (∀ text, validate = (validateEdits · text) → OrderedEdits text edits) ∧
          ∀ source, Tree.RootWf .resident source → validate = validateSnapshot source →
            OrderedEdits (Tree.text source) edits) ∧
    ∀ past e between e' future tx,
      play postcard s ops = past ++ e :: (between ++ e' :: future) → e.Yields tx → e'.Yields tx →
        ∃ x ∈ between, ∃ m document revision now, x.Begins tx m document revision now := by
  refine ⟨(run_invariant postcard h ops).1, fun past e future hplay => ?_,
    fun past e between e' future tx hplay hy hy' => yields_once postcard h hplay hy hy'⟩
  refine ⟨?_, ?_, ?_, ?_⟩
  · obtain ⟨ops₁, op, -, rfl⟩ := play_split postcard hplay
    rintro (hop | ⟨grants, hop⟩)
    · obtain rfl : op = .revoke := hop
      exact ⟨rfl, rfl⟩
    · obtain rfl : op = .approve grants := hop
      exact ⟨rfl, rfl⟩
  · obtain ⟨ops₁, op, -, rfl⟩ := play_split postcard hplay
    intro k hop
    obtain rfl : op = .cancel k := hop
    exact ⟨Table.lookup_remove_self _ _, Table.lookup_remove_self _ _⟩
  · obtain ⟨ops₁, op, -, rfl⟩ := play_split postcard hplay
    intro now hclock hseen k d hd
    exact (step_change postcard (final postcard s ops₁) op).deadline hclock hseen hd
  · intro edits hout
    obtain ⟨older, begun, newer, tx, document, revision, opening, commit, begunAt, now, validate,
      hpast, hjust⟩ := yields_justified postcard h hplay hout
    refine ⟨older, begun, newer, tx, document, revision, opening, commit, begunAt, now, validate,
      hpast, hjust, ?_, ?_⟩
    · rintro text rfl
      exact validateEdits_ordered hjust.valid
    · rintro source hwf rfl
      exact validateSnapshot_ordered hwf hjust.valid

end Runs

/-- A session of the extension `a` before any approval. -/
def freshSession : ExtensionSession := ⟨[97], 0, [], .empty, .empty, false, .interactive⟩

/-- A message of that extension under the first approval, for document 1. -/
def editMessage (requestId : Nat) (request : Request) : Envelope :=
  ⟨1, requestId, [97], ⟨.documentEdit, .document 1, 1⟩, request⟩

/-- A transaction of one insertion, whose encoding comes in two chunks. -/
theorem edits_need_live_grant_insertion :
    let edit : TextEdit := ⟨⟨0, 0⟩, [98]⟩
    let postcard : Bytes → Option SeqAccess := fun bytes =>
      if bytes = [1, 0, 0, 1, 98] then some ⟨some 1, [some edit]⟩ else none
    let opened := [.approve [⟨.documentEdit, .document 1⟩],
      .beginEdits (editMessage 1 (.beginEdits 1 2)) 2 0,
      .append (editMessage 2 (.appendChunk 1 [1, 0])) 10,
      .append (editMessage 4 (.appendChunk 1 [0, 1, 98])) 15]
    let commit := .commitChecked (editMessage 3 (.commitEdits 1 2)) 2 20 (validateEdits · [])
    ∃ begun newer tx document revision opening message begunAt now validate,
      Justified postcard begun newer ((final postcard freshSession opened).event postcard commit)
        [edit] tx document revision opening message begunAt now validate := by
  intro edit postcard opened commit
  have hplay := (play_concat postcard freshSession opened commit).1
  have hnew : ExtensionSession.newWithBudget [97] .interactive = .ok freshSession := rfl
  have hout : ((final postcard freshSession opened).event postcard commit).outcome =
      .ok (some [edit]) := by
    decide +kernel
  obtain ⟨-, begun, newer, tx, document, revision, opening, message, begunAt, now, validate, -,
    hjust, -⟩ := ((edits_need_live_grant postcard hnew (opened ++ [commit])).2.1 _ _ []
      hplay).2.2.2 [edit] hout
  exact ⟨begun, newer, tx, document, revision, opening, message, begunAt, now, validate, hjust⟩

/-- A begin for another revision is refused before the session looks at the clock: a request
of five seconds is still pending after six. -/
theorem refused_begin_keeps_expired :
    ¬∀ (postcard : Bytes → Option SeqAccess) (ops : List Op) (past future : List Event) (e : Event),
      play postcard freshSession ops = past ++ e :: future → ∀ now, e.op.clock = some now →
        ∀ k d, e.after.pending.lookup k = some d → now < d := by
  intro hall
  let opened : List Op := [.approve [⟨.documentEdit, .document 1⟩],
    .beginEdits (editMessage 1 (.beginEdits 1 2)) 2 0]
  let stale : Op := .beginEdits (editMessage 2 (.beginEdits 1 2)) 3 6000
  have hplay := (play_concat (fun _ => none) freshSession opened stale).1
  have hlt := hall (fun _ => none) _ _ _ _ hplay 6000 rfl 1 5000 rfl
  exact absurd hlt (by decide)

end BareLine.Extensions
