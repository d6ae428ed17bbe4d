import BareLine.Power.Blocks
import BareLine.Lib.Splice
import BareLine.Lib.Terminators
import BareLine.Lib.TextLines

/-!
# What a command does to the text

The rewrites of a command stand side by side in the text: between them and around them nothing
changes, and each one's result stands where its source stood, moved by the changes of length
before it.  The edits the command prepares say just that.
-/

namespace BareLine.Power

open Lib
open Search (Text)
open String (utf8Len)

variable {u : Unicode} {snapshot : DocumentSnapshot} {action : Transform} {limits : Limits}

/-! ## §1 The rewrite of a target -/

/-- A part of a text, and its range. -/
def PartAt (text : Text) (range : Range) (part : Text) : Prop :=
  ∃ before after, text = before ++ (part ++ after) ∧
    range = ⟨utf8Len before, utf8Len before + utf8Len part⟩

theorem readText_spec {range : Range} {maxBytes : Nat} {text : Text}
    (h : snapshot.readText range maxBytes = .ok text) : PartAt snapshot.text range text := by
  rw [DocumentSnapshot.readText] at h
  cases hchunks : snapshot.chunks range with
  | none =>
    rw [hchunks] at h
    dsimp only at h
    split at h <;> exact nomatch h
  | some chunks =>
    rw [hchunks] at h
    dsimp only at h
    split at h
    · exact nomatch h
    obtain rfl := Except.ok.inj h
    obtain ⟨before, part, after, htext, rfl⟩ := Search.DocumentSnapshot.validRange_iff.mp
      (Search.DocumentSnapshot.validRange_of_chunks hchunks)
    obtain ⟨chunks', hchunks', hflat⟩ := Search.DocumentSnapshot.chunks_spec htext
    obtain rfl : chunks = chunks' := Option.some.inj (hchunks.symm.trans hchunks')
    exact ⟨before, after, hflat ▸ htext, hflat ▸ rfl⟩

/-- A part within the limit is read. -/
theorem readText_eq {before part after : Text} {maxBytes : Nat}
    (htext : snapshot.text = before ++ (part ++ after)) (hmax : utf8Len part ≤ maxBytes) :
    snapshot.readText ⟨utf8Len before, utf8Len before + utf8Len part⟩ maxBytes = .ok part := by
  obtain ⟨chunks, hchunks, hflat⟩ := Search.DocumentSnapshot.chunks_spec htext
  rw [DocumentSnapshot.readText, hchunks]
  dsimp only
  rw [if_neg (by omega), hflat]

/-- A line, where it starts and where it stops. -/
theorem line_spec {n start : Nat} {text : Text} (h : snapshot.line n limits = .ok (start, text)) :
    PartAt snapshot.text ⟨start, start + utf8Len text⟩ text ∧ StartsAt snapshot.bytes n start ∧
      snapshot.StopsAt n (start + utf8Len text) := by
  obtain ⟨range, hrange, h⟩ := bind_ok.mp h
  obtain ⟨text', htext, h⟩ := bind_ok.mp h
  obtain ⟨rfl, rfl⟩ := Prod.mk.inj (Except.ok.inj h)
  obtain ⟨before, after, hcut, rfl⟩ := readText_spec htext
  obtain ⟨hstart, hstop⟩ := DocumentSnapshot.lineRange_spec hrange
  exact ⟨⟨before, after, hcut, rfl⟩, hstart, hstop⟩

/-- A line that is read is a line of the text. -/
theorem line_eq {ls : List Text} {n start : Nat} {text : Text} (hls : LinesOf snapshot.text ls)
    (h : snapshot.line n limits = .ok (start, text)) :
    ls[n]? = some text ∧ start = utf8Len (ls.take n).flatten := by
  obtain ⟨⟨before, after, hcut, hrange⟩, hstart, hstop⟩ := line_spec h
  obtain ⟨hlt, rfl⟩ := hls.startsAt.mp hstart
  obtain ⟨l, hl⟩ : ∃ l, ls[n]? = some l := ⟨_, List.getElem?_eq_getElem hlt⟩
  have hstopped : utf8Len (ls.take n).flatten + utf8Len text = utf8Len (ls.take (n + 1)).flatten := by
    rcases hstop with hnext | ⟨hlen, hnone⟩
    · exact (hls.startsAt.mp hnext).2
    · have hlast : ls.length ≤ n + 1 :=
        Nat.le_of_not_lt fun hmore => hnone _ (hls.startsAt.mpr ⟨hmore, rfl⟩)
      rw [hlen, List.take_of_length_le hlast, hls.flatten]
      rfl
  have htake : ls.take (n + 1) = ls.take n ++ [l] := by
    rw [List.take_add_one, hl]
    rfl
  have hsplit : snapshot.text = (ls.take n).flatten ++ (l ++ (ls.drop (n + 1)).flatten) := by
    rw [← hls.flatten, ← List.append_assoc, ← List.flatten_concat, ← htake, ← List.flatten_append,
      List.take_append_drop]
  obtain ⟨hbefore, -⟩ := Range.mk.inj hrange
  obtain ⟨rfl, hrest⟩ := append_inj_of_utf8Len (hcut.symm.trans hsplit) hbefore.symm
  rw [htake, List.flatten_concat, String.utf8Len_append] at hstopped
  obtain ⟨rfl, -⟩ := append_inj_of_utf8Len hrest (Nat.add_left_cancel hstopped)
  exact ⟨hl, rfl⟩

/-- Two parts side by side. -/
theorem PartAt.append {text a b : Text} {x y z : Nat} (ha : PartAt text ⟨x, y⟩ a)
    (hb : PartAt text ⟨y, z⟩ b) : PartAt text ⟨x, z⟩ (a ++ b) := by
  obtain ⟨before, rest, hcut, hrange⟩ := ha
  obtain ⟨before', after, hcut', hrange'⟩ := hb
  obtain ⟨rfl, rfl⟩ := Range.mk.inj hrange
  obtain ⟨hsame, rfl⟩ := Range.mk.inj hrange'
  have hsplit := hcut.symm.trans hcut'
  rw [← List.append_assoc] at hsplit
  obtain ⟨rfl, hrest⟩ := append_inj_of_utf8Len hsplit (by rw [String.utf8Len_append, hsame])
  exact ⟨before, after, by rw [hcut, hrest]; simp, by simp [Nat.add_assoc]⟩

/-- A block moves up past the line before it, where there is one. -/
theorem rewrite_moveUp {range : Range} {source : Text} {w : Rewrite}
    (h : rewrite u snapshot .moveUp limits range source = .ok w) :
    w = ⟨range, source, source, .kept⟩ ∨
      ∃ n start previous, Lib.lineAt snapshot.bytes range.start = n + 1 ∧
        snapshot.line n limits = .ok (start, previous) ∧
        w = ⟨⟨start, range.stop⟩, previous ++ source,
          (moveRows source previous false snapshot.insertionEol).1,
          .moved (range.start - start) (moveRows source previous false snapshot.insertionEol).2⟩ := by
  obtain ⟨first, hfirst, h⟩ := bind_ok.mp h
  obtain ⟨-, rfl⟩ := DocumentSnapshot.lineAt_spec hfirst
  split at h
  · rename_i hpos
    obtain ⟨⟨start, previous⟩, hline, h⟩ := bind_ok.mp h
    obtain rfl := Except.ok.inj h
    exact .inr ⟨_, start, previous, (Nat.sub_add_cancel hpos).symm, hline, rfl⟩
  · exact .inl (Except.ok.inj h).symm

/-- A block moves down past the line behind it, where there is one. -/
theorem rewrite_moveDown {range : Range} {source : Text} {w : Rewrite}
    (h : rewrite u snapshot .moveDown limits range source = .ok w) :
    snapshot.len ≤ range.stop ∧ w = ⟨range, source, source, .kept⟩ ∨
      range.stop < snapshot.len ∧ ∃ start following,
        snapshot.line (Lib.lineAt snapshot.bytes range.stop) limits = .ok (start, following) ∧
        w = ⟨⟨range.start, start + utf8Len following⟩, source ++ following,
          (moveRows source following true snapshot.insertionEol).1,
          .moved 0 (moveRows source following true snapshot.insertionEol).2⟩ := by
  obtain ⟨first, -, h⟩ := bind_ok.mp h
  split at h
  · rename_i hlt
    obtain ⟨next, hnext, h⟩ := bind_ok.mp h
    obtain ⟨-, rfl⟩ := DocumentSnapshot.lineAt_spec hnext
    obtain ⟨⟨start, following⟩, hline, h⟩ := bind_ok.mp h
    obtain rfl := Except.ok.inj h
    exact .inr ⟨hlt, start, following, hline, rfl⟩
  · rename_i hend
    exact .inl ⟨Nat.le_of_not_lt hend, (Except.ok.inj h).symm⟩

/-- Every other action rewrites the range itself. -/
theorem rewrite_own {range : Range} {source : Text} {w : Rewrite} (hup : action ≠ .moveUp)
    (hdown : action ≠ .moveDown) (h : rewrite u snapshot action limits range source = .ok w) :
    w.range = range ∧ w.source = source := by
  have hrows : ∀ {a : Transform}, (rewriteRows u a limits snapshot.insertionEol source >>=
      fun r => pure (⟨range, source, r.1, r.2⟩ : Rewrite)) = .ok w →
        w.range = range ∧ w.source = source := by
    intro a h
    obtain ⟨⟨result, placement⟩, -, h⟩ := bind_ok.mp h
    obtain rfl := Except.ok.inj h
    exact ⟨rfl, rfl⟩
  cases action with
  | moveUp => exact absurd rfl hup
  | moveDown => exact absurd rfl hdown
  | duplicate | duplicateSelections =>
    simp only [rewrite] at h
    split_ifs at h <;>
      · obtain rfl := Except.ok.inj h
        exact ⟨rfl, rfl⟩
  | uppercase | lowercase | titlecase | invertCase =>
    obtain rfl := Except.ok.inj h
    exact ⟨rfl, rfl⟩
  | _ => exact hrows h

/-- What a target's rewrite is made from. -/
structure RewriteOf (u : Unicode) (snapshot : DocumentSnapshot) (action : Transform)
    (limits : Limits) (t : Target) (source : Text) (w : Rewrite) : Prop where
  read : PartAt snapshot.text t.range source
  wrote : rewrite u snapshot action limits t.range source = .ok w

/-- A target of a line command is made of whole lines. -/
theorem IsTarget.lines {t : Target} (h : IsTarget snapshot action t)
    (hline : action.linewise = true) : snapshot.Lines t.range := by
  obtain ⟨group, hgroup, hranges⟩ := h
  obtain ⟨p, hp, hstart⟩ := hgroup.start
  obtain ⟨q, hq, hstop⟩ := hgroup.stop
  exact DocumentSnapshot.lines_of (hstart ▸ (hranges p hp).start hline)
    (hstop ▸ (hranges q hq).stop hline)

/-- How far a rewrite reaches beyond its target: a block that moves up takes the line before it,
one that moves down the line behind it. -/
structure Reaches (snapshot : DocumentSnapshot) (action : Transform) (t : Target) (w : Rewrite) :
    Prop where
  part : PartAt snapshot.text w.range w.source
  start : w.range.start = t.range.start ∨ action = .moveUp ∧
    ∃ n, StartsAt snapshot.bytes n w.range.start ∧ StartsAt snapshot.bytes (n + 1) t.range.start
  stop : w.range.stop = t.range.stop ∨ action = .moveDown ∧ t.range.stop < snapshot.len ∧
    ∃ n, StartsAt snapshot.bytes n t.range.stop ∧ snapshot.StopsAt n w.range.stop

theorem RewriteOf.reaches {t : Target} {source : Text} {w : Rewrite}
    (ht : IsTarget snapshot action t) (h : RewriteOf u snapshot action limits t source w) :
    Reaches snapshot action t w := by
  obtain ⟨hread, hw⟩ := h
  by_cases hup : action = .moveUp
  · subst hup
    rcases rewrite_moveUp hw with rfl | ⟨n, start, previous, hn, hline, rfl⟩
    · exact ⟨hread, .inl rfl, .inl rfl⟩
    · obtain ⟨hprevious, hstart, hstop⟩ := line_spec hline
      have hhere := (ht.lines rfl).startsAt
      rw [hn] at hhere
      -- the line before stops where the block starts
      have hnext : start + utf8Len previous = t.range.start := by
        rcases hstop with hnext | ⟨-, hnone⟩
        · exact hnext.unique hhere
        · exact absurd hhere (hnone _)
      rw [hnext] at hprevious
      exact ⟨hprevious.append hread, .inr ⟨rfl, n, hstart, hhere⟩, .inl rfl⟩
  by_cases hdown : action = .moveDown
  · subst hdown
    rcases rewrite_moveDown hw with ⟨-, rfl⟩ | ⟨hlt, start, following, hline, rfl⟩
    · exact ⟨hread, .inl rfl, .inl rfl⟩
    · obtain ⟨hfollowing, hstart, hstop⟩ := line_spec hline
      have hhere : StartsAt snapshot.bytes (Lib.lineAt snapshot.bytes t.range.stop) t.range.stop :=
        .inr ⟨(ht.lines rfl).stop.resolve_left (Nat.ne_of_lt hlt), rfl⟩
      obtain rfl := hstart.unique hhere
      exact ⟨hread.append hfollowing, .inl rfl, .inr ⟨rfl, hlt, _, hhere, hstop⟩⟩
  · obtain ⟨hrange, hsource⟩ := rewrite_own hup hdown hw
    exact ⟨hrange ▸ hsource ▸ hread, .inl (by rw [hrange]), .inl (by rw [hrange])⟩

/-! ## §2 Rewrites in order -/

/-- What the rewrite of a target reaches is over where that of the next one starts. -/
theorem Reaches.le {t t' : Target} {w w' : Rewrite} (ht : IsTarget snapshot action t)
    (ht' : IsTarget snapshot action t') (hw : Reaches snapshot action t w)
    (hw' : Reaches snapshot action t' w') (hapart : t.range.stop < t'.range.start) :
    w.range.stop ≤ w'.range.start := by
  have hends : action.linewise = true → endsLine snapshot.bytes t'.range.start = true :=
    fun hline => (ht'.lines hline).start.resolve_left (Nat.ne_zero_of_lt hapart)
  rcases hw.stop with hstop | ⟨rfl, hlt, n, hstart, hstops⟩
  · rcases hw'.start with hstart' | ⟨rfl, n, hstart', hnext⟩
    · rw [hstop, hstart']
      exact hapart.le
    · -- the line before the later block starts no earlier than the earlier block stops
      have hbelow := lineAt_lt hapart (hends rfl)
      have hlen : t.range.stop ≠ snapshot.len := by
        have := endsLine_le (hends rfl)
        rw [DocumentSnapshot.length_bytes] at this
        omega
      have hhere : StartsAt snapshot.bytes (Lib.lineAt snapshot.bytes t.range.stop) t.range.stop :=
        .inr ⟨(ht.lines rfl).stop.resolve_left hlen, rfl⟩
      rw [hstop, hhere.le_iff, hstart'.lineAt_eq]
      rw [hnext.lineAt_eq] at hbelow
      exact Nat.le_of_lt_succ hbelow
  · rcases hw'.start with hstart' | ⟨habsurd, -⟩
    · rw [hstart']
      have hle := endsLine_le (hends rfl)
      rw [DocumentSnapshot.length_bytes] at hle
      rcases Nat.lt_or_eq_of_le hle with hinside | hend
      · rw [hstops.le_iff hinside, ← hstart.lineAt_eq]
        exact lineAt_lt hapart (hends rfl)
      · exact hend ▸ hstops.le
    · exact nomatch habsurd

/-! ## §3 The text before and after -/

/-- A target, its rewrite, and where the result stands in the new text. -/
structure Step where
  target : Target
  rewrite : Rewrite
  output : Nat
  deriving DecidableEq, Repr

/-- The selections of a step, placed. -/
def Step.placed (action : Transform) (step : Step) : List Selection :=
  step.target.members.map
    (placeSelection step.rewrite (settlePlacement action step.rewrite) step.output)

/-- The edits of some steps. -/
def editsOf (steps : List Step) : List Edit := steps.flatMap fun step => step.rewrite.edits

theorem editsOf_cons (step : Step) (steps : List Step) :
    editsOf (step :: steps) = step.rewrite.edits ++ editsOf steps := List.flatMap_cons

/-- Steps side by side, from offsets of the old and of the new text on: around them the two
texts are the same. -/
def Laid : Nat → Nat → List Step → Text → Text → Prop
  | _, _, [], old, new => old = new
  | c, c', step :: steps, old, new => ∃ gap rest rest',
      old = gap ++ (step.rewrite.source ++ rest) ∧ new = gap ++ (step.rewrite.result ++ rest') ∧
      step.rewrite.range = ⟨c + utf8Len gap, c + utf8Len gap + utf8Len step.rewrite.source⟩ ∧
      step.output = c' + utf8Len gap ∧
      Laid step.rewrite.range.stop (step.output + utf8Len step.rewrite.result) steps rest rest'

/-- A step rewrites its target. -/
def StepOf (u : Unicode) (snapshot : DocumentSnapshot) (action : Transform) (limits : Limits)
    (step : Step) : Prop :=
  ∃ source, RewriteOf u snapshot action limits step.target source step.rewrite

theorem addSigned_spec {offset p : Nat} {delta : Int} (h : addSigned offset delta = .ok p) :
    (p : Int) = offset + delta := by
  rw [addSigned] at h
  split_ifs at h with hrange
  obtain rfl := Except.ok.inj h
  exact Int.toNat_of_nonneg hrange.1

theorem Rewrite.shift_eq (w : Rewrite) : w.shift = (utf8Len w.result : Int) - utf8Len w.source := by
  rw [shift]
  split
  · rename_i hsame
    rw [hsame, Int.sub_self]
  · rfl

/-- What the loop over the targets gives. -/
theorem transformFrom_spec {ts : List Target} {front old : Text} {c' total : Nat} {delta : Int}
    {out : Output} (hts : ∀ t ∈ ts, IsTarget snapshot action t)
    (hapart : ts.Pairwise fun a b => a.range.stop < b.range.start)
    (hcursor : ∀ t ∈ ts, ∀ source w, RewriteOf u snapshot action limits t source w →
      utf8Len front ≤ w.range.start)
    (htext : snapshot.text = front ++ old) (hdelta : (c' : Int) = utf8Len front + delta)
    (h : transformFrom u snapshot action limits total delta ts = .ok out) :
    ∃ steps new, Laid (utf8Len front) c' steps old new ∧
      steps.map Step.target = ts ∧ (∀ step ∈ steps, StepOf u snapshot action limits step) ∧
      out.edits = editsOf steps ∧
      out.after = steps.flatMap (Step.placed action) := by
  induction ts generalizing front old c' total delta out with
  | nil =>
    obtain rfl := Except.ok.inj h
    exact ⟨[], old, rfl, rfl, nofun, rfl, rfl⟩
  | cons t ts ih =>
    obtain ⟨source, hsource, h⟩ := bind_ok.mp h
    obtain ⟨_, -, h⟩ := bind_ok.mp h
    obtain ⟨w, hw, h⟩ := bind_ok.mp h
    obtain ⟨_, -, h⟩ := bind_ok.mp h
    obtain ⟨output, houtput, h⟩ := bind_ok.mp h
    obtain ⟨rest, hrest, h⟩ := bind_ok.mp h
    obtain rfl := Except.ok.inj h
    have hrewrite : RewriteOf u snapshot action limits t source w := ⟨readText_spec hsource, hw⟩
    have ht := hts t (by simp)
    have hreach := hrewrite.reaches ht
    obtain ⟨before, after, hcut, hrange⟩ := hreach.part
    have hle := hcursor t (by simp) source w hrewrite
    rw [hrange] at hle
    obtain ⟨gap, rfl, rfl⟩ := append_of_utf8Len_le (htext.symm.trans hcut) hle
    have houtput := addSigned_spec houtput
    have hgap : output = c' + utf8Len gap := by
      rw [hrange] at houtput
      simp only [String.utf8Len_append] at houtput
      omega
    have hbehind : ∀ t' ∈ ts, ∀ source' w', RewriteOf u snapshot action limits t' source' w' →
        utf8Len (front ++ gap ++ w.source) ≤ w'.range.start := fun t' ht' source' w' hw' => by
      have htarget := hts t' (List.mem_cons_of_mem _ ht')
      have hnext := hreach.le ht htarget (hw'.reaches htarget)
        ((List.pairwise_cons.mp hapart).1 t' ht')
      rwa [hrange, ← String.utf8Len_append] at hnext
    have hmoved : ((output + utf8Len w.result : Nat) : Int) =
        utf8Len (front ++ gap ++ w.source) + (delta + w.shift) := by
      rw [w.shift_eq, String.utf8Len_append, String.utf8Len_append, hgap]
      omega
    obtain ⟨steps, new, hlaid, htargets, hsteps, hedits, hafter⟩ :=
      ih (fun t' ht' => hts t' (List.mem_cons_of_mem _ ht')) (List.pairwise_cons.mp hapart).2
        hbehind (hcut.trans (List.append_assoc _ w.source after).symm) hmoved hrest
    refine ⟨⟨t, w, output⟩ :: steps, gap ++ (w.result ++ new),
      ⟨gap, after, new, rfl, rfl, ?_, hgap, ?_⟩, by rw [List.map_cons, htargets],
      List.forall_mem_cons.mpr ⟨⟨source, hrewrite⟩, hsteps⟩, ?_, ?_⟩
    · rw [hrange, String.utf8Len_append]
    · dsimp only
      rw [hrange]
      dsimp only
      rw [← String.utf8Len_append]
      exact hlaid
    · rw [editsOf_cons, hedits]
    · rw [List.flatMap_cons, hafter]
      rfl

/-! ## §4 The edits -/

/-- An edit as a splice of the text's bytes. -/
def Edit.toSplice (e : Edit) : Splice UInt8 := ⟨e.range.start, e.range.stop, encode e.insert⟩

/-- The bytes of the text once the edits are applied. -/
def PowerEdit.applied (prepared : PowerEdit) (snapshot : DocumentSnapshot) : Bytes :=
  splice (prepared.edits.map Edit.toSplice) (encode snapshot.text)

theorem Laid.ordered {c c' : Nat} {steps : List Step} {old new : Text}
    (h : Laid c c' steps old new) :
    Ordered c ((editsOf steps).map Edit.toSplice) (c + utf8Len old) := by
  induction steps generalizing c c' old new with
  | nil => exact Nat.le_add_right _ _
  | cons step steps ih =>
    obtain ⟨gap, rest, rest', rfl, rfl, hrange, -, hlaid⟩ := h
    have hrest := ih hlaid
    have hlen : c + utf8Len (gap ++ (step.rewrite.source ++ rest)) =
        step.rewrite.range.stop + utf8Len rest := by
      simp [hrange, Nat.add_assoc]
    rw [hlen, editsOf_cons, Rewrite.edits]
    split
    · refine hrest.mono ?_
      rw [hrange]
      dsimp only
      omega
    · refine ⟨?_, ?_, hrest⟩ <;> simp only [Edit.toSplice, hrange] <;> omega

/-- The edits turn the old text into the new one. -/
theorem Laid.splice_eq {c c' : Nat} {steps : List Step} {old new : Text}
    (h : Laid c c' steps old new) :
    spliceFrom c ((editsOf steps).map Edit.toSplice) (encode old) = encode new := by
  induction steps generalizing c c' old new with
  | nil =>
    obtain rfl : old = new := h
    rfl
  | cons step steps ih =>
    obtain ⟨gap, rest, rest', rfl, rfl, hrange, -, hlaid⟩ := h
    have hrest := ih hlaid
    have hordered := hlaid.ordered
    have hstart : step.rewrite.range.start - c = (encode gap).length := by
      simp [hrange]
    have hstop : step.rewrite.range.stop =
        c + (encode gap ++ encode step.rewrite.source).length := by
      simp [hrange, Nat.add_assoc]
    rw [editsOf_cons, Rewrite.edits, ← List.append_assoc, ← List.append_assoc]
    simp only [encode_append]
    split
    · rename_i hsame
      rw [hstop] at hrest hordered
      rw [List.nil_append, Terminators.spliceFrom_append hordered, hrest, hsame]
    · rw [List.singleton_append, List.map_cons, spliceFrom]
      simp only [Edit.toSplice, hstart]
      rw [hstop, Nat.add_sub_cancel_left, List.drop_left, ← hstop, hrest, List.append_assoc,
        List.append_assoc, List.take_left, List.append_assoc]

/-- Ordered edits start in order. -/
theorem edits_sorted {c n : Nat} {edits : List Edit}
    (h : Ordered c (edits.map Edit.toSplice) n) :
    edits.Pairwise fun a b => a.range.start ≤ b.range.start := by
  refine (List.pairwise_map.mp h.pairwise).imp_of_mem fun {a b} ha _ hle => ?_
  exact Nat.le_trans (h.mem (List.mem_map_of_mem ha)).2.1 hle

theorem finish_edits {edits : List Edit} {prepared : PowerEdit}
    (hsorted : edits.Pairwise fun a b => a.range.start ≤ b.range.start)
    (h : finish snapshot edits limits = .ok prepared) : prepared.edits = edits := by
  rw [finish] at h
  split_ifs at h
  obtain ⟨carets, -, h⟩ := bind_ok.mp h
  obtain rfl := Except.ok.inj h
  exact hsorted.insertionSort_eq

/-- What a command that succeeds has done. -/
structure Done (u : Unicode) (snapshot : DocumentSnapshot) (set : SelectionSet)
    (action : Transform) (limits : Limits) (prepared : PowerEdit) (normalized : SelectionSet)
    (steps : List Step) (new : Text) : Prop where
  normalize : normalizeDirected u snapshot set limits = .ok normalized
  valid : Normalized snapshot normalized
  gathered : targets u snapshot action limits normalized.selections = .ok (steps.map Step.target)
  planned : Planned snapshot action normalized.selections (steps.map Step.target)
  stepped : ∀ step ∈ steps, StepOf u snapshot action limits step
  laid : Laid 0 0 steps snapshot.text new
  edits : prepared.edits = editsOf steps
  applied : prepared.applied snapshot = encode new
  selections : prepared.selections =
    mergeDirected (steps.flatMap (Step.placed action)) normalized.primary

theorem transform_spec {set : SelectionSet} {prepared : PowerEdit}
    (h : transform u snapshot set action limits = .ok prepared) :
    ∃ normalized steps new, Done u snapshot set action limits prepared normalized steps new := by
  obtain ⟨normalized, hnormalized, h⟩ := bind_ok.mp h
  obtain ⟨ts, hts, h⟩ := bind_ok.mp h
  obtain ⟨out, hout, h⟩ := bind_ok.mp h
  obtain ⟨finished, hfinished, h⟩ := bind_ok.mp h
  obtain rfl := Except.ok.inj h
  have hset := (normalizeDirected_spec hnormalized).1
  have hplanned := targets_spec hset hts
  obtain ⟨steps, new, hlaid, rfl, hsteps, hedits, hafter⟩ := transformFrom_spec hplanned.each
    hplanned.apart (fun _ _ _ _ _ => Nat.zero_le _) (List.nil_append snapshot.text).symm
    (show ((0 : Nat) : Int) = utf8Len [] + 0 from rfl) hout
  have hlaid : Laid 0 0 steps snapshot.text new := hlaid
  have hfinal : finished.edits = editsOf steps :=
    (finish_edits (edits_sorted (hedits ▸ hlaid.ordered)) hfinished).trans hedits
  refine ⟨normalized, steps, new, hnormalized, hset, hts, hplanned, hsteps, hlaid, hfinal, ?_,
    by rw [hafter]⟩
  rw [PowerEdit.applied, hfinal]
  exact hlaid.splice_eq

end BareLine.Power
