import BareLine.Tree.Text
import BareLine.Window.Request

/-!
# What a polled request has read

Every turn of the read loop appends the next bytes of the document, wherever the leaves and the
pages end, and a poll that is told to wait keeps what it has.
-/

namespace BareLine

open Lib

/-! ## §1 Page reads -/

/-- A range inside one page is read from that page. -/
theorem MemorySource.read_spec (source : MemorySource) (state : PageState) (range : Range)
    (hlt : range.start < range.stop) (hle : range.stop ≤ source.data.length)
    (hpage : range.stop ≤ (range.start / source.pageSize + 1) * source.pageSize) :
    source.read state range = match state with
      | .held => .ready (range.of source.data)
      | .missing => .pending ⟨source.identity, range.start / source.pageSize⟩
      | .refused reason => .unavailable reason := by
  have hone : range.start / source.pageSize = (range.stop - 1) / source.pageSize := by
    refine Nat.le_antisymm (Nat.div_le_div_right (by omega)) ?_
    refine Nat.le_of_lt_succ (Nat.div_lt_of_lt_mul ?_)
    rw [Nat.mul_comm, Nat.succ_eq_add_one]
    omega
  rw [read, if_neg (by omega)]
  cases state with
  | held =>
    have hstart := Nat.div_add_mod' range.start source.pageSize
    have hbytes : (⟨range.start % source.pageSize,
          range.start % source.pageSize + (range.stop - range.start)⟩ : Range).of
        (source.page (range.start / source.pageSize)) = range.of source.data := by
      rw [page, Range.of_of (by omega)]
      congr 2
      omega
    exact congrArg SourceRead.ready hbytes
  | missing => rfl
  | refused reason => rfl

namespace Window

open Tree Codec

/-! ## §2 Turns -/

/-- Page sources have pages of at least one byte, as their constructor demands. -/
def HasPages : Node → Prop
  | .leaf _ => True
  | .source source _ => 0 < source.pageSize
  | .ownedSource source _ _ _ => 0 < source.pageSize
  | .branch left right _ _ => HasPages left ∧ HasPages right

/-- A snapshot as the constructors build it. -/
structure PagedSnapshot.Built (snapshot : PagedSnapshot) : Prop where
  wf : RootWf .paged snapshot.root
  pages : ∀ node ∈ snapshot.root, HasPages node

/-- The text of a snapshot. -/
def PagedSnapshot.text (self : PagedSnapshot) : Bytes := Tree.text self.root

theorem PagedSnapshot.Built.len_eq {self : PagedSnapshot} (h : self.Built) :
    self.len = self.text.length := h.wf.bytes

/-- The bytes of a span. -/
def Span.bytes : Span → Bytes
  | .owned raw => raw
  | .ownedSource src range => range.of src.data
  | .source src range => range.of src.data

/-- The span's pages hold its range. -/
def Span.Readable : Span → Prop
  | .owned _ => True
  | .ownedSource src range => range.stop ≤ src.data.length ∧ 0 < src.pageSize
  | .source src range => range.stop ≤ src.data.length ∧ 0 < src.pageSize

private theorem rest_of_range {t : Bytes} {a b offset : Nat}
    (h : offset < ((⟨a, b⟩ : Range).of t).length) :
    (⟨a + offset, b⟩ : Range).of t = ((⟨a, b⟩ : Range).of t).drop offset ∧
      (⟨a + offset, b⟩ : Range).of t ≠ [] := by
  have heq : (⟨a + offset, b⟩ : Range).of t = ((⟨a, b⟩ : Range).of t).drop offset := by
    simp only [Range.of, List.drop_drop]
  refine ⟨heq, ?_⟩
  rw [heq, Ne, List.drop_eq_nil_iff]
  omega

/-- The span under an offset starts the rest of the text. -/
theorem spanAtNode_spec {n : Node} (h : n.Wf .paged) (hp : HasPages n) {offset : Nat}
    (hlt : offset < n.text.length) :
    (spanAtNode n offset).bytes ≠ [] ∧ (spanAtNode n offset).bytes <+: n.text.drop offset ∧
      (spanAtNode n offset).Readable := by
  induction n generalizing offset with
  | leaf piece =>
    refine ⟨?_, List.prefix_rfl, trivial⟩
    rw [spanAtNode, Span.bytes, Ne, List.drop_eq_nil_iff]
    exact Nat.not_le.mpr hlt
  | source source range =>
    obtain ⟨heq, hne⟩ := rest_of_range hlt
    exact ⟨hne, by rw [spanAtNode, Span.bytes, heq]; exact List.prefix_rfl, h.2.2, hp⟩
  | ownedSource source range original summary =>
    obtain ⟨heq, hne⟩ := rest_of_range hlt
    exact ⟨hne, by rw [spanAtNode, Span.bytes, heq]; exact List.prefix_rfl, h.2.2.1, hp⟩
  | branch left right height summary ihl ihr =>
    have hbytes : left.summary.bytes = left.text.length := h.1.bytes
    rw [Node.text, List.length_append] at hlt
    rw [spanAtNode, Node.text, hbytes]
    split_ifs with hin
    · obtain ⟨hne, hprefix, hread⟩ := ihl h.1 hp.1 hin
      refine ⟨hne, ?_, hread⟩
      rw [List.drop_append_of_le_length (Nat.le_of_lt hin)]
      exact hprefix.trans (List.prefix_append _ _)
    · obtain ⟨hne, hprefix, hread⟩ :=
        ihr h.2.1 hp.2 (by omega : offset - left.text.length < right.text.length)
      refine ⟨hne, ?_, hread⟩
      rw [List.drop_append, List.drop_of_length_le (by omega), List.nil_append]
      exact hprefix

/-- A turn does what the page state says: it reads on where the page is there. -/
inductive TurnSpec (span : Span) (left : Nat) : PageState → Turn → Prop where
  | read (state : PageState) (count : Nat) (pos : 0 < count) (le : count ≤ left)
      (within : count ≤ span.bytes.length) :
      TurnSpec span left state (.read (span.bytes.take count) count)
  | pending (ticket : PageTicket) : TurnSpec span left .missing (.pending ticket)
  | unavailable (reason : Unavailable) :
      TurnSpec span left (.refused reason) (.unavailable reason)

/-- One turn over a range of a page source. -/
private theorem turn_source {source : MemorySource} {range : Range} (state : PageState)
    {left : Nat} (hne : range.of source.data ≠ []) (hle : range.stop ≤ source.data.length)
    (hpage : 0 < source.pageSize) (hleft : 0 < left) :
    TurnSpec (.source source range) left state (turn (.source source range) state left) := by
  have hlt : range.start < range.stop := by
    by_contra hno
    exact hne (Range.of_eq_nil (by omega))
  have hmod := Nat.mod_lt range.start hpage
  have hdiv := Nat.div_add_mod' range.start source.pageSize
  have hnext : (range.start / source.pageSize + 1) * source.pageSize =
      range.start / source.pageSize * source.pageSize + source.pageSize := Nat.succ_mul _ _
  simp only [turn]
  generalize hcount : min (min (source.pageSize - range.start % source.pageSize)
    (range.stop - range.start)) left = count
  have hread := source.read_spec state ⟨range.start, range.start + count⟩ (by dsimp only; omega)
    (by dsimp only; omega) (by dsimp only; omega)
  rw [hread]
  cases state with
  | held =>
    have hbytes : (⟨range.start, range.start + count⟩ : Range).of source.data =
        (Span.source source range).bytes.take count := by
      rw [Span.bytes, ← Nat.add_zero range.start, Nat.add_assoc, Nat.zero_add,
        ← Range.of_of (b := range.stop) (by omega)]
      rfl
    rw [hbytes]
    refine .read .held count (by omega) (by omega) ?_
    rw [Span.bytes, Range.of_length]
    omega
  | missing => exact .pending _
  | refused reason => exact .unavailable reason

theorem turn_spec {span : Span} (state : PageState) {left : Nat} (hne : span.bytes ≠ [])
    (hread : span.Readable) (hleft : 0 < left) :
    TurnSpec span left state (turn span state left) := by
  cases span with
  | owned owned =>
    have hpos := List.length_pos_iff.mpr hne
    rw [Span.bytes] at hpos
    refine .read state _ (by omega) (Nat.min_le_right _ _) (Nat.min_le_left _ _)
  | source source range => exact turn_source state hne hread.1 hread.2 hleft
  | ownedSource source range =>
    have := turn_source state hne hread.1 hread.2 hleft
    have hturn : turn (.ownedSource source range) state left =
      turn (.source source range) state left := rfl
    rw [hturn]
    cases hkind : turn (.source source range) state left <;> rw [hkind] at this <;> cases this
    · exact @TurnSpec.read (.ownedSource source range) left state _ ‹_› ‹_› ‹_›
    · exact .pending _
    · exact .unavailable _

/-! ## §3 The loop -/

/-- A loop that has read `bytes` of the text from `start` on. -/
inductive FillSpec (t : Bytes) (start cursor stop : Nat) (pages : Nat → PageState) :
    Filled → Prop where
  | full : FillSpec t start cursor stop pages (.full ((⟨start, stop⟩ : Range).of t))
  | waits (at' : Nat) (ticket : PageTicket) (from' : cursor ≤ at') (before : at' < stop)
      (missing : pages at' = .missing) :
      FillSpec t start cursor stop pages (.waits at' ((⟨start, at'⟩ : Range).of t) ticket)
  | fails (at' : Nat) (reason : Unavailable) (refused : pages at' = .refused reason) :
      FillSpec t start cursor stop pages (.fails at' reason)

theorem FillSpec.mono {t : Bytes} {start cursor cursor' stop : Nat} {pages : Nat → PageState}
    {filled : Filled} (h : FillSpec t start cursor' stop pages filled) (hle : cursor ≤ cursor') :
    FillSpec t start cursor stop pages filled := by
  cases h with
  | full => exact .full
  | waits at' ticket from' before missing =>
    exact .waits at' ticket (Nat.le_trans hle from') before missing
  | fails at' reason refused => exact .fails at' reason refused

/-- The bytes up to a cursor and the ones read behind it. -/
private theorem of_concat {t : Bytes} {start cursor count : Nat} (hle : start ≤ cursor)
    (hin : cursor ≤ t.length) :
    (⟨start, cursor⟩ : Range).of t ++ (t.drop cursor).take count =
      (⟨start, cursor + count⟩ : Range).of t := by
  simp only [Range.of]
  rw [List.take_add, List.drop_append_of_le_length (by rw [List.length_take]; omega)]

/-- The loop ends, and has read exactly the bytes up to where it stands. -/
theorem fill_spec {snapshot : PagedSnapshot} (h : snapshot.Built) {start stop : Nat}
    (pages : Nat → PageState) (hstop : stop ≤ snapshot.text.length) {turns cursor : Nat}
    (hturns : stop - cursor ≤ turns) (hstart : start ≤ cursor) (hcursor : cursor ≤ stop) :
    ∃ filled, fill snapshot.root stop pages turns cursor
        ((⟨start, cursor⟩ : Range).of snapshot.text) = some filled ∧
      FillSpec snapshot.text start cursor stop pages filled := by
  have hdone : ¬cursor < stop → cursor = stop := fun hno => by omega
  induction turns generalizing cursor with
  | zero =>
    have hno : ¬cursor < stop := by omega
    rw [fill, if_neg hno, hdone hno]
    exact ⟨_, rfl, .full⟩
  | succ turns ih =>
    rw [fill]
    by_cases hmore : cursor < stop
    · rw [if_pos hmore]
      cases hroot : snapshot.root with
      | none =>
        rw [PagedSnapshot.text, hroot, text_none, List.length_nil] at hstop
        omega
      | some node =>
        have htext : snapshot.text = node.text := by rw [PagedSnapshot.text, hroot, text_some]
        obtain ⟨hne, hprefix, hread⟩ := spanAtNode_spec (h.wf node hroot) (h.pages node hroot)
          (by rw [← htext]; omega : cursor < node.text.length)
        have hturn := turn_spec (pages cursor) hne hread (Nat.sub_pos_of_lt hmore)
        simp only [spanAt, Option.map_some]
        generalize turn (spanAtNode node cursor) (pages cursor) (stop - cursor) = found at hturn
        generalize hstate : pages cursor = state at hturn
        cases hturn with
        | read state count pos le within =>
          -- the bytes of the turn are the next ones of the text
          have hbytes : (spanAtNode node cursor).bytes.take count =
              (snapshot.text.drop cursor).take count := by
            obtain ⟨rest, hrest⟩ := hprefix
            rw [htext, ← hrest, List.take_append_of_le_length within]
          dsimp only
          rw [hbytes, of_concat hstart (by omega), ← hroot]
          obtain ⟨filled, hfill, hspec⟩ := ih (by omega : stop - (cursor + count) ≤ turns)
            (by omega) (by omega) (fun _ => by omega)
          exact ⟨filled, hfill, hspec.mono (Nat.le_add_right _ _)⟩
        | pending ticket => exact ⟨_, rfl, .waits cursor ticket (Nat.le_refl _) hmore hstate⟩
        | unavailable reason => exact ⟨_, rfl, .fails cursor reason hstate⟩
    · rw [if_neg hmore, hdone hmore]
      exact ⟨_, rfl, .full⟩

/-- The requests a program can have after any number of polls. -/
inductive Reached (first : WindowRequest) : WindowRequest → Prop where
  | begun : Reached first first
  | polled {request next : WindowRequest} {out : WindowPoll} (pages : Nat → PageState)
      (before : Reached first request) (poll : request.poll pages = some (out, next)) :
      Reached first next

/-- A request as it was begun. -/
structure Begun (request : WindowRequest) : Prop where
  built : request.snapshot.Built
  cursor : request.cursor = request.range.start
  stop : request.stop = request.range.stop
  ordered : request.range.start ≤ request.range.stop
  inside : request.range.stop ≤ request.snapshot.text.length
  bytes : request.bytes = some []
  reserved : request.reservation ≠ none

/-- Between two polls a request is over, or holds the bytes up to its cursor. -/
def Standing (first request : WindowRequest) : Prop :=
  request.bytes = none ∨
    ∃ cursor, first.range.start ≤ cursor ∧ cursor ≤ first.range.stop ∧
      request = { first with
        cursor := cursor
        bytes := some ((⟨first.range.start, cursor⟩ : Range).of first.snapshot.text) }

theorem Begun.standing {first : WindowRequest} (h : Begun first) : Standing first first := by
  refine .inr ⟨first.range.start, Nat.le_refl _, h.ordered, ?_⟩
  rw [Range.of_eq_nil (Nat.min_le_left _ _), ← h.bytes, ← h.cursor]

/-- What a poll of a request answers. -/
inductive PollSpec (first : WindowRequest) (pages : Nat → PageState) :
    WindowRequest → WindowPoll × WindowRequest → Prop where
  | spent {request : WindowRequest} (done : request.bytes = none) :
      PollSpec first pages request (.finished, request)
  | pending {request next : WindowRequest} (ticket : PageTicket) (cursor : Nat)
      (missing : pages cursor = .missing) (standing : Standing first next) :
      PollSpec first pages request (.pending ticket, next)
  | unavailable {request next : WindowRequest} (reason : Unavailable) (cursor : Nat)
      (refused : pages cursor = .refused reason) (done : next.bytes = none) :
      PollSpec first pages request (.unavailable reason, next)
  | ready {request next : WindowRequest} (window : TextWindow)
      (range : window.range = (first.settle (first.range.of first.snapshot.text)).range)
      (text : fromUtf8 (first.settle (first.range.of first.snapshot.text)).bytes = .ok window.text)
      (contentState : window.contentState = first.snapshot.contentState)
      (documentId : window.documentId = first.snapshot.documentId)
      (done : next.bytes = none) : PollSpec first pages request (.ready window, next)
  | invalid {request next : WindowRequest} (error : Utf8Error)
      (text : fromUtf8 (first.settle (first.range.of first.snapshot.text)).bytes = .error error)
      (done : next.bytes = none) : PollSpec first pages request (.invalidUtf8, next)

/-- A poll returns, and a request that is done was given the bytes of its range. -/
theorem poll_spec {first request : WindowRequest} (h : Begun first)
    (hstanding : Standing first request) (pages : Nat → PageState) :
    ∃ answer, request.poll pages = some answer ∧ PollSpec first pages request answer := by
  rcases hstanding with hdone | ⟨cursor, hfrom, hto, rfl⟩
  · exact ⟨_, by rw [WindowRequest.poll, hdone], .spent hdone⟩
  have hinside : first.stop ≤ first.snapshot.text.length := h.stop ▸ h.inside
  have hle : cursor ≤ first.stop := h.stop ▸ hto
  obtain ⟨filled, hfill, hspec⟩ :=
    fill_spec h.built pages hinside (Nat.le_refl (first.stop - cursor)) hfrom hle
  rw [WindowRequest.poll]
  dsimp only
  rw [hfill]
  cases hspec with
  | full =>
    have hrange : (⟨first.range.start, first.stop⟩ : Range) = first.range := by rw [h.stop]
    rw [hrange]
    dsimp only
    obtain ⟨reservation, hreserved⟩ := Option.ne_none_iff_exists'.mp h.reserved
    rw [hreserved]
    generalize hsettle : WindowRequest.settle _ _ = edges
    have hedges : first.settle (first.range.of first.snapshot.text) = edges := hsettle
    cases hutf8 : fromUtf8 edges.bytes with
    | ok text =>
      exact ⟨_, rfl, .ready _ (by rw [hedges]) (by rw [hedges]; exact hutf8) rfl rfl rfl⟩
    | error error => exact ⟨_, rfl, .invalid error (by rw [hedges]; exact hutf8) rfl⟩
  | waits at' ticket from' before missing =>
    refine ⟨_, rfl, .pending ticket at' missing (.inr ⟨at', ?_, ?_, rfl⟩)⟩
    · exact Nat.le_trans hfrom from'
    · exact h.stop ▸ Nat.le_of_lt before
  | fails at' reason refused => exact ⟨_, rfl, .unavailable reason at' refused rfl⟩

/-- Polling keeps a request standing. -/
theorem PollSpec.standing {first request next : WindowRequest} {pages : Nat → PageState}
    {out : WindowPoll} (h : PollSpec first pages request (out, next)) : Standing first next := by
  cases h with
  | spent done => exact .inl done
  | pending ticket cursor missing standing => exact standing
  | unavailable reason cursor refused done => exact .inl done
  | ready window range text contentState documentId done => exact .inl done
  | invalid error text done => exact .inl done

theorem Reached.standing {first request : WindowRequest} (h : Begun first)
    (hreached : Reached first request) : Standing first request := by
  induction hreached with
  | begun => exact h.standing
  | polled pages before poll ih =>
    obtain ⟨answer, hpoll, hspec⟩ := poll_spec h ih pages
    rw [poll] at hpoll
    obtain rfl := Option.some.inj hpoll
    exact hspec.standing

end Window

end BareLine
