import BareLine.Power.Selections
import BareLine.Lib.Rescan

/-!
# Occurrences of a selected text

The occurrences of a text that begin and end on cluster boundaries, found in windows of bounded
size.  What is done with each match is a parameter of the loops, so that the visits of the code
and the record of all its tests are one function.
-/

namespace BareLine.Power

open Lib
open Search (Text)
open String (utf8Len)

/-! ## §1 Matches and boundaries -/

/-- `str::match_indices` from an offset on; the scalars of a match are left out. -/
def matchesFrom (needle : Text) : Nat → Nat → Text → List Nat
  | _, _, [] => []
  | offset, skip + 1, c :: text => matchesFrom needle (offset + c.utf8Size) skip text
  | offset, 0, c :: text =>
    if needle.isPrefixOf (c :: text) then
      offset :: matchesFrom needle (offset + c.utf8Size) (needle.length - 1) text
    else matchesFrom needle (offset + c.utf8Size) 0 text

/-- `text.match_indices(needle)` -/
def matchIndices (needle text : Text) : List Nat := matchesFrom needle 0 0 text

/-- `grapheme_indices` from an offset on, without the clusters. -/
def clusterOffsets : Nat → List Text → List Nat
  | _, [] => []
  | offset, g :: clusters => offset :: clusterOffsets (offset + utf8Len g) clusters

/-- `while boundaries.next_if(|b| *b < target).is_some() {}` -/
def seekTo (boundaries : List Nat) (target : Nat) : List Nat :=
  boundaries.dropWhile fun b => b < target

/-! ## §2 One window -/

/-- A window: where it starts, where the matches it visits end to start, where its text ends, and
the length of the text. -/
structure Window where
  start : Nat
  split : Nat
  stop : Nat
  deriving DecidableEq, Repr

/-- Whether a match stands on cluster boundaries; the last one of a text that goes on is asked of
the source. -/
def isAligned (u : Unicode) (snapshot : DocumentSnapshot) (limits : Limits) (w : Window)
    (onBoundaries : Bool) (finish : Nat) : Except Error Bool :=
  if onBoundaries ∧ w.start + finish = w.stop ∧ w.stop < snapshot.len then do
    let found ← snap u snapshot w.stop limits
    pure (found == w.stop)
  else .ok onBoundaries

/-- The loop over the matches of a window.  `handle` is told where a match stands and whether it
is aligned, and answers whether to stop. -/
def windowLoop {σ : Type} (u : Unicode) (snapshot : DocumentSnapshot) (limits : Limits)
    (length : Nat) (w : Window) (handle : σ → Nat → Bool → Except Error (Bool × σ)) :
    List Nat → List Nat → Nat → σ → Except Error (Bool × Nat × σ)
  | [], _, next, s => .ok (false, next, s)
  | place :: rest, boundaries, next, s =>
    if w.split ≤ w.start + place then .ok (false, next, s)
    else if w.start + place < next then windowLoop u snapshot limits length w handle rest boundaries next s
    else do
      let atStart := seekTo boundaries place
      let atEnd := seekTo atStart (place + length)
      let aligned ← isAligned u snapshot limits w
        (atStart.head? == some place && atEnd.head? == some (place + length)) (place + length)
      let (stopped, s) ← handle s (w.start + place) aligned
      let next := if aligned then w.start + place + length else next
      if stopped then pure (true, next, s)
      else windowLoop u snapshot limits length w handle rest atEnd next s

/-! ## §3 The windows -/

/-- Where a window from `start` on splits. -/
def windowSplit (u : Unicode) (snapshot : DocumentSnapshot) (limits : Limits) (size start limit : Nat) :
    Except Error Nat :=
  let split := min (saturatingAdd start size) limit
  if split < limit then do
    let split ← snap u snapshot (Search.boundaryUpTo snapshot.toDocumentSnapshot split) limits
    pure (if split ≤ start then limit else split)
  else .ok split

/-- `occurrences_in` up to `limit` from a window on, for windows of a size.  Every window ends
behind its start (`windowSplit_lt`). -/
def occurrencesFrom {σ : Type} (u : Unicode) (snapshot : DocumentSnapshot) (limits : Limits)
    (size : Nat) (needle : Text) (limit : Nat)
    (handle : σ → Window → Nat → Bool → Except Error (Bool × σ)) (start next : Nat) (s : σ) :
    Except Error (Bool × σ) :=
  if start < limit then do
    let split ← windowSplit u snapshot limits size start limit
    let stop := Search.boundaryUpTo snapshot.toDocumentSnapshot
      (min (saturatingAdd split (utf8Len needle)) snapshot.len)
    let text ← snapshot.readText ⟨start, stop⟩ limits.maxBytes
    let (stopped, next, s) ← windowLoop u snapshot limits (utf8Len needle) ⟨start, split, stop⟩
      (fun s => handle s ⟨start, split, stop⟩) (matchIndices needle text)
      (clusterOffsets 0 (u.graphemes text) ++ [utf8Len text]) next s
    if stopped then pure (true, s)
    else if _h : start < max split next then
      occurrencesFrom u snapshot limits size needle limit handle (max split next) next s
    else pure (false, s)
  else .ok (false, s)
termination_by limit - start

/-- `occurrences_in`, for windows of a size: only aligned matches are visited. -/
def occurrencesIn {σ : Type} (u : Unicode) (snapshot : DocumentSnapshot) (limits : Limits)
    (size : Nat) (needle : Text) (start limit : Nat) (visit : σ → Range → Except Error (Bool × σ))
    (s : σ) : Except Error (Bool × σ) :=
  occurrencesFrom u snapshot limits size needle limit
    (fun s _ place aligned =>
      if aligned then visit s ⟨place, place + utf8Len needle⟩ else .ok (false, s)) start start s

end BareLine.Power
