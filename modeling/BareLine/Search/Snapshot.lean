import BareLine.Search.Types

/-!
# The snapshot a search reads

A complete snapshot is the strings of its tree's leaves, in order.  A search reads it in the
chunks these make of a range, and looks at the scalars around a match in the whole text.
-/

namespace BareLine.Search

open Lib
open String (utf8Len)

/-! ## §1 The snapshot -/

/-- `DocumentSnapshot`; its length is a `usize`. -/
structure DocumentSnapshot where
  pieces : List Text
  revision : Nat
  complete : Bool
  fits : utf8Len pieces.flatten ≤ usizeMax
  deriving DecidableEq, Repr

/-- `text.get(..offset)`, for an offset that is a boundary. -/
def takeBytes (text : Text) (offset : Nat) : Text :=
  ((splitAtByte text offset).map Prod.fst).getD []

/-- `&text[range]`, for a range between boundaries. -/
def slice (text : Text) (range : Range) : Text :=
  takeBytes (dropBytes text range.start) (range.stop - range.start)

/-- `tree::chunks` over the leaves in order. -/
def cut : List Text → Range → List Text
  | [], _ => []
  | piece :: rest, range =>
    let middle := utf8Len piece
    (if range.start < middle then [slice piece ⟨range.start, min range.stop middle⟩] else []) ++
      (if middle < range.stop then cut rest ⟨range.start - middle, range.stop - middle⟩ else [])

namespace DocumentSnapshot

variable (snapshot : DocumentSnapshot)

def text : Text := snapshot.pieces.flatten

def len : Nat := utf8Len snapshot.text

/-- `is_boundary` -/
def isBoundary (offset : Nat) : Bool := isScalarBoundary snapshot.text offset

/-- `validate_range` succeeds. -/
def validRange (range : Range) : Bool :=
  decide (range.start ≤ range.stop) && decide (range.stop ≤ snapshot.len) &&
    snapshot.isBoundary range.start && snapshot.isBoundary range.stop

/-- `chunks`; none where the range is refused. -/
def chunks (range : Range) : Option (List Text) :=
  if snapshot.validRange range then
    some (if range.start < range.stop then cut snapshot.pieces range else [])
  else none

/-- `read`; none where the range is refused or over the limit. -/
def read (range : Range) (maxBytes : Nat) : Option Text := do
  let chunks ← snapshot.chunks range
  if maxBytes < range.stop - range.start then none else some chunks.flatten

end DocumentSnapshot

/-! ## §2 What the chunks of a range make up -/

@[simp] theorem slice_parts (before part after : Text) :
    slice (before ++ (part ++ after)) ⟨utf8Len before, utf8Len before + utf8Len part⟩ = part := by
  rw [slice, dropBytes_append, Nat.add_sub_cancel_left, takeBytes,
    splitAtByte_eq_some.mpr ⟨rfl, rfl⟩]
  rfl

/-- The chunks of a part make it up, wherever the leaves end. -/
theorem cut_flatten {pieces : List Text} {before part after : Text} (hpart : part ≠ [])
    (h : pieces.flatten = before ++ (part ++ after)) :
    (cut pieces ⟨utf8Len before, utf8Len before + utf8Len part⟩).flatten = part := by
  induction pieces generalizing before part with
  | nil =>
    have h := (List.append_eq_nil_iff.mp (List.append_eq_nil_iff.mp h.symm).2).1
    exact absurd h hpart
  | cons piece pieces ih =>
    have hpos : 0 < utf8Len part :=
      Nat.pos_of_ne_zero fun hzero => hpart (String.utf8Len_eq_zero.mp hzero)
    rw [List.flatten_cons] at h
    rw [cut]
    dsimp only
    rcases List.append_eq_append_iff.mp h with ⟨before', rfl, hrest⟩ | ⟨front, rfl, hrest⟩
    · -- the part starts behind the leaf
      have hstart : ¬utf8Len (piece ++ before') < utf8Len piece := by
        rw [String.utf8Len_append]
        omega
      have hstop : utf8Len piece < utf8Len (piece ++ before') + utf8Len part := by
        rw [String.utf8Len_append]
        omega
      rw [if_neg hstart, if_pos hstop, List.nil_append, String.utf8Len_append, Nat.add_assoc,
        Nat.add_sub_cancel_left, Nat.add_sub_cancel_left]
      exact ih hpart hrest
    · rcases List.append_eq_append_iff.mp hrest.symm with ⟨part', rfl, hrest'⟩ | ⟨rest, rfl, -⟩
      · -- the leaf ends inside the part, or where it starts
        have hmin : min (utf8Len before + utf8Len (front ++ part')) (utf8Len (before ++ front)) =
            utf8Len before + utf8Len front := by
          rw [String.utf8Len_append, String.utf8Len_append]
          omega
        have hleft : (if utf8Len before < utf8Len (before ++ front) then
            [slice (before ++ front) ⟨utf8Len before, utf8Len before + utf8Len front⟩]
            else []).flatten = front := by
          have hslice := slice_parts before front []
          rw [List.append_nil] at hslice
          split
          · rw [hslice, List.flatten_singleton]
          · rename_i hempty
            rw [String.utf8Len_append] at hempty
            rw [List.flatten_nil, String.utf8Len_eq_zero.mp (by omega : utf8Len front = 0)]
        have hright : (if utf8Len (before ++ front) < utf8Len before + utf8Len (front ++ part') then
            cut pieces ⟨utf8Len before - utf8Len (before ++ front),
              utf8Len before + utf8Len (front ++ part') - utf8Len (before ++ front)⟩
            else []).flatten = part' := by
          rw [String.utf8Len_append, String.utf8Len_append]
          split
          · rename_i hmore
            have hne : part' ≠ [] := fun hnil => by
              rw [hnil, String.utf8Len_nil] at hmore
              omega
            have hcut := @ih [] part' hne hrest'
            rw [String.utf8Len_nil, Nat.zero_add] at hcut
            rw [Nat.sub_eq_zero_of_le (Nat.le_add_right _ _), ← Nat.add_assoc,
              Nat.add_sub_cancel_left, hcut]
          · rename_i hdone
            rw [List.flatten_nil, String.utf8Len_eq_zero.mp (by omega : utf8Len part' = 0)]
        rw [hmin, List.flatten_append, hleft, hright]
      · -- the part ends inside the leaf
        have hstart : utf8Len before < utf8Len (before ++ (part ++ rest)) := by
          rw [String.utf8Len_append, String.utf8Len_append]
          omega
        have hstop : utf8Len before + utf8Len part ≤ utf8Len (before ++ (part ++ rest)) := by
          rw [String.utf8Len_append, String.utf8Len_append]
          omega
        rw [if_pos hstart, if_neg (Nat.not_lt.mpr hstop), Nat.min_eq_left hstop, slice_parts,
          List.append_nil, List.flatten_singleton]

namespace DocumentSnapshot

variable {snapshot : DocumentSnapshot}

theorem isBoundary_iff {offset : Nat} : snapshot.isBoundary offset = true ↔
    ∃ before after, snapshot.text = before ++ after ∧ utf8Len before = offset :=
  isScalarBoundary_iff

/-- A range is valid where it is a part of the text. -/
theorem validRange_iff {range : Range} : snapshot.validRange range = true ↔
    ∃ before part after, snapshot.text = before ++ (part ++ after) ∧
      range = ⟨utf8Len before, utf8Len before + utf8Len part⟩ := by
  obtain ⟨start, stop⟩ := range
  simp only [validRange, Bool.and_eq_true, decide_eq_true_eq, isBoundary_iff]
  constructor
  · rintro ⟨⟨⟨hle, -⟩, before, rest, htext, rfl⟩, front, after, htext', rfl⟩
    have hsame : before ++ rest = front ++ after := htext.symm.trans htext'
    rcases List.append_eq_append_iff.mp hsame with ⟨part, rfl, rfl⟩ | ⟨part, rfl, -⟩
    · exact ⟨before, part, after, htext, by rw [String.utf8Len_append]⟩
    · -- a range that is not reversed is empty here
      rw [String.utf8Len_append] at hle
      have hnil : part = [] := String.utf8Len_eq_zero.mp (by omega)
      subst hnil
      exact ⟨front ++ [], [], rest, htext, by rw [List.append_nil, String.utf8Len_nil,
        Nat.add_zero]⟩
  · rintro ⟨before, part, after, htext, hrange⟩
    obtain ⟨rfl, rfl⟩ := Range.mk.inj hrange
    refine ⟨⟨⟨Nat.le_add_right _ _, ?_⟩, before, part ++ after, htext, rfl⟩,
      before ++ part, after, by rw [htext, List.append_assoc], String.utf8Len_append ..⟩
    rw [len, htext, String.utf8Len_append, String.utf8Len_append]
    exact Nat.add_le_add_left (Nat.le_add_right _ _) _

/-- The chunks of a part make it up. -/
theorem chunks_spec {before part after : Text}
    (htext : snapshot.text = before ++ (part ++ after)) :
    ∃ chunks, snapshot.chunks ⟨utf8Len before, utf8Len before + utf8Len part⟩ = some chunks ∧
      chunks.flatten = part := by
  rw [chunks, if_pos (validRange_iff.mpr ⟨before, part, after, htext, rfl⟩)]
  refine ⟨_, rfl, ?_⟩
  dsimp only
  split
  · rename_i hlt
    exact cut_flatten (fun hnil => by rw [hnil, String.utf8Len_nil] at hlt; omega) htext
  · rename_i hempty
    rw [List.flatten_nil, String.utf8Len_eq_zero.mp (by omega : utf8Len part = 0)]

/-- Only a valid range has chunks. -/
theorem validRange_of_chunks {range : Range} {chunks : List Text}
    (h : snapshot.chunks range = some chunks) : snapshot.validRange range = true := by
  rw [DocumentSnapshot.chunks] at h
  split at h
  · assumption
  · exact nomatch h

/-- A part within the limit is read. -/
theorem read_eq {before part after : Text} {maxBytes : Nat}
    (htext : snapshot.text = before ++ (part ++ after)) (hmax : utf8Len part ≤ maxBytes) :
    snapshot.read ⟨utf8Len before, utf8Len before + utf8Len part⟩ maxBytes = some part := by
  obtain ⟨chunks, hchunks, hflat⟩ := chunks_spec htext
  rw [read, hchunks, Option.bind_eq_bind, Option.bind_some, hflat,
    if_neg (by rw [Nat.add_sub_cancel_left]; omega)]

end DocumentSnapshot

/-! ## §3 Word boundaries -/

/-- `is_word`, over the table `WORD` of ranges. -/
def isWord (table : List (Nat × Nat)) (c : Char) : Bool :=
  ((table.dropWhile fun range => range.2 < c.toNat).head?).any fun range => range.1 ≤ c.toNat

/-- `while !snapshot.is_boundary(before) { before += 1 }`; the fuel ends it at the text's
end, where it ends in any case. -/
def boundaryFrom (snapshot : DocumentSnapshot) : Nat → Nat → Nat
  | 0, before => before
  | fuel + 1, before =>
    if snapshot.isBoundary before then before else boundaryFrom snapshot fuel (before + 1)

/-- `while !snapshot.is_boundary(after) { after -= 1 }` -/
def boundaryUpTo (snapshot : DocumentSnapshot) : Nat → Nat
  | 0 => 0
  | after + 1 => if snapshot.isBoundary (after + 1) then after + 1 else boundaryUpTo snapshot after

/-- `word::boundaries` -/
def boundaries (table : List (Nat × Nat)) (snapshot : DocumentSnapshot) (start stop : Nat) :
    Option Bool := do
  let before := start - 4
  let before := boundaryFrom snapshot (snapshot.len - before) before
  let front ← snapshot.read ⟨before, start⟩ 4
  if front.getLast?.any (isWord table) then some false
  else
    let after := boundaryUpTo snapshot (min (saturatingAdd stop 4) snapshot.len)
    let back ← snapshot.read ⟨stop, after⟩ 4
    some !back.head?.any (isWord table)

/-! ## §4 What stands around a match -/

/-- No word character ends in front of a match and none starts behind it. -/
structure StandsAlone (table : List (Nat × Nat)) (before after : Text) : Prop where
  front : before.getLast?.any (isWord table) = false
  back : after.head?.any (isWord table) = false

section Around

variable {snapshot : DocumentSnapshot} {table : List (Nat × Nat)}

/-- Looking for a boundary onwards passes none. -/
theorem boundaryFrom_spec {boundary : Nat} (hboundary : snapshot.isBoundary boundary = true)
    {fuel position : Nat} (hle : position ≤ boundary) (hfuel : boundary ≤ position + fuel) :
    let found := boundaryFrom snapshot fuel position
    position ≤ found ∧ found ≤ boundary ∧ snapshot.isBoundary found = true := by
  induction fuel generalizing position with
  | zero =>
    obtain rfl : position = boundary := Nat.le_antisymm hle hfuel
    exact ⟨Nat.le_refl _, Nat.le_refl _, hboundary⟩
  | succ fuel ih =>
    rw [boundaryFrom]
    split
    · rename_i hhere
      exact ⟨Nat.le_refl _, hle, hhere⟩
    · rename_i hhere
      have hne : position ≠ boundary := fun heq => hhere (heq ▸ hboundary)
      have hnext := @ih (position + 1) (by omega) (by omega)
      exact ⟨Nat.le_of_succ_le hnext.1, hnext.2⟩

/-- Looking for a boundary backwards passes none. -/
theorem boundaryUpTo_spec {boundary : Nat} (hboundary : snapshot.isBoundary boundary = true)
    {position : Nat} (hle : boundary ≤ position) :
    let found := boundaryUpTo snapshot position
    boundary ≤ found ∧ found ≤ position ∧ snapshot.isBoundary found = true := by
  induction position with
  | zero =>
    obtain rfl : boundary = 0 := Nat.le_zero.mp hle
    exact ⟨Nat.le_refl _, Nat.le_refl _, hboundary⟩
  | succ position ih =>
    rw [boundaryUpTo]
    split
    · rename_i hhere
      exact ⟨hle, Nat.le_refl _, hhere⟩
    · rename_i hhere
      have hne : boundary ≠ position + 1 := fun heq => hhere (heq ▸ hboundary)
      have hnext := ih (by omega)
      exact ⟨hnext.1, Nat.le_succ_of_le hnext.2.1, hnext.2.2⟩

/-- A boundary inside a part cuts it. -/
theorem cut_at {before part after : Text} {offset : Nat}
    (htext : snapshot.text = before ++ (part ++ after))
    (hboundary : snapshot.isBoundary offset = true) (hle : utf8Len before ≤ offset)
    (hge : offset ≤ utf8Len before + utf8Len part) :
    ∃ left right, part = left ++ right ∧ offset = utf8Len before + utf8Len left := by
  obtain ⟨front, rest, hfront, rfl⟩ := DocumentSnapshot.isBoundary_iff.mp hboundary
  have hsame : before ++ (part ++ after) = front ++ rest := htext.symm.trans hfront
  rcases List.append_eq_append_iff.mp hsame with ⟨left, rfl, hrest⟩ | ⟨left, rfl, -⟩
  · rw [String.utf8Len_append] at hge ⊢
    rcases List.append_eq_append_iff.mp hrest with ⟨extra, rfl, -⟩ | ⟨right, rfl, -⟩
    · rw [String.utf8Len_append] at hge
      have hnil : extra = [] := String.utf8Len_eq_zero.mp (by omega)
      subst hnil
      exact ⟨part, [], (List.append_nil part).symm, by rw [List.append_nil]⟩
    · exact ⟨left, right, rfl, rfl⟩
  · rw [String.utf8Len_append] at hle
    have hnil : left = [] := String.utf8Len_eq_zero.mp (by omega)
    subst hnil
    exact ⟨[], part, rfl, by rw [List.append_nil, String.utf8Len_nil, Nat.add_zero]⟩

/-- The scalar in front of a match is the last of what is read there. -/
theorem read_front {before rest : Text} (htext : snapshot.text = before ++ rest) :
    ∃ near, snapshot.read ⟨boundaryFrom snapshot (snapshot.len - (utf8Len before - 4))
      (utf8Len before - 4), utf8Len before⟩ 4 = some near ∧ near.getLast? = before.getLast? := by
  have hlen : snapshot.len = utf8Len before + utf8Len rest := by
    rw [DocumentSnapshot.len, htext, String.utf8Len_append]
  rcases List.eq_nil_or_concat before with rfl | ⟨init, c, rfl⟩
  · obtain ⟨-, hle, -⟩ := boundaryFrom_spec
      (show snapshot.isBoundary 0 = true from isScalarBoundary_zero _) (Nat.le_refl 0)
      (show 0 ≤ 0 + snapshot.len from Nat.zero_le _)
    refine ⟨[], ?_, rfl⟩
    rw [String.utf8Len_nil, Nat.zero_sub, Nat.sub_zero, Nat.le_zero.mp hle]
    exact DocumentSnapshot.read_eq (show _ = [] ++ ([] ++ rest) from htext) (Nat.zero_le 4)
  · rw [List.concat_eq_append] at htext hlen ⊢
    have hsize := c.utf8Size_le_four
    rw [String.utf8Len_append, String.utf8Len_cons, String.utf8Len_nil, Nat.zero_add] at *
    -- the scalar in front starts at most four bytes before
    obtain ⟨hnear, hle, hfound⟩ := boundaryFrom_spec
      (DocumentSnapshot.isBoundary_iff.mpr
        ⟨init, [c] ++ rest, by rw [htext, List.append_assoc], rfl⟩)
      (show utf8Len init + c.utf8Size - 4 ≤ utf8Len init by omega)
      (show utf8Len init ≤ utf8Len init + c.utf8Size - 4 +
        (snapshot.len - (utf8Len init + c.utf8Size - 4)) by omega)
    generalize boundaryFrom snapshot _ _ = found at hnear hle hfound ⊢
    obtain ⟨left, right, rfl, hleft⟩ := cut_at
      (show snapshot.text = [] ++ (init ++ ([c] ++ rest)) by
        rw [htext, List.nil_append, List.append_assoc]) hfound (Nat.zero_le _)
      (by rwa [String.utf8Len_nil, Nat.zero_add])
    rw [String.utf8Len_nil, Nat.zero_add] at hleft
    have hread := DocumentSnapshot.read_eq
      (show snapshot.text = left ++ ((right ++ [c]) ++ rest) by
        rw [htext]
        simp only [List.append_assoc])
      (show utf8Len (right ++ [c]) ≤ 4 by
        rw [String.utf8Len_append] at hnear
        rw [String.utf8Len_append, String.utf8Len_cons, String.utf8Len_nil]
        omega)
    refine ⟨right ++ [c], ?_, by rw [List.getLast?_concat, List.getLast?_concat]⟩
    rw [hleft, String.utf8Len_append, Nat.add_assoc]
    rw [String.utf8Len_append, String.utf8Len_cons, String.utf8Len_nil, Nat.zero_add] at hread
    exact hread

/-- The scalar behind a match is the first of what is read there. -/
theorem read_back {before rest : Text} (htext : snapshot.text = before ++ rest) :
    ∃ near, snapshot.read ⟨utf8Len before,
      boundaryUpTo snapshot (min (saturatingAdd (utf8Len before) 4) snapshot.len)⟩ 4 = some near ∧
      near.head? = rest.head? := by
  have hlen : snapshot.len = utf8Len before + utf8Len rest := by
    rw [DocumentSnapshot.len, htext, String.utf8Len_append]
  have hfits : snapshot.len ≤ usizeMax := snapshot.fits
  have hposition : min (saturatingAdd (utf8Len before) 4) snapshot.len =
      min (utf8Len before + 4) snapshot.len := by
    rw [saturatingAdd]
    omega
  rw [hposition]
  cases rest with
  | nil =>
    rw [String.utf8Len_nil] at hlen
    obtain ⟨hge, hle, -⟩ := boundaryUpTo_spec
      (DocumentSnapshot.isBoundary_iff.mpr ⟨before, [], htext, rfl⟩)
      (show utf8Len before ≤ min (utf8Len before + 4) snapshot.len by omega)
    refine ⟨[], ?_, rfl⟩
    rw [Nat.le_antisymm (by omega) hge]
    exact DocumentSnapshot.read_eq (show _ = before ++ ([] ++ []) from htext) (Nat.zero_le 4)
  | cons c rest =>
    have hsize := c.utf8Size_le_four
    rw [String.utf8Len_cons] at hlen
    have hbehind : snapshot.isBoundary (utf8Len before + c.utf8Size) = true :=
      DocumentSnapshot.isBoundary_iff.mpr ⟨before ++ [c], rest, by simp [htext], by simp⟩
    obtain ⟨hge, hle, hfound⟩ := boundaryUpTo_spec hbehind
      (show utf8Len before + c.utf8Size ≤ min (utf8Len before + 4) snapshot.len by omega)
    generalize boundaryUpTo snapshot _ = found at hge hle hfound ⊢
    obtain ⟨left, right, rfl, rfl⟩ := cut_at
      (show snapshot.text = (before ++ [c]) ++ (rest ++ []) by simp [htext]) hfound (by simpa using hge) (by simp; omega)
    rw [String.utf8Len_append, String.utf8Len_cons, String.utf8Len_nil, Nat.zero_add] at hle ⊢
    have hread := DocumentSnapshot.read_eq (show _ = before ++ ((c :: left) ++ right) from htext)
      (show utf8Len (c :: left) ≤ 4 by
        rw [String.utf8Len_cons]
        omega)
    refine ⟨c :: left, ?_, rfl⟩
    rw [Nat.add_assoc, Nat.add_comm c.utf8Size, ← String.utf8Len_cons]
    exact hread

/-- The bounded lookaround sees what stands around a match. -/
theorem boundaries_eq (table : List (Nat × Nat)) {before hit after : Text}
    (htext : snapshot.text = before ++ (hit ++ after)) :
    ∃ alone, boundaries table snapshot (utf8Len before) (utf8Len before + utf8Len hit) =
      some alone ∧ (alone = true ↔ StandsAlone table before after) := by
  obtain ⟨front, hfront, hlast⟩ := read_front htext
  obtain ⟨back, hback, hhead⟩ := read_back
    (show snapshot.text = (before ++ hit) ++ after by rw [htext, List.append_assoc])
  rw [String.utf8Len_append] at hback
  simp only [boundaries, hfront, hback, Option.bind_eq_bind, Option.bind_some, hlast, hhead]
  split
  · rename_i hword
    exact ⟨false, rfl, ⟨nofun, fun h => absurd hword (by rw [h.front]; decide)⟩⟩
  · rename_i hword
    refine ⟨_, rfl, ?_⟩
    rw [Bool.not_eq_true'] 
    exact ⟨fun h => ⟨Bool.eq_false_iff.mpr hword, h⟩, fun h => h.back⟩

end Around

end BareLine.Search
