import BareLine.Search.Literal
import BareLine.Lib.Leftmost

/-!
# The literal scan is exact

A scan chooses the leftmost matches, the next one from where the last one stops.  The bytes it
compares are the image of the selection's scalars: a full match of the pattern that starts
and ends a scalar is a match of whole scalars, and no other is.
-/

namespace BareLine.Search

open Lib Lib.Leftmost
open String (utf8Len)

/-! ## §1 What a query accepts -/

/-- A range that a query accepts: whole scalars of the selection whose compared bytes are those
of the wanted text, alone among the words of the whole text where the query says so. -/
def IsHit (surroundings : Surroundings) (query : SearchQuery) (text wanted : Text)
    (selection range : Range) : Prop :=
  selection.start ≤ range.start ∧ range.stop ≤ selection.stop ∧
    ∃ before hit after, text = before ++ (hit ++ after) ∧
      range = ⟨utf8Len before, utf8Len before + utf8Len hit⟩ ∧
      hit.flatMap (imageOf surroundings.folding (query.case == .folded)) =
        wanted.flatMap (imageOf surroundings.folding (query.case == .folded)) ∧
      (query.wholeWord = true → StandsAlone surroundings.words before after)

/-! ## §2 Full matches and scalars -/

/-- Scalars `w` behind scalars `a` whose bytes are the pattern and end at byte `n`. -/
structure Window (image : Char → List UInt8) (part : Text) (p : List UInt8) (n : Nat)
    (a w : Text) : Prop where
  within : a ++ w <+: part
  spells : w.flatMap image = p
  ends : ((a ++ w).flatMap image).length = n

section Windows

variable {image : Char → List UInt8} {part : Text} {p : List UInt8} {n : Nat} {a w : Text}

theorem Window.length_front (h : Window image part p n a w) :
    (a.flatMap image).length + p.length = n := by
  rw [← h.spells, ← length_flatMap_append, h.ends]

/-- One window ends at a byte. -/
theorem Window.unique (hne : ∀ c, image c ≠ []) {a' w' : Text} (h : Window image part p n a w)
    (h' : Window image part p n a' w') : a = a' ∧ w = w' := by
  have ha : a = a' := by
    refine eq_of_flatMap_length_eq hne ((List.prefix_append a w).trans h.within)
      ((List.prefix_append a' w').trans h'.within) ?_
    have hfront := h.length_front
    have hfront' := h'.length_front
    omega
  subst ha
  have hw := eq_of_flatMap_length_eq hne h.within h'.within (by rw [h.ends, h'.ends])
  exact ⟨rfl, List.append_cancel_left hw⟩

/-- Bytes between two fronts of a text are a window. -/
theorem window_of_fronts (hne : ∀ c, image c ≠ []) {d : Text} {x : List UInt8}
    (ha : a <+: part) (hd : d <+: part) (hends : d.flatMap image = x ++ p)
    (hstarts : (a.flatMap image).length = x.length) :
    ∃ w, d = a ++ w ∧ Window image part p (d.flatMap image).length a w := by
  obtain ⟨w, rfl⟩ := isPrefix_of_flatMap_length_le hne ha hd (by
    rw [hends, List.length_append, hstarts]
    exact Nat.le_add_right _ _)
  refine ⟨w, rfl, hd, ?_, rfl⟩
  rw [List.flatMap_append] at hends
  exact (List.append_inj hends hstarts).2

/-- Where the last byte ends a scalar and the first starts one, a full match is a window; the
ranges of the two bytes are where it starts and stops. -/
theorem window_scalars {base : Nat} (hne : ∀ c, image c ≠ [])
    {front back after : List MappedUnit} {first last : MappedUnit} {done : List MappedUnit}
    (hunits : scalarUnits image base part = done ++ last :: after)
    (hdone : done ++ [last] = front ++ first :: back)
    (hp : (first :: back).map MappedUnit.byte = p)
    (hbytes : part.flatMap image = (done ++ last :: after).map MappedUnit.byte) :
    ((first.first && last.last) = true ↔ ∃ a w, Window image part p (done.length + 1) a w) ∧
      ∀ a w, Window image part p (done.length + 1) a w →
        first.start = base + utf8Len a ∧ last.stop = base + utf8Len (a ++ w) := by
  have hfront : scalarUnits image base part = front ++ first :: (back ++ after) := by
    rw [hunits, List.append_cons, hdone, List.append_assoc, List.cons_append]
  obtain ⟨a₀, c₀, b₀, k₀, hpart₀, hk₀, hlen₀, hstart₀, -, hfirst₀, -⟩ := scalarUnits_place hfront
  obtain ⟨a₁, c₁, b₁, k₁, hpart₁, hk₁, hlen₁, -, hstop₁, -, hlast₁⟩ := scalarUnits_place hunits
  have ha₀ : a₀ <+: part := ⟨c₀ :: b₀, hpart₀.symm⟩
  have hd₁ : a₁ ++ [c₁] <+: part := ⟨b₁, by rw [hpart₁, List.append_assoc]; rfl⟩
  have hlen : front.length + p.length = done.length + 1 := by
    have h := congrArg List.length hdone
    rw [List.length_append, List.length_append, List.length_singleton] at h
    rw [← hp, List.length_map, h]
  -- a window starts and ends at these two scalars
  have hwindow : ∀ a w, Window image part p (done.length + 1) a w →
      k₀ = 0 ∧ a = a₀ ∧ k₁ + 1 = (image c₁).length ∧ a ++ w = a₁ ++ [c₁] := fun a w h => by
    have hstarts := h.length_front
    obtain ⟨hzero, ha⟩ := not_inside hne hpart₀ ((List.prefix_append a w).trans h.within) hk₀
      (by omega)
    have hwhole : k₁ + 1 = (image c₁).length := by
      by_contra hinside
      have := not_inside hne hpart₁ h.within (k := k₁ + 1) (by omega) (by rw [h.ends]; omega)
      omega
    refine ⟨hzero, ha, hwhole, eq_of_flatMap_length_eq hne h.within hd₁ ?_⟩
    rw [h.ends, length_flatMap_append, List.flatMap_singleton]
    omega
  refine ⟨⟨fun hflags => ?_, fun ⟨a, w, h⟩ => ?_⟩, fun a w h => ?_⟩
  · rw [hfirst₀, hlast₁, Bool.and_eq_true, beq_iff_eq, beq_iff_eq] at hflags
    obtain ⟨rfl, hwhole⟩ := hflags
    have hend : ((a₁ ++ [c₁]).flatMap image).length = done.length + 1 := by
      rw [length_flatMap_append, List.flatMap_singleton]
      omega
    have hbytes₁ : (a₁ ++ [c₁]).flatMap image = front.map MappedUnit.byte ++ p := by
      have hall : (a₁ ++ [c₁]).flatMap image ++ b₁.flatMap image =
          front.map MappedUnit.byte ++ p ++ after.map MappedUnit.byte := by
        rw [← List.flatMap_append, List.append_assoc, List.singleton_append, ← hpart₁, hbytes,
          List.append_cons, hdone, ← hp, List.map_append, List.map_append, List.append_assoc]
      refine (List.append_inj hall ?_).1
      rw [hend, List.length_append, List.length_map, hlen]
    obtain ⟨w, hd, h⟩ := window_of_fronts hne ha₀ hd₁ hbytes₁ (by
      rw [List.length_map]
      omega)
    rw [hend] at h
    exact ⟨a₀, w, h⟩
  · obtain ⟨hzero, -, hwhole, -⟩ := hwindow a w h
    rw [hfirst₀, hlast₁, Bool.and_eq_true, beq_iff_eq, beq_iff_eq]
    exact ⟨hzero, hwhole⟩
  · obtain ⟨-, rfl, -, hd⟩ := hwindow a w h
    rw [hstart₀, hstop₁, hd]
    exact ⟨rfl, rfl⟩

/-- Without folding a full match of a text's bytes is a window. -/
theorem window_bytes {base : Nat} {wanted : Text} (hwanted : wanted ≠ [])
    {after done : List MappedUnit} {last : MappedUnit} {x : List UInt8}
    (hunits : byteUnits base (encode part) = done ++ last :: after)
    (hdone : (done ++ [last]).map MappedUnit.byte = x ++ encode wanted) :
    (∃ a w, Window String.utf8EncodeChar part (encode wanted) (done.length + 1) a w) ∧
      ∀ a w, Window String.utf8EncodeChar part (encode wanted) (done.length + 1) a w →
        last.stop - (encode wanted).length = base + utf8Len a ∧
          last.stop = base + utf8Len (a ++ w) := by
  obtain ⟨hstop, -⟩ := byteUnits_place hunits
  constructor
  · have hbytes : encode part = x ++ (encode wanted ++ after.map MappedUnit.byte) := by
      rw [← map_byte_byteUnits base (encode part), hunits, List.append_cons, List.map_append,
        hdone, List.append_assoc]
    obtain ⟨a, b, rfl, ha⟩ := exists_part hwanted hbytes
    refine ⟨a, wanted, ⟨b, List.append_assoc ..⟩, rfl, ?_⟩
    have hlen := congrArg List.length hdone
    rw [List.length_map, List.length_append, List.length_singleton, List.length_append] at hlen
    change (encode (a ++ wanted)).length = _
    rw [encode_append, ha, List.length_append, hlen]
  · intro a w h
    have hends : (encode (a ++ w)).length = done.length + 1 := h.ends
    have hspells : encode w = encode wanted := h.spells
    rw [length_encode] at hends
    rw [hstop, hends, ← hspells, length_encode]
    rw [String.utf8Len_append] at hends
    omega

end Windows

/-! ## §3 The ring of ranges -/

/-- The ring holds the ranges of the bytes that went through it last. -/
structure Ring (m : Nat) (done : List MappedUnit) (mapping : List (Nat × Bool)) : Prop where
  length : mapping.length = m
  holds : ∀ front unit back, done = front ++ unit :: back → back.length < m →
    mapping.getD (front.length % m) (0, false) = (unit.start, unit.first)

theorem ring_nil (m : Nat) : Ring m [] (List.replicate m (0, false)) where
  length := List.length_replicate
  holds := fun _ _ _ h => absurd h.symm
    (List.append_ne_nil_of_right_ne_nil _ (List.cons_ne_nil _ _))

/-- One more byte takes the place of the oldest. -/
theorem Ring.push {m : Nat} {done : List MappedUnit} {mapping : List (Nat × Bool)}
    (h : Ring m done mapping) (hm : 0 < m) (unit : MappedUnit) :
    Ring m (done ++ [unit]) (mapping.set (done.length % m) (unit.start, unit.first)) where
  length := by rw [List.length_set, h.length]
  holds := fun front u back hdone hback => by
    have hplace : done.length % m < mapping.length := by
      rw [h.length]
      exact Nat.mod_lt _ hm
    rcases List.eq_nil_or_concat back with rfl | ⟨back, u', rfl⟩
    · obtain ⟨rfl, hu⟩ := List.append_inj' hdone rfl
      obtain rfl : unit = u := List.singleton_inj.mp hu
      rw [List.getD_eq_getElem _ _ (by rwa [List.length_set]), List.getElem_set_self]
    · rw [List.concat_eq_append] at hdone hback
      rw [List.length_append, List.length_singleton] at hback
      have hinit : done ++ [unit] = (front ++ u :: back) ++ [u'] := by
        rw [hdone, List.append_assoc, List.cons_append]
      obtain ⟨rfl, -⟩ := List.append_inj' hinit rfl
      -- fewer than `m` bytes later the place is another one
      have hother : (front ++ u :: back).length % m ≠ front.length % m := fun heq => by
        rw [List.length_append, List.length_cons] at heq
        have hmod : (back.length + 1) % m = 0 := by
          have := Nat.sub_mod_eq_zero_of_mod_eq heq
          rwa [Nat.add_sub_cancel_left] at this
        rw [Nat.mod_eq_of_lt hback] at hmod
        omega
      rw [← h.holds front u back rfl (by omega), List.getD_eq_getElem?_getD,
        List.getElem?_set_ne hother, ← List.getD_eq_getElem?_getD]

/-! ## §4 What one byte preserves -/

namespace ScanContext

variable (ctx : ScanContext)

/-- The bytes compared for a scalar. -/
def image : Char → List UInt8 :=
  imageOf ctx.surroundings.folding (ctx.query.case == .folded)

/-- A scan of the part `part` of a text for the bytes of `wanted`. -/
structure Setting (front part rest wanted : Text) : Prop where
  text : ctx.snapshot.text = front ++ (part ++ rest)
  nonempty : wanted ≠ []
  pattern : ctx.pattern = wanted.flatMap ctx.image
  table : ctx.table = Kmp.failureTable ctx.pattern

/-- Scalars `w` behind scalars `a` of the part are accepted. -/
def Accepts (front part rest : Text) (a w : Text) : Prop :=
  ∃ z, part = a ++ (w ++ z) ∧ w.flatMap ctx.image = ctx.pattern ∧
    (ctx.query.wholeWord = true → StandsAlone ctx.surroundings.words (front ++ a) (z ++ rest))

/-- The range of scalars `w` behind scalars `a` of the part. -/
def rangeOf (front a w : Text) : Range :=
  ⟨utf8Len front + utf8Len a, utf8Len front + utf8Len (a ++ w)⟩

variable {ctx} {front part rest wanted : Text}

theorem image_ne_nil (ctx : ScanContext) (c : Char) : ctx.image c ≠ [] := imageOf_ne_nil _ c

/-- The accepted scalars are the hits. -/
theorem Setting.isHit_iff (h : ctx.Setting front part rest wanted) {range : Range} :
    IsHit ctx.surroundings ctx.query ctx.snapshot.text wanted
        ⟨utf8Len front, utf8Len front + utf8Len part⟩ range ↔
      ∃ a w, ctx.Accepts front part rest a w ∧ range = rangeOf front a w := by
  constructor
  · rintro ⟨hstart, hstop, before, hit, after, htext, rfl, hspells, halone⟩
    have hsame : front ++ (part ++ rest) = before ++ (hit ++ after) := h.text.symm.trans htext
    have hbefore : before <+: ctx.snapshot.text := ⟨hit ++ after, htext.symm⟩
    have hfront : front <+: ctx.snapshot.text := ⟨part ++ rest, h.text.symm⟩
    obtain ⟨a, rfl⟩ := isPrefix_of_utf8Len_le hfront hbefore hstart
    -- the hit ends inside the part as well
    have hends : front ++ a ++ hit <+: front ++ part := by
      refine isPrefix_of_utf8Len_le
        (show _ <+: ctx.snapshot.text from ⟨after, by rw [htext, List.append_assoc]⟩)
        ⟨rest, by rw [h.text, List.append_assoc]⟩ ?_
      rw [String.utf8Len_append, String.utf8Len_append front part]
      exact hstop
    rw [List.append_assoc, List.prefix_append_right_inj] at hends
    obtain ⟨z, rfl⟩ := hends
    have hafter : z ++ rest = after := by
      simp only [List.append_assoc, List.append_cancel_left_eq] at hsame
      exact hsame
    refine ⟨a, hit, ⟨z, List.append_assoc .., ?_, hafter ▸ halone⟩, ?_⟩
    · rw [h.pattern]
      exact hspells
    · rw [rangeOf, String.utf8Len_append, String.utf8Len_append a, Nat.add_assoc]
  · rintro ⟨a, w, ⟨z, rfl, hspells, halone⟩, rfl⟩
    refine ⟨Nat.le_add_right _ _, ?_, front ++ a, w, z ++ rest, ?_, ?_, ?_, halone⟩
    · rw [rangeOf, String.utf8Len_append, String.utf8Len_append, String.utf8Len_append]
      dsimp only
      omega
    · rw [h.text]
      simp only [List.append_assoc]
    · rw [rangeOf, String.utf8Len_append, String.utf8Len_append, Nat.add_assoc]
    · rw [← ScanContext.image, hspells, h.pattern]

variable (ctx front part rest wanted)

/-- After the bytes `done` the scan has chosen `hits`, starts over behind the scalars `resumed`
and knows the longest overlap of the pattern with the bytes since. -/
structure Scanned (done : List MappedUnit) (s : ScanState) (hits : List Range)
    (resumed : Text) : Prop where
  within : resumed <+: part
  behind : (resumed.flatMap ctx.image).length ≤ done.length
  overlap : Kmp.Longest ctx.pattern
    ((done.map MappedUnit.byte).drop (resumed.flatMap ctx.image).length)
    (ctx.pattern.length - 1) s.matched
  picks : Picks (IsHit ctx.surroundings ctx.query ctx.snapshot.text wanted
    ⟨utf8Len front, utf8Len front + utf8Len part⟩) Range.start Range.stop (utf8Len front) hits
    (utf8Len front + utf8Len resumed)
  pending : ∀ a w, ctx.Accepts front part rest a w → resumed <+: a →
    done.length < ((a ++ w).flatMap ctx.image).length
  seen : s.seen = done.length
  ring : if ctx.query.case = .folded then Ring ctx.pattern.length done s.mapping
    else s.mapping = []

/-- What is kept of the hits, within the capacity. -/
structure Kept (s : ScanState) (hits : List Range) : Prop where
  found : s.found = (hits.take ctx.capacity).map SearchMatch.mk
  count : s.totalCount = hits.length
  completeness : s.completeness = if hits.length ≤ ctx.capacity then .complete else .resultLimit
  counting : ctx.capacity < hits.length → ctx.query.countBeyondLimit = true

variable {ctx front part rest wanted} {done after : List MappedUnit} {unit : MappedUnit}
  {s : ScanState} {hits : List Range} {resumed a w : Text}

section Step

variable (hset : ctx.Setting front part rest wanted)
include hset

theorem Setting.pattern_pos : 0 < ctx.pattern.length := by
  obtain ⟨c, wanted, rfl⟩ := List.exists_cons_of_ne_nil hset.nonempty
  rw [hset.pattern, List.flatMap_cons, List.length_append]
  exact Nat.add_pos_left (List.length_pos_iff.mpr (ctx.image_ne_nil c)) _

/-- One byte leads to the longest overlap with the bytes up to it. -/
theorem Scanned.advance (h : ctx.Scanned front part rest wanted done s hits resumed)
    (unit : MappedUnit) :
    Kmp.Longest ctx.pattern
      (((done ++ [unit]).map MappedUnit.byte).drop (resumed.flatMap ctx.image).length)
      ctx.pattern.length (Kmp.advance ctx.pattern ctx.table unit.byte s.matched) := by
  have hpos := hset.pattern_pos
  obtain ⟨htable, hlen⟩ := Kmp.failureTable_spec ctx.pattern
  rw [← hset.table] at htable hlen
  have hle := h.overlap.le
  have hnext := h.overlap.advance (b := unit.byte) htable (by omega) (by omega)
  rw [Nat.sub_add_cancel hpos] at hnext
  rwa [List.map_append, List.drop_append_of_le_length (by rw [List.length_map]; exact h.behind),
    List.map_singleton]

/-- One more byte in the ring. -/
theorem Scanned.ring_push (h : ctx.Scanned front part rest wanted done s hits resumed) :
    if ctx.query.case = .folded then Ring ctx.pattern.length (done ++ [unit])
      (s.mapping.set (s.seen % ctx.pattern.length) (unit.start, unit.first))
    else s.mapping.set (s.seen % ctx.pattern.length) (unit.start, unit.first) = [] := by
  have hring := h.ring
  rw [h.seen]
  split
  · rename_i hfolded
    rw [if_pos hfolded] at hring
    exact hring.push hset.pattern_pos unit
  · rename_i hsensitive
    rw [if_neg hsensitive] at hring
    rw [hring, List.set_nil]

/-- Where nothing is accepted the scan goes on with a proper overlap. -/
theorem Scanned.goOn (h : ctx.Scanned front part rest wanted done s hits resumed)
    {s' : ScanState} (hseen : s'.seen = s.seen + 1)
    (hmapping : s'.mapping = s.mapping.set (s.seen % ctx.pattern.length) (unit.start, unit.first))
    (hoverlap : Kmp.Longest ctx.pattern
      (((done ++ [unit]).map MappedUnit.byte).drop (resumed.flatMap ctx.image).length)
      (ctx.pattern.length - 1) s'.matched)
    (hnone : ∀ a w, ctx.Accepts front part rest a w → resumed <+: a →
      ((a ++ w).flatMap ctx.image).length ≠ done.length + 1) :
    ctx.Scanned front part rest wanted (done ++ [unit]) s' hits resumed where
  within := h.within
  behind := by
    rw [List.length_append]
    exact Nat.le_add_right_of_le h.behind
  overlap := hoverlap
  picks := h.picks
  pending := fun a w haccepts hresumed => by
    have hpending := h.pending a w haccepts hresumed
    have hne := hnone a w haccepts hresumed
    rw [List.length_append, List.length_singleton]
    omega
  seen := by rw [hseen, h.seen, List.length_append, List.length_singleton]
  ring := by
    rw [hmapping]
    exact h.ring_push hset

omit hset

variable (hunits : unitsOf ctx.surroundings.folding (ctx.query.case == .folded) (utf8Len front)
    part = done ++ unit :: after)
include hunits

theorem bytes_eq : part.flatMap ctx.image = (done ++ unit :: after).map MappedUnit.byte := by
  rw [← hunits, map_byte_unitsOf]
  rfl

/-- A window that ends at the byte is a full match. -/
theorem window_full (h : Window ctx.image part ctx.pattern (done.length + 1) a w)
    (hresumed : resumed <+: a) : ctx.pattern <:+
      ((done ++ [unit]).map MappedUnit.byte).drop (resumed.flatMap ctx.image).length := by
  obtain ⟨between, rfl⟩ := hresumed
  obtain ⟨z, hz⟩ := h.within
  have hbytes := bytes_eq hunits
  rw [← hz, List.flatMap_append, List.append_cons, List.map_append] at hbytes
  have hdone := (List.append_inj hbytes (by
    rw [h.ends, List.length_map, List.length_append, List.length_singleton])).1
  rw [← hdone, List.flatMap_append, List.flatMap_append, h.spells, List.append_assoc,
    List.drop_left]
  exact List.suffix_append _ _

include hset

/-- At a full match the range looked up is that of the window that ends there, if there is one. -/
theorem lookup_spec (hseen : s.seen = done.length + 1) (hmatched : s.matched = ctx.pattern.length)
    (hring : if ctx.query.case = .folded then Ring ctx.pattern.length (done ++ [unit]) s.mapping
      else s.mapping = [])
    (hfull : ctx.pattern <:+ (done ++ [unit]).map MappedUnit.byte) :
    (((ctx.lookup s unit).2 && unit.last) = true ↔
        ∃ a w, Window ctx.image part ctx.pattern (done.length + 1) a w) ∧
      ∀ a w, Window ctx.image part ctx.pattern (done.length + 1) a w →
        (ctx.lookup s unit).1 = utf8Len front + utf8Len a ∧
          unit.stop = utf8Len front + utf8Len (a ++ w) := by
  have hpos := hset.pattern_pos
  obtain ⟨x, hx⟩ := hfull
  have hlen : x.length + ctx.pattern.length = done.length + 1 := by
    rw [← List.length_append, hx, List.length_map, List.length_append, List.length_singleton]
  by_cases hcase : ctx.query.case = .folded
  · have hfolded : (ctx.query.case == .folded) = true := beq_iff_eq.mpr hcase
    have himage : ctx.image = ctx.surroundings.folding.image := by
      rw [ScanContext.image, hfolded]
      rfl
    have hbytes := bytes_eq hunits
    rw [if_pos hcase] at hring
    rw [unitsOf, hfolded, if_pos rfl] at hunits
    -- the byte that the pattern starts with is still in the ring
    obtain ⟨first, back, hdrop⟩ := List.exists_cons_of_ne_nil
      (List.drop_eq_nil_iff.not.mpr (by
        rw [List.length_append, List.length_singleton]
        omega) : (done ++ [unit]).drop x.length ≠ [])
    have hdone := (List.take_append_drop x.length (done ++ [unit])).symm
    rw [hdrop] at hdone
    generalize (done ++ [unit]).take x.length = before at hdone
    have hlength : before.length = x.length ∧ back.length + 1 = ctx.pattern.length := by
      have h := congrArg List.length hdone
      have h' := congrArg List.length hdrop
      rw [List.length_append, List.length_append, List.length_singleton, List.length_cons] at h
      rw [List.length_drop, List.length_append, List.length_singleton, List.length_cons] at h'
      omega
    have hp : (first :: back).map MappedUnit.byte = ctx.pattern := by
      rw [hdone, List.map_append] at hx
      exact (List.append_inj hx (by rw [List.length_map, hlength.1])).2.symm
    have hplace : ctx.lookup s unit = (first.start, first.first) := by
      have hheld := hring.holds before first back hdone (by omega)
      rw [lookup, List.isEmpty_eq_false_iff.mpr fun hnil => by
          rw [← hring.length, hnil, List.length_nil] at hpos
          exact Nat.lt_irrefl 0 hpos,
        hseen, hmatched, ← hheld, hlength.1, ← hlen, Nat.add_sub_cancel]
      rfl
    rw [hplace, himage]
    rw [himage] at hbytes
    exact window_scalars ctx.surroundings.folding.image_ne_nil hunits hdone hp hbytes
  · have hsensitive : (ctx.query.case == .folded) = false := beq_eq_false_iff_ne.mpr hcase
    have himage : ctx.image = String.utf8EncodeChar := by
      rw [ScanContext.image, hsensitive]
      rfl
    have hpattern : ctx.pattern = encode wanted := by
      rw [hset.pattern, himage]
      rfl
    rw [if_neg hcase] at hring
    rw [unitsOf, hsensitive] at hunits
    rw [hpattern] at hx
    obtain ⟨hexists, hplaces⟩ := window_bytes hset.nonempty hunits hx.symm
    have hlast := (byteUnits_place hunits).2
    rw [lookup, hring, himage, hpattern, hmatched, hpattern, hlast]
    exact ⟨iff_of_true rfl hexists, hplaces⟩

omit hunits

/-- An accepted window is the next hit, and the scan starts over behind it. -/
theorem Scanned.hit (h : ctx.Scanned front part rest wanted done s hits resumed)
    (hwindow : Window ctx.image part ctx.pattern (done.length + 1) a w)
    (haccepts : ctx.Accepts front part rest a w) (hresumed : resumed <+: a) {s' : ScanState}
    (hseen : s'.seen = s.seen + 1)
    (hmapping : s'.mapping = s.mapping.set (s.seen % ctx.pattern.length) (unit.start, unit.first))
    (hmatched : s'.matched = 0) :
    ctx.Scanned front part rest wanted (done ++ [unit]) s' (hits ++ [rangeOf front a w])
      (a ++ w) := by
  have hpos := hset.pattern_pos
  have hlen : (done ++ [unit]).length = done.length + 1 := by
    rw [List.length_append, List.length_singleton]
  have hends := hwindow.length_front
  have ha : a <+: part := (List.prefix_append a w).trans hwindow.within
  -- an accepted range from `resumed` on starts no earlier, and is this one where it starts here
  have hfirst : ∀ a' w', ctx.Accepts front part rest a' w' → resumed <+: a' →
      a = a' ∧ w = w' ∨ utf8Len a < utf8Len a' := fun a' w' haccepts' hresumed' => by
    have hpending := h.pending a' w' haccepts' hresumed'
    obtain ⟨z, hpart, hspells, -⟩ := haccepts'
    have hwithin : a' ++ w' <+: part := ⟨z, by rw [hpart, List.append_assoc]⟩
    rw [length_flatMap_append, hspells] at hpending
    obtain ⟨between, rfl⟩ := isPrefix_of_flatMap_length_le ctx.image_ne_nil ha
      ((List.prefix_append a' w').trans hwithin) (by omega)
    cases between with
    | nil =>
      rw [List.append_nil] at hwithin ⊢
      have hsame := eq_of_flatMap_length_eq ctx.image_ne_nil hwindow.within hwithin (by
        rw [length_flatMap_append, length_flatMap_append, hwindow.spells, hspells])
      exact .inl ⟨rfl, List.append_cancel_left hsame⟩
    | cons c between =>
      have hsize := c.utf8Size_pos
      rw [String.utf8Len_append, String.utf8Len_cons]
      exact .inr (by omega)
  exact {
    within := hwindow.within
    behind := by rw [hwindow.ends, hlen]
    overlap := by
      rw [hwindow.ends, List.drop_eq_nil_of_le (by rw [List.length_map, hlen]), hmatched]
      exact Kmp.longest_nil (Nat.sub_le _ _)
    picks := by
      refine h.picks.concat (hset.isHit_iff.mpr ⟨a, w, haccepts, rfl⟩) ?_ fun range hhit hle => ?_
      · obtain ⟨between, rfl⟩ := hresumed
        rw [rangeOf, String.utf8Len_append]
        exact Nat.add_le_add_left (Nat.le_add_right _ _) _
      · obtain ⟨a', w', haccepts', rfl⟩ := hset.isHit_iff.mp hhit
        have hwithin' : a' <+: part := by
          obtain ⟨z, hpart, -⟩ := haccepts'
          exact ⟨w' ++ z, hpart.symm⟩
        have hresumed' := isPrefix_of_utf8Len_le h.within hwithin' (Nat.le_of_add_le_add_left hle)
        rcases hfirst a' w' haccepts' hresumed' with ⟨rfl, rfl⟩ | hlt
        · exact .inl rfl
        · exact .inr (Nat.add_lt_add_left hlt _)
    pending := fun a' w' haccepts' hbehind => by
      obtain ⟨z, -, hspells, -⟩ := haccepts'
      obtain ⟨between, rfl⟩ := hbehind
      rw [length_flatMap_append, length_flatMap_append, hwindow.ends, hspells, hlen]
      omega
    seen := by rw [hseen, h.seen, hlen]
    ring := by
      rw [hmapping]
      exact h.ring_push hset }

end Step

/-- The scan was left: not as complete, and at the limit only where it does not count on. -/
structure Stopped (ctx : ScanContext) (s : ScanState) : Prop where
  incomplete : s.completeness ≠ .complete
  uncounted : s.completeness = .resultLimit → ctx.query.countBeyondLimit = false

/-- One more hit is counted, and kept while there is room. -/
theorem Kept.accept {s' : ScanState} {range : Range} (h : ctx.Kept s hits)
    (hok : ctx.accept s range = .ok s') :
    ctx.Kept s' (hits ++ [range]) ∧ s'.seen = s.seen ∧ s'.mapping = s.mapping ∧
      s'.matched = 0 := by
  have hlen : s.found.length = min hits.length ctx.capacity := by
    rw [h.found, List.length_map, List.length_take, Nat.min_comm]
  have hcount : (hits ++ [range]).length = hits.length + 1 := by
    rw [List.length_append, List.length_singleton]
  rw [ScanContext.accept] at hok
  split at hok
  · rename_i hfull
    dsimp only at hok
    split at hok
    · rename_i hcounting
      obtain rfl := Except.ok.inj hok
      refine ⟨⟨?_, ?_, ?_, fun _ => hcounting⟩, rfl, rfl, rfl⟩
      · rw [List.take_append_of_le_length (by omega)]
        exact h.found
      · rw [hcount, ← h.count]
      · rw [hcount, if_neg (by omega)]
    · exact nomatch hok
  · rename_i hroom
    obtain rfl := Except.ok.inj hok
    have hkept : ctx.Kept { s with
        totalCount := s.totalCount + 1
        found := s.found ++ [⟨range⟩]
        matched := 0 } (hits ++ [range]) := by
      refine ⟨?_, ?_, ?_, fun hover => ?_⟩
      · rw [List.take_of_length_le (by omega), List.map_append, List.map_singleton, h.found,
          List.take_of_length_le (by omega)]
      · rw [hcount, ← h.count]
      · rw [hcount, if_pos (by omega)]
        have hcomplete := h.completeness
        rwa [if_pos (by omega)] at hcomplete
      · omega
    dsimp only
    split
    · exact ⟨⟨hkept.found, hkept.count, hkept.completeness, hkept.counting⟩, rfl, rfl, rfl⟩
    · exact ⟨hkept, rfl, rfl, rfl⟩

/-- A scan that is left at the limit does not count on. -/
theorem stopped_of_accept {s' : ScanState} {range : Range}
    (herror : ctx.accept s range = .error s') : ctx.Stopped s' := by
  rw [ScanContext.accept] at herror
  split at herror
  · dsimp only at herror
    split at herror
    · exact nomatch herror
    · rename_i hstop
      obtain rfl := Except.error.inj herror
      exact ⟨nofun, fun _ => Bool.eq_false_iff.mpr hstop⟩
  · exact nomatch herror

/-- A scan that read `done` knows its hits, or was left. -/
def Reached (ctx : ScanContext) (front part rest wanted : Text) (done : List MappedUnit) :
    Except ScanState ScanState → Prop
  | .ok s => ∃ hits resumed, ctx.Scanned front part rest wanted done s hits resumed ∧ ctx.Kept s hits
  | .error s => ctx.Stopped s

/-- A full match: its window is the next hit, or none of the scalars that end here is accepted. -/
theorem candidate_reached (hset : ctx.Setting front part rest wanted)
    (hunits : unitsOf ctx.surroundings.folding (ctx.query.case == .folded) (utf8Len front) part =
      done ++ unit :: after)
    (h : ctx.Scanned front part rest wanted done s hits resumed) {s' : ScanState}
    (hseen : s'.seen = s.seen + 1)
    (hmapping : s'.mapping = s.mapping.set (s.seen % ctx.pattern.length) (unit.start, unit.first))
    (hmatched : s'.matched = ctx.pattern.length) (hkept' : ctx.Kept s' hits)
    (hoverlap : Kmp.Longest ctx.pattern
      (((done ++ [unit]).map MappedUnit.byte).drop (resumed.flatMap ctx.image).length)
      ctx.pattern.length ctx.pattern.length) :
    ctx.Reached front part rest wanted (done ++ [unit]) (ctx.candidate s' unit) := by
  have hpos := hset.pattern_pos
  obtain ⟨htable, hlen⟩ := Kmp.failureTable_spec ctx.pattern
  rw [← hset.table] at htable hlen
  have hfull := hoverlap.full_iff.mp rfl
  obtain ⟨hflags, hplaces⟩ := lookup_spec (s := s') hset hunits
    (by rw [hseen, h.seen]) hmatched (by rw [hmapping]; exact h.ring_push hset)
    (hfull.trans (List.drop_suffix _ _))
  -- where the candidate is refused
  have hrefused : (∀ a w, ctx.Accepts front part rest a w →
      ¬Window ctx.image part ctx.pattern (done.length + 1) a w) →
      ctx.Reached front part rest wanted (done ++ [unit]) (.ok (ctx.refuse s')) := fun hnone => by
    refine ⟨hits, resumed, h.goOn hset (show (ctx.refuse s').seen = _ from hseen)
      hmapping ?_ fun a w haccepts _ hends => ?_, hkept'.found, hkept'.count, hkept'.completeness,
      hkept'.counting⟩
    · rw [refuse, hmatched]
      exact hoverlap.border htable hlen hpos
    · obtain ⟨z, hpart, hspells, halone⟩ := haccepts
      exact hnone a w ⟨z, hpart, hspells, halone⟩
        ⟨⟨z, by rw [hpart, List.append_assoc]⟩, hspells, hends⟩
  -- where it is accepted
  have haccepted : ∀ a w, Window ctx.image part ctx.pattern (done.length + 1) a w →
      ctx.Accepts front part rest a w →
      ctx.Reached front part rest wanted (done ++ [unit])
        (ctx.accept s' (rangeOf front a w)) := fun a w hwindow haccepts => by
    have hresumed : resumed <+: a := by
      refine isPrefix_of_flatMap_length_le ctx.image_ne_nil h.within
        ((List.prefix_append a w).trans hwindow.within) ?_
      have hle := hfull.length_le
      have hends := hwindow.length_front
      rw [List.length_drop, List.length_map, List.length_append, List.length_singleton] at hle
      omega
    cases hresult : ctx.accept s' (rangeOf front a w) with
    | error stopped => exact stopped_of_accept hresult
    | ok next =>
      obtain ⟨hkept'', hseen', hmapping', hzero⟩ := hkept'.accept hresult
      exact ⟨_, _, h.hit hset hwindow haccepts hresumed (hseen'.trans hseen)
        (hmapping'.trans hmapping) hzero, hkept''⟩
  rw [candidate]
  generalize ctx.lookup s' unit = place at hflags hplaces ⊢
  obtain ⟨start, first⟩ := place
  dsimp only at hflags hplaces ⊢
  split
  · rename_i hcut
    refine hrefused fun a w _ hwindow => ?_
    have hwhole := hflags.mpr ⟨a, w, hwindow⟩
    rw [Bool.and_eq_true] at hwhole
    rw [hwhole.1, hwhole.2] at hcut
    exact nomatch hcut
  · rename_i hwhole
    obtain ⟨a, w, hwindow⟩ := hflags.mp (by
      rw [Bool.and_eq_true]
      simpa using hwhole)
    obtain ⟨rfl, hstop⟩ := hplaces a w hwindow
    obtain ⟨z, hz⟩ := hwindow.within
    have hpart : part = a ++ (w ++ z) := by rw [← hz, List.append_assoc]
    rw [hstop]
    split
    · rename_i hword
      obtain ⟨alone, hboundaries, halone⟩ := boundaries_eq ctx.surroundings.words
        (show ctx.snapshot.text = (front ++ a) ++ (w ++ (z ++ rest)) by
          rw [hset.text, hpart]
          simp only [List.append_assoc])
      rw [String.utf8Len_append front, Nat.add_assoc, ← String.utf8Len_append a w] at hboundaries
      rw [hboundaries]
      cases alone with
      | true => exact haccepted a w hwindow ⟨z, hpart, hwindow.spells, fun _ => halone.mp rfl⟩
      | false =>
        refine hrefused fun a' w' haccepts hwindow' => ?_
        obtain ⟨rfl, rfl⟩ := hwindow.unique ctx.image_ne_nil hwindow'
        obtain ⟨z', hpart', -, halone'⟩ := haccepts
        obtain rfl : z = z' := by
          rw [hpart] at hpart'
          exact List.append_cancel_left (List.append_cancel_left hpart')
        exact nomatch halone.mpr (halone' hword)
    · rename_i hanywhere
      exact haccepted a w hwindow
        ⟨z, hpart, hwindow.spells, fun hword => absurd hword hanywhere⟩

/-- One byte. -/
theorem visit_reached (hset : ctx.Setting front part rest wanted)
    (hunits : unitsOf ctx.surroundings.folding (ctx.query.case == .folded) (utf8Len front) part =
      done ++ unit :: after)
    (h : ctx.Scanned front part rest wanted done s hits resumed) (hkept : ctx.Kept s hits) :
    ctx.Reached front part rest wanted (done ++ [unit]) (ctx.visit s unit) := by
  have hpos := hset.pattern_pos
  have hoverlap := h.advance hset unit
  rw [visit]
  split
  · exact ⟨(by simp), (by simp)⟩
  · dsimp only
    split
    · rename_i hfull
      rw [hfull] at hoverlap
      exact candidate_reached hset hunits h rfl rfl hfull
        ⟨hkept.found, hkept.count, hkept.completeness, hkept.counting⟩ hoverlap
    · rename_i hpartial
      have hle := hoverlap.le
      refine ⟨hits, resumed, h.goOn hset rfl rfl ?_ fun a w haccepts hresumed hends => ?_,
        hkept.found, hkept.count, hkept.completeness, hkept.counting⟩
      · refine Kmp.Longest.proper ?_ (Nat.le_sub_one_of_lt (Nat.lt_of_le_of_ne hle hpartial))
        rwa [Nat.sub_add_cancel hpos]
      · obtain ⟨z, hpart, hspells, -⟩ := haccepts
        have hwindow : Window ctx.image part ctx.pattern (done.length + 1) a w :=
          ⟨⟨z, by rw [hpart, List.append_assoc]⟩, hspells, hends⟩
        exact hpartial (hoverlap.full_iff.mpr (window_full hunits hwindow hresumed))

/-- The bytes from `done` on. -/
theorem foldlM_reached (hset : ctx.Setting front part rest wanted)
    (hunits : unitsOf ctx.surroundings.folding (ctx.query.case == .folded) (utf8Len front) part =
      done ++ after)
    (h : ctx.Scanned front part rest wanted done s hits resumed) (hkept : ctx.Kept s hits) :
    ctx.Reached front part rest wanted (done ++ after) (after.foldlM ctx.visit s) := by
  induction after generalizing done s hits resumed with
  | nil =>
    rw [List.append_nil]
    exact ⟨hits, resumed, h, hkept⟩
  | cons unit after ih =>
    have hnext := visit_reached hset hunits h hkept
    rw [List.foldlM_cons]
    cases hvisit : ctx.visit s unit with
    | error stopped =>
      rw [hvisit] at hnext
      exact hnext
    | ok s' =>
      rw [hvisit] at hnext
      obtain ⟨hits', resumed', h', hkept'⟩ := hnext
      rw [List.append_cons]
      exact ih (by rw [hunits, List.append_cons]) h' hkept'

/-- The chunks are read as one text. -/
theorem visitChunks_eq (s : ScanState) (offset : Nat) (chunks : List Text) :
    ctx.visitChunks s offset chunks =
      (unitsOf ctx.surroundings.folding (ctx.query.case == .folded) offset chunks.flatten).foldlM
        ctx.visit s := by
  induction chunks generalizing s offset with
  | nil =>
    rw [visitChunks, List.flatten_nil, unitsOf]
    split <;> rfl
  | cons chunk chunks ih =>
    rw [visitChunks, List.flatten_cons, unitsOf_append, List.foldlM_append, all_eq]
    exact bind_congr fun s => ih s _

/-- A whole selection: all hits are found. -/
theorem visitChunks_reached (hset : ctx.Setting front part rest wanted) {chunks : List Text}
    (hchunks : chunks.flatten = part) :
    match ctx.visitChunks (.initial ctx.query ctx.pattern) (utf8Len front) chunks with
    | .ok s => ∃ hits, ctx.Kept s hits ∧
        Chosen (IsHit ctx.surroundings ctx.query ctx.snapshot.text wanted
          ⟨utf8Len front, utf8Len front + utf8Len part⟩) Range.start Range.stop (utf8Len front) hits
    | .error s => ctx.Stopped s := by
  have hpos := hset.pattern_pos
  have hstart : ctx.Scanned front part rest wanted [] (.initial ctx.query ctx.pattern) [] [] := {
    within := List.nil_prefix
    behind := Nat.le_refl 0
    overlap := Kmp.longest_nil (Nat.sub_le _ _)
    picks := .nil _
    pending := fun a w haccepts _ => by
      obtain ⟨z, -, hspells, -⟩ := haccepts
      rw [length_flatMap_append, hspells]
      exact Nat.add_pos_right _ hpos
    seen := rfl
    ring := by
      rw [ScanState.initial]
      split
      · exact ring_nil _
      · rfl }
  have hkept : ctx.Kept (.initial ctx.query ctx.pattern) [] :=
    ⟨List.take_nil.symm ▸ rfl, rfl, (if_pos (Nat.zero_le _)).symm, fun h => absurd h (Nat.not_lt_zero _)⟩
  have hreached := foldlM_reached hset (List.nil_append _).symm hstart hkept
  rw [List.nil_append] at hreached
  rw [visitChunks_eq, hchunks]
  split
  · rename_i s hok
    rw [hok] at hreached
    obtain ⟨hits, resumed, hscanned, hkept⟩ := hreached
    refine ⟨hits, hkept, _, hscanned.picks, fun range hhit => ?_⟩
    by_contra hle
    obtain ⟨a, w, haccepts, rfl⟩ := hset.isHit_iff.mp hhit
    have hwithin : a ++ w <+: part := by
      obtain ⟨z, hpart, -⟩ := haccepts
      exact ⟨z, by rw [hpart, List.append_assoc]⟩
    have hpending := hscanned.pending a w haccepts (isPrefix_of_utf8Len_le hscanned.within
      ((List.prefix_append a w).trans hwithin)
      (Nat.le_of_add_le_add_left (Nat.not_lt.mp hle)))
    -- the hit would end behind the part
    obtain ⟨z, rfl⟩ := hwithin
    have hlen := congrArg List.length (map_byte_unitsOf ctx.surroundings.folding
      (ctx.query.case == .folded) (utf8Len front) (a ++ w ++ z))
    rw [List.length_map] at hlen
    rw [hlen, ← ScanContext.image, length_flatMap_append (a ++ w)] at hpending
    omega
  · rename_i s herror
    rw [herror] at hreached
    exact hreached

/-- The state a scan ends with, however it ends. -/
def settled : Except ScanState ScanState → ScanState
  | .ok s => s
  | .error s => s

/-- What was emitted is the front of what was found. -/
structure Batched (s : ScanState) : Prop where
  le : s.emitted ≤ s.found.length
  batches : s.batches.flatMap SearchBatch.found = s.found.take s.emitted

theorem Batched.emit (ctx : ScanContext) (h : Batched s) : Batched (ctx.emit s) where
  le := Nat.le_refl _
  batches := by
    rw [ScanContext.emit]
    simp only [List.flatMap_append, List.flatMap_singleton, h.batches, List.take_append_drop,
      List.take_length]

theorem Batched.accept (ctx : ScanContext) (h : Batched s) (range : Range) :
    Batched (settled (ctx.accept s range)) := by
  rw [ScanContext.accept]
  split
  · dsimp only
    split
    · exact ⟨h.le, h.batches⟩
    · exact ⟨h.le, h.batches⟩
  · have hnext : Batched { s with
        totalCount := s.totalCount + 1
        found := s.found ++ [⟨range⟩]
        matched := 0 } := by
      refine ⟨?_, ?_⟩
      · rw [List.length_append]
        exact Nat.le_add_right_of_le h.le
      · rw [List.take_append_of_le_length h.le]
        exact h.batches
    dsimp only
    split
    · exact hnext.emit ctx
    · exact hnext

theorem Batched.candidate (ctx : ScanContext) (h : Batched s) (unit : MappedUnit) :
    Batched (settled (ctx.candidate s unit)) := by
  have hrefused : Batched (settled (.ok (ctx.refuse s))) := ⟨h.le, h.batches⟩
  rw [ScanContext.candidate]
  split
  split
  · exact hrefused
  · split
    · split
      · exact h.accept ctx _
      · exact hrefused
      · exact ⟨h.le, h.batches⟩
    · exact h.accept ctx _

theorem Batched.visit (ctx : ScanContext) (h : Batched s) (unit : MappedUnit) :
    Batched (settled (ctx.visit s unit)) := by
  rw [ScanContext.visit]
  split
  · exact ⟨h.le, h.batches⟩
  · dsimp only
    split
    · exact Batched.candidate ctx (s := { s with
        mapping := s.mapping.set (s.seen % ctx.pattern.length) (unit.start, unit.first)
        seen := s.seen + 1
        matched := Kmp.advance ctx.pattern ctx.table unit.byte s.matched })
        ⟨h.le, h.batches⟩ unit
    · exact ⟨h.le, h.batches⟩

/-- A scan emits the matches in order, whatever ends it. -/
theorem Batched.foldlM (h : Batched s) (units : List MappedUnit) :
    Batched (settled (units.foldlM ctx.visit s)) := by
  induction units generalizing s with
  | nil => exact h
  | cons unit units ih =>
    have hnext := h.visit ctx unit
    rw [List.foldlM_cons]
    cases hvisit : ctx.visit s unit with
    | error stopped =>
      rw [hvisit] at hnext
      exact hnext
    | ok s' =>
      rw [hvisit] at hnext
      exact ih hnext

/-- The batches of a result are its matches. -/
theorem Batched.finish (h : Batched s) :
    (ctx.finish s).2.flatMap SearchBatch.found = (ctx.finish s).1.found := by
  rw [ScanContext.finish]
  dsimp only
  split
  · have hall := h.emit ctx
    rw [hall.batches]
    exact List.take_length
  · rename_i hdone
    rw [h.batches, List.take_of_length_le (Nat.not_lt.mp hdone)]

/-- A result without a cancel says what the scan found. -/
theorem finish_spec (s : ScanState) (h : (ctx.finish s).1.completeness = .complete ∨
    (ctx.finish s).1.completeness = .resultLimit) :
    (ctx.finish s).1.completeness = s.completeness ∧ (ctx.finish s).1.found = s.found ∧
      (ctx.finish s).1.totalCount = s.totalCount := by
  rw [finish] at h ⊢
  dsimp only at h ⊢
  split at h
  · rcases h with h | h <;> exact nomatch h
  · rename_i hfinished
    split at h
    · rcases h with h | h <;> exact nomatch h
    · rename_i hdrained
      rw [if_neg hfinished, if_neg hdrained]
      refine ⟨rfl, ?_, ?_⟩ <;> split <;> rfl

end ScanContext

/-! ## §5 The scan -/

/-- The folded pattern is the image of the pattern. -/
theorem foldPattern_eq {folding : CaseFolding} {pattern folded out : Text}
    (h : foldPattern folding pattern folded = some out) :
    out = folded ++ pattern.flatMap folding.character := by
  induction pattern generalizing folded with
  | nil =>
    obtain rfl := Option.some.inj h
    rw [List.flatMap_nil, List.append_nil]
  | cons c pattern ih =>
    rw [foldPattern, List.foldlM_cons] at h
    dsimp only at h
    split at h
    · exact nomatch h
    · rw [List.flatMap_cons, ← List.append_assoc]
      exact ih h

theorem encode_flatMap_character (folding : CaseFolding) (text : Text) :
    encode (text.flatMap folding.character) = text.flatMap folding.image := by
  rw [encode, List.flatMap_assoc]
  rfl

/-- The bytes a scan looks for are the image of a text. -/
theorem patternBytes_spec {folding : CaseFolding} {query : SearchQuery} {pattern : List UInt8}
    (h : patternBytes folding query = some pattern) : ∃ wanted, query.queryPattern = some wanted ∧
      wanted ≠ [] ∧ pattern = wanted.flatMap (imageOf folding (query.case == .folded)) := by
  rw [patternBytes] at h
  split at h
  · exact nomatch h
  · rename_i hquery
    obtain ⟨wanted, hwanted, hbytes⟩ := Option.bind_eq_some_iff.mp h
    rw [Bool.or_eq_true, not_or, List.isEmpty_iff] at hquery
    refine ⟨wanted, hwanted, ?_, ?_⟩
    · rw [SearchQuery.queryPattern] at hwanted
      split at hwanted
      · exact decode_ne_nil hwanted hquery.1
      · obtain rfl := Option.some.inj hwanted
        exact hquery.1
    · split at hbytes
      · rename_i hfolded
        obtain ⟨out, hout, rfl⟩ := Option.map_eq_some_iff.mp hbytes
        rw [foldPattern_eq hout, List.nil_append, encode_flatMap_character, imageOf,
          if_pos (beq_iff_eq.mpr hfolded)]
      · rename_i hsensitive
        obtain rfl := Option.some.inj hbytes
        rw [imageOf, if_neg (fun h => hsensitive (beq_iff_eq.mp h))]
        rfl

/-- What a scan is to give: the batches are the matches, and a scan that ends complete, or only
with its retention limited, knows the leftmost choice of the hits. -/
structure Exact (surroundings : Surroundings) (snapshot : DocumentSnapshot) (query : SearchQuery)
    (outcome : SearchResults × List SearchBatch) : Prop where
  batches : outcome.2.flatMap SearchBatch.found = outcome.1.found
  chosen : outcome.1.completeness = .complete ∨
      (query.countBeyondLimit = true ∧ outcome.1.completeness = .resultLimit) →
    ∃ wanted hits, query.queryPattern = some wanted ∧
      (∀ other, Chosen
        (IsHit surroundings query snapshot.text wanted (query.selection.getD ⟨0, snapshot.len⟩))
        Range.start Range.stop (query.selection.getD ⟨0, snapshot.len⟩).start other ↔
          other = hits) ∧
      outcome.1.totalCount = hits.length ∧ outcome.1.countComplete = true ∧
      outcome.1.found = (hits.take
        (min query.resultsRamBytes MAX_RESULT_BYTES / sizeOfSearchMatch)).map SearchMatch.mk ∧
      (outcome.1.completeness = .complete → outcome.1.found = hits.map SearchMatch.mk)

theorem exact_emptyResults {surroundings : Surroundings} {snapshot : DocumentSnapshot}
    {query : SearchQuery} {job : SearchJob} {completeness : Completeness}
    (hcomplete : completeness ≠ .complete) (hlimit : completeness ≠ .resultLimit) :
    Exact surroundings snapshot query (emptyResults snapshot job completeness, []) where
  batches := rfl
  chosen := fun h => (h.elim hcomplete fun h => hlimit h.2).elim

/-- The end of a scan that read the selection, or was left. -/
theorem exact_finish (ctx : ScanContext) {front part rest wanted : Text}
    (hset : ctx.Setting front part rest wanted)
    (hselection : ctx.query.selection.getD ⟨0, ctx.snapshot.len⟩ =
      ⟨utf8Len front, utf8Len front + utf8Len part⟩)
    (hwanted : ctx.query.queryPattern = some wanted)
    (hcapacity : ctx.capacity = min ctx.query.resultsRamBytes MAX_RESULT_BYTES / sizeOfSearchMatch)
    {chunks : List Text} (hchunks : chunks.flatten = part) :
    Exact ctx.surroundings ctx.snapshot ctx.query (ctx.finish (ScanContext.settled
      (ctx.visitChunks (.initial ctx.query ctx.pattern) (utf8Len front) chunks))) where
  batches := by
    refine ScanContext.Batched.finish ?_
    rw [ScanContext.visitChunks_eq]
    exact ScanContext.Batched.foldlM ⟨Nat.le_refl _, rfl⟩ _
  chosen := fun h => by
    have hreached := ScanContext.visitChunks_reached hset hchunks
    generalize hresult : ctx.visitChunks _ _ _ = result at h hreached ⊢
    obtain ⟨hcompleteness, hfound, hcount⟩ := ScanContext.finish_spec _ (h.imp_right And.right)
    cases result with
    | error s =>
      -- a scan that was left is not complete
      change ctx.Stopped s at hreached
      rw [hcompleteness] at h
      rcases h with h | ⟨hcounting, h⟩
      · exact absurd h hreached.incomplete
      · exact absurd hcounting (Bool.eq_false_iff.mp (hreached.uncounted h))
    | ok s =>
      obtain ⟨hits, hkept, hchosen⟩ := hreached
      refine ⟨wanted, hits, hwanted, fun other => ?_, hcount.trans hkept.count, ?_, ?_,
        fun hcomplete => ?_⟩
      · rw [hselection]
        exact ⟨fun hother => hother.unique hchosen, fun heq => heq ▸ hchosen⟩
      · exact decide_eq_true h
      · rw [hfound, ← hcapacity]
        exact hkept.found
      · have hroom : hits.length ≤ ctx.capacity := by
          by_contra hover
          have hlimit := hkept.completeness
          rw [if_neg hover] at hlimit
          rw [hcompleteness] at hcomplete
          exact nomatch hlimit.symm.trans hcomplete
        rw [hfound]
        refine hkept.found.trans ?_
        rw [List.take_of_length_le hroom]

/-- A literal or extended scan is exact. -/
theorem literal_scan_exact (surroundings : Surroundings) (snapshot : DocumentSnapshot)
    (query : SearchQuery) (job : SearchJob) (hmode : query.mode ≠ .regex) :
    Exact surroundings snapshot query (scan surroundings snapshot query job) := by
  rw [scan]
  split
  · exact exact_emptyResults nofun nofun
  · split
    · exact exact_emptyResults nofun nofun
    · split
      · exact exact_emptyResults nofun nofun
      · rename_i pattern hpattern
        dsimp only
        split
        · exact exact_emptyResults nofun nofun
        · rename_i chunks hchunks
          obtain ⟨front, part, rest, htext, hselection⟩ :=
            DocumentSnapshot.validRange_iff.mp (DocumentSnapshot.validRange_of_chunks hchunks)
          obtain ⟨chunks', hchunks', hflat⟩ := DocumentSnapshot.chunks_spec htext
          rw [← hselection, hchunks] at hchunks'
          obtain rfl := Option.some.inj hchunks'
          obtain ⟨wanted, hwanted, hnonempty, hbytes⟩ := patternBytes_spec hpattern
          have hexact := exact_finish
            { surroundings, snapshot, query, job, pattern
              table := Kmp.failureTable pattern
              capacity := min query.resultsRamBytes MAX_RESULT_BYTES / sizeOfSearchMatch }
            ⟨htext, hnonempty, hbytes, rfl⟩ hselection hwanted rfl hflat
          rw [hselection]
          split
          · rename_i s hok
            rw [hok] at hexact
            exact hexact
          · rename_i s herror
            rw [herror] at hexact
            exact hexact

/-- In `sß` the pattern `ss` is found at the second scalar alone: the candidate before it cuts
its folding. -/
theorem literal_scan_exact_sharp_s :
    let surroundings : Surroundings :=
      { folding := ⟨[('ß', ['s', 's'])], by decide, by decide, by decide⟩
        words := []
        regexScan := fun snapshot _ job => (emptyResults snapshot job .unsupported, []) }
    let snapshot : DocumentSnapshot := ⟨[['s'], ['ß']], 0, true, by decide⟩
    let query : SearchQuery :=
      { pattern := ['s', 's'], mode := .literal, case := .folded, wholeWord := true
        selection := none, resultsRamBytes := MAX_RESULT_BYTES, countBeyondLimit := false
        dotMatchesNewline := false }
    let job : SearchJob := ⟨0, fun _ => false⟩
    (scan surroundings snapshot query job).1.found = [⟨⟨1, 3⟩⟩] ∧
      Exact surroundings snapshot query (scan surroundings snapshot query job) :=
  ⟨by decide, literal_scan_exact _ _ _ _ (by decide)⟩

end BareLine.Search
