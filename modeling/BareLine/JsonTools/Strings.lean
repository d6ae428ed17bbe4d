import BareLine.JsonTools.Reads

/-!
# The parser reads strings

- §1: escapes.
- §2: scalars.
- §3: strings.
- §4: literals.
-/

namespace BareLine.JsonTools.Process

open Lib

variable (layout : Layout)

/-! ## §1 Escapes -/

theorem hexLoop_sound {P : Bytes → Prop} (d count value : Nat) :
    Sound P d d (hexLoop layout count value) fun read bytes => ∃ ds : List Nat,
      ds.length = count ∧ bytes.map hexDigit = ds.map some ∧
        read = ds.foldl (fun value digit => value * 16 + digit) value := by
  induction count generalizing P value with
  | zero =>
    refine (Sound.pure value).mono ?_
    rintro read bytes ⟨rfl, rfl⟩
    exact ⟨[], rfl, rfl, rfl⟩
  | succ count ih =>
    refine .peek fun head => ?_
    cases head with
    | none => exact .fail
    | some b =>
      dsimp only
      split
      · exact .fail
      · rename_i digit hdigit
        refine ((copy_seen layout d b).bind fun _ => ih _).mono ?_
        rintro read bytes ⟨-, x, y, rfl, rfl, ds, rfl, hmap, rfl⟩
        refine ⟨digit :: ds, rfl, ?_, rfl⟩
        rw [List.singleton_append, List.map_cons, List.map_cons, hdigit, hmap]

theorem hexLoop_complete {bytes : Bytes} {ds : List Nat} (value : Nat)
    (hreads : bytes.map hexDigit = ds.map some) :
    Complete (hexLoop layout ds.length value) bytes (written layout bytes) Any
      (ds.foldl (fun value digit => value * 16 + digit) value) := by
  induction ds generalizing bytes value with
  | nil =>
    obtain rfl := List.map_eq_nil_iff.mp hreads
    rw [written_nil]
    exact .pure value
  | cons digit ds ih =>
    cases bytes with
    | nil => exact nomatch hreads
    | cons b bytes =>
      obtain ⟨hb, hbytes⟩ := List.cons_eq_cons.mp hreads
      refine .peek (o := some b) ?_ fun _ _ => rfl
      dsimp only
      rw [hb]
      have hloop := (copy_complete layout b).bind (g := fun _ => hexLoop layout ds.length _)
        (ih (value * 16 + digit) hbytes) fun _ _ => trivial
      rw [← written_append] at hloop
      exact hloop

theorem hex_sound {P : Bytes → Prop} (d : Nat) :
    Sound P d d (hex layout) fun value bytes => ∃ u : Unit16, u.bytes = bytes ∧
      u.value = value := by
  refine (hexLoop_sound layout d 4 0).mono ?_
  rintro value bytes ⟨ds, hlen, hmap, rfl⟩
  exact ⟨⟨bytes, ds, hlen, hmap⟩, rfl, rfl⟩

theorem hex_complete (u : Unit16) :
    Complete (hex layout) u.bytes (written layout u.bytes) Any u.value := by
  have hloop := hexLoop_complete layout 0 u.reads
  rw [u.four] at hloop
  exact hloop

/-- Behind a backslash stands what completes an escape. -/
theorem escape_sound {P : Bytes → Prop} (d : Nat) :
    Sound P d d (escape layout) fun _ bytes => ∃ part : StringPart,
      part.render = 0x5C :: bytes := by
  have hsecond : ∀ first : Unit16, isHigh first.value = true →
      Sound Any d d (expect layout 0x5C >>= fun _ => expect layout 0x75 >>= fun _ =>
        hex layout >>= fun m => if isLow m then pure () else fail "invalid surrogate pair")
        fun _ bytes => ∃ part : StringPart,
          part.render = 0x5C :: 0x75 :: (first.bytes ++ bytes) := by
    intro first hhigh
    have hlow : ∀ m, Sound Any d d
        (if isLow m then pure () else fail "invalid surrogate pair" : Action Unit)
        fun _ bytes => isLow m = true ∧ bytes = [] := by
      intro m
      split_ifs with h
      · exact (Sound.pure ()).mono fun _ _ hpure => ⟨h, hpure.2⟩
      · exact .fail
    refine ((expect_sound layout d 0x5C).bind fun _ => (expect_sound layout d 0x75).bind fun _ =>
      (hex_sound layout d).bind hlow).mono ?_
    rintro - bytes ⟨-, _, _, rfl, rfl, -, _, _, rfl, rfl, -, x, y, rfl, ⟨second, rfl, rfl⟩, hlow,
      rfl⟩
    refine ⟨.pair first second hhigh hlow, ?_⟩
    rw [StringPart.render, List.append_nil]
    rfl
  have hunit : Sound Any d d (hex layout >>= fun n =>
      if isHigh n then expect layout 0x5C >>= fun _ => expect layout 0x75 >>= fun _ =>
        hex layout >>= fun m => if isLow m then pure () else fail "invalid surrogate pair"
      else if isLow n then fail "unpaired low surrogate" else pure ())
      fun _ bytes => ∃ part : StringPart, part.render = 0x5C :: 0x75 :: bytes := by
    refine .bind' (hex_sound layout d) ?_
    rintro n x ⟨first, rfl, rfl⟩
    split_ifs with hhigh hlow
    · exact hsecond first hhigh
    · exact .fail
    · refine (Sound.pure ()).mono ?_
      rintro - y ⟨-, rfl⟩
      refine ⟨.single first (eq_false_of_ne_true hhigh) (eq_false_of_ne_true hlow), ?_⟩
      rw [StringPart.render, List.append_nil]
  refine .bind' (copy_sound layout d).weaken ?_
  rintro b x rfl
  split_ifs with hshort hu
  · refine (Sound.pure ()).mono ?_
    rintro - y ⟨-, rfl⟩
    exact ⟨.escape b hshort, rfl⟩
  · exact hu ▸ hunit
  · exact .fail

theorem escape_short {b : UInt8} (h : b ∈ shortEscapes) :
    Complete (escape layout) [b] (written layout [b]) Any () := by
  have hcopy := (copy_complete layout b).bind (g := fun b => if b ∈ shortEscapes then pure ()
    else if b = 0x75 then hex layout >>= fun n =>
      if isHigh n then expect layout 0x5C >>= fun _ => expect layout 0x75 >>= fun _ =>
        hex layout >>= fun m => if isLow m then pure () else fail "invalid surrogate pair"
      else if isLow n then fail "unpaired low surrogate" else pure ()
    else fail "invalid string escape") (by rw [if_pos h]; exact .pure ()) fun _ _ => trivial
  simp only [List.append_nil] at hcopy
  exact hcopy

/-- Behind the letter, the digits decide how an escape goes on. -/
theorem escape_unit (first : Unit16) {y : Bytes}
    (h : Complete (if isHigh first.value then expect layout 0x5C >>= fun _ =>
        expect layout 0x75 >>= fun _ => hex layout >>= fun m =>
          if isLow m then pure () else fail "invalid surrogate pair"
      else if isLow first.value then fail "unpaired low surrogate" else pure ()) y
      (written layout y) Any ()) :
    Complete (escape layout) (0x75 :: (first.bytes ++ y))
      (written layout (0x75 :: (first.bytes ++ y))) Any () := by
  have hout : written layout (0x75 :: (first.bytes ++ y)) =
      written layout [0x75] ++ (written layout first.bytes ++ written layout y) := by
    rw [← written_append, ← written_append]
    rfl
  rw [hout]
  exact (copy_complete layout 0x75).bind ((hex_complete layout first).bind h fun _ _ => trivial)
    fun _ _ => trivial

theorem escape_single (u : Unit16) (hhigh : isHigh u.value = false) (hlow : isLow u.value = false) :
    Complete (escape layout) (0x75 :: u.bytes) (written layout (0x75 :: u.bytes)) Any () := by
  have h := escape_unit layout u (y := []) (by
    rw [if_neg (ne_true_of_eq_false hhigh), if_neg (ne_true_of_eq_false hlow), written_nil]
    exact .pure ())
  rw [List.append_nil] at h
  exact h

theorem escape_pair (first second : Unit16) (hhigh : isHigh first.value = true)
    (hlow : isLow second.value = true) :
    Complete (escape layout) (0x75 :: (first.bytes ++ 0x5C :: 0x75 :: second.bytes))
      (written layout (0x75 :: (first.bytes ++ 0x5C :: 0x75 :: second.bytes))) Any () := by
  refine escape_unit layout first ?_
  rw [if_pos hhigh]
  have hlast := (hex_complete layout second).bind (g := fun m =>
    if isLow m then pure () else fail "invalid surrogate pair")
    (by rw [if_pos hlow]; exact .pure ()) fun _ _ => trivial
  have hout : written layout (0x5C :: 0x75 :: second.bytes) =
      written layout [0x5C] ++ (written layout [0x75] ++ written layout second.bytes) := by
    rw [← written_append, ← written_append]
    rfl
  rw [List.append_nil, List.append_nil] at hlast
  rw [hout]
  exact (expect_complete layout 0x5C).bind ((expect_complete layout 0x75).bind hlast
    fun _ _ => trivial) fun _ _ => trivial

/-! ## §2 Scalars -/

theorem takeBytes_sound {P : Bytes → Prop} (d count : Nat) :
    Sound P d d (takeBytes count) fun read bytes => read = bytes ∧ bytes.length = count := by
  induction count generalizing P with
  | zero =>
    refine (Sound.pure []).mono ?_
    rintro read bytes ⟨rfl, rfl⟩
    exact ⟨rfl, rfl⟩
  | succ count ih =>
    refine ((take_sound d).weaken.bind fun b => ih.bind fun bytes => .pure (b :: bytes)).mono ?_
    rintro read bytes ⟨b, x, _, rfl, rfl, _, y, _, rfl, ⟨rfl, rfl⟩, rfl, rfl⟩
    rw [List.append_nil]
    exact ⟨rfl, rfl⟩

theorem takeBytes_complete (bytes : Bytes) :
    Complete (takeBytes bytes.length) bytes [] Any bytes := by
  induction bytes with
  | nil => exact .pure []
  | cons b bytes ih =>
    have htake := (take_complete b).bind (g := fun b => takeBytes bytes.length >>= fun bytes =>
      pure (b :: bytes)) (ih.bind (.pure _) fun _ _ => trivial) fun _ _ => trivial
    simp only [List.append_nil] at htake
    exact htake

/-- The first byte of a longer scalar gives its width. -/
theorem scalarWidth_of_scan {b : UInt8} {t : Bytes} {k : Nat} (hb : 0x80 ≤ b)
    (h : Codec.scan (b :: t) = .valid k) : scalarWidth b = some k := by
  have htail : ∀ {due n : Nat} {u : Bytes}, Codec.scanTail due n u = .valid k → n + due = k := by
    intro due n u hscan
    rcases Codec.scanTail_cases due n u with ⟨hvalid, -⟩ | ⟨hcut, -⟩ | ⟨_, hinvalid, -⟩
    · exact Codec.Scan.valid.inj (hvalid.symm.trans hscan)
    · exact nomatch hcut.symm.trans hscan
    · exact nomatch hinvalid.symm.trans hscan
  unfold Codec.scan at h
  dsimp only at h
  rw [if_neg (UInt8.not_lt.mpr hb)] at h
  rw [scalarWidth]
  split_ifs at h with htwo hmore hthree
  · rw [if_pos htwo]
    exact congrArg some (htail h)
  · rw [if_neg htwo, if_pos ⟨hmore.1, hthree⟩]
    split at h
    · exact nomatch h
    · split_ifs at h
      exact congrArg some (htail h)
  · have hfour : ∀ b : UInt8, ¬b ≤ 0xEF → 0xF0 ≤ b := by grind
    rw [if_neg htwo, if_neg fun hle => hthree hle.2, if_pos ⟨hfour b hthree, hmore.2⟩]
    split at h
    · exact nomatch h
    · split_ifs at h
      exact congrArg some (htail h)

/-- A longer scalar has no byte that a string reads in another way. -/
theorem plain_of_scalar {b : UInt8} {t : Bytes} (hb : 0x80 ≤ b) (h : Codec.Scalar (b :: t)) :
    ∀ c ∈ b :: t, Plain c := by
  have hhigh : ∀ c : UInt8, 0x80 ≤ c → ¬c < 0x20 ∧ c ≠ 0x22 ∧ c ≠ 0x5C := by grind
  have hcontinuation : ∀ c : UInt8, isContinuation c = true → 0x80 ≤ c :=
    forall_byte (by decide +kernel)
  refine List.forall_mem_cons.mpr ⟨hhigh b hb, fun c hc => hhigh c (hcontinuation c ?_)⟩
  exact h.tail c hc

/-- The bytes copied are a text. -/
theorem textBytes_sound (d : Nat) (b : UInt8) (width : Nat) :
    Sound (Starts (some b)) d d (takeBytes width >>= fun bytes =>
      match Codec.fromUtf8 bytes with
      | .error _ => fail "invalid UTF-8"
      | .ok _ => emit layout bytes)
      fun _ bytes => bytes.length = width ∧ Codec.IsText bytes := by
  refine .bind' (takeBytes_sound d width) ?_
  rintro x _ ⟨rfl, hlen⟩
  split
  · exact .fail
  · rename_i text htext
    refine (emit_sound layout d x).mono ?_
    rintro - y rfl
    rw [List.append_nil]
    exact ⟨hlen, (Codec.fromUtf8_eq_ok htext).2⟩

/-- A longer scalar was read. -/
theorem scalar_sound (d : Nat) {b : UInt8} (hb : 0x80 ≤ b) :
    Sound (Starts (some b)) d d (scalar layout b) fun _ bytes => ∃ part : StringPart,
      part.render = bytes := by
  rw [scalar]
  split
  · exact .fail
  · rename_i width hwidth
    refine (textBytes_sound layout d b width).front.mono ?_
    rintro - bytes ⟨⟨hlen, htext⟩, rest, hstarts⟩
    have hne : bytes ≠ [] := by
      rintro rfl
      obtain rfl : 0 = width := hlen
      have hpos : ∀ b : UInt8, scalarWidth b ≠ some 0 := by grind [scalarWidth]
      exact hpos b hwidth
    rw [Starts, List.head?_append_of_ne_nil _ hne] at hstarts
    obtain ⟨t, rfl⟩ := List.head?_eq_some_iff.mp hstarts
    -- the text is the one scalar that its first byte announces
    obtain ⟨c, u, heq, hscalar, -⟩ := htext.cases_scan hne
    have hscan := hscalar.scan_append u
    rw [← heq] at hscan
    obtain rfl := Option.some.inj (hwidth.symm.trans (scalarWidth_of_scan hb hscan))
    have hscalar : Codec.Scalar (b :: t) := by rw [Codec.Scalar, hscan, hlen]
    exact ⟨.plain (b :: t) hscalar (plain_of_scalar hb hscalar), rfl⟩

theorem scalar_complete {b : UInt8} {t : Bytes} (hb : 0x80 ≤ b) (h : Codec.Scalar (b :: t)) :
    Complete (scalar layout b) (b :: t) (written layout (b :: t)) Any () := by
  have htext : Codec.IsText (b :: t) := by
    have hcons := Codec.IsText.cons h .nil
    rwa [List.append_nil] at hcons
  rw [scalar, scalarWidth_of_scan hb h]
  refine (takeBytes_complete (b :: t)).readThenWrite ?_ fun _ => trivial
  rw [Codec.fromUtf8_ok htext]
  exact emit_complete layout _

/-! ## §3 Strings -/

/-- The ordinary bytes of the buffer are taken at once. -/
theorem span_reads {s : Parser} (h : s.Filled) :
    Reads s { s with
        input := consume (s.buffer.takeWhile isOrdinary).length s.input
        out := s.out ++ written layout (s.buffer.takeWhile isOrdinary)
        offset := s.offset + (s.buffer.takeWhile isOrdinary).length }
      (s.buffer.takeWhile isOrdinary) (written layout (s.buffer.takeWhile isOrdinary)) := by
  have hprefix : s.buffer.takeWhile isOrdinary <+: s.buffer := List.takeWhile_prefix _
  obtain ⟨hflatten, hfilled⟩ := consume_spec h hprefix.length_le
  refine ⟨?_, hfilled, rfl, rfl, rfl, rfl⟩
  show s.rest = _ ++ (consume _ s.input).flatten
  rw [hflatten]
  have hrest : s.buffer.takeWhile isOrdinary <+: s.rest := by
    rw [s.buffer_append]
    exact hprefix.trans (List.prefix_append _ _)
  exact (List.prefix_iff_eq_append.mp hrest).symm

/-- An ordinary byte stands for itself. -/
theorem plain_of_ordinary {b : UInt8} (h : isOrdinary b = true) : b < 0x80 ∧ Plain b := by
  grind [isOrdinary, Plain]

/-- A single byte as a part. -/
def plainByte {b : UInt8} (ascii : b < 0x80) (plain : Plain b) : StringPart :=
  .plain [b] (if_pos ascii) (List.forall_mem_singleton.mpr plain)

/-- Ordinary bytes are parts of their own. -/
theorem parts_of_ordinary {bytes : Bytes} (h : ∀ b ∈ bytes, isOrdinary b = true) :
    ∃ parts : List StringPart, parts.flatMap StringPart.render = bytes := by
  induction bytes with
  | nil => exact ⟨[], rfl⟩
  | cons b bytes ih =>
    obtain ⟨hb, hbytes⟩ := List.forall_mem_cons.mp h
    obtain ⟨parts, rfl⟩ := ih hbytes
    obtain ⟨hascii, hplain⟩ := plain_of_ordinary hb
    exact ⟨plainByte hascii hplain :: parts, rfl⟩

/-- The parts of a string and its closing quote. -/
def closed (parts : List StringPart) : Bytes := parts.flatMap StringPart.render ++ [0x22]

theorem render_ne_nil (part : StringPart) : part.render ≠ [] := by
  cases part with
  | plain scalar hscalar hunescaped => exact hscalar.ne_nil
  | escape b known => exact List.cons_ne_nil _ _
  | single u hhigh hlow => exact List.cons_ne_nil _ _
  | pair first second hhigh hlow => exact List.cons_ne_nil _ _

theorem closed_cons (part : StringPart) (parts : List StringPart) :
    closed (part :: parts) = part.render ++ closed parts := by
  rw [closed, List.flatMap_cons, List.append_assoc]
  rfl

theorem stringAt_sound {P : Bytes → Prop} {d : Nat} {next : Action Unit}
    (hnext : Sound Any d d next fun _ bytes => ∃ parts, closed parts = bytes) :
    Sound P d d (stringAt layout next) fun _ bytes => ∃ parts, closed parts = bytes := by
  -- a part was read and the loop goes on behind it
  have hpart : ∀ {β : Type} {Q : Bytes → Prop} {f : Action β},
      Sound Q d d f (fun _ bytes => ∃ part : StringPart, part.render = bytes) →
      Sound Q d d (f >>= fun _ => next) fun _ bytes => ∃ parts, closed parts = bytes := by
    intro β Q f hf
    refine (hf.bind fun _ => hnext).mono ?_
    rintro - bytes ⟨-, _, _, rfl, ⟨part, rfl⟩, parts, rfl⟩
    exact ⟨part :: parts, closed_cons part parts⟩
  refine .peek fun head => ?_
  cases head with
  | none => exact .fail
  | some b =>
    dsimp only
    split_ifs with hquote hcontrol hslash hlong
    · subst hquote
      refine ((copy_seen layout d _).bind fun _ => .pure ()).mono ?_
      rintro - bytes ⟨-, x, y, rfl, rfl, -, rfl⟩
      exact ⟨[], rfl⟩
    · exact .fail
    · subst hslash
      have hescape : Sound (Starts (some 0x5C)) d d (copy layout >>= fun _ => escape layout)
          fun _ bytes => ∃ part : StringPart, part.render = bytes := by
        refine ((copy_seen layout d _).bind fun _ => escape_sound layout d).mono ?_
        rintro - bytes ⟨-, x, y, rfl, rfl, part, hpart⟩
        exact ⟨part, hpart⟩
      have hloop := hpart hescape
      simp only [bind_assoc] at hloop
      exact hloop
    · exact hpart (scalar_sound layout d hlong)
    · have hascii : b < 0x80 := UInt8.not_le.mp hlong
      refine hpart ((copy_seen layout d b).mono ?_)
      rintro - bytes rfl
      exact ⟨plainByte hascii ⟨hcontrol, hquote, hslash⟩, rfl⟩

/-- The parts of a string and its closing quote were read. -/
theorem stringLoop_sound {P : Bytes → Prop} (d rounds : Nat) :
    Sound P d d (stringLoop layout rounds) fun _ bytes => ∃ parts, closed parts = bytes := by
  induction rounds generalizing P with
  | zero => exact .fail
  | succ rounds ih =>
    intro s a s' hs hd _ hrun
    rw [stringLoop, bind_run (x := get) rfl] at hrun
    split_ifs at hrun with hspan
    · rw [bind_run (x := modify _) rfl] at hrun
      have hreads := span_reads layout hs
      obtain ⟨hs', hd', bytes, hrest, parts, rfl⟩ :=
        ih (P := Any) _ a s' hreads.filled (hreads.depth.trans hd) trivial hrun
      have hordinary : ∀ b ∈ s.buffer.takeWhile isOrdinary, isOrdinary b = true :=
        fun b hb => List.all_eq_true.mp List.all_takeWhile b hb
      obtain ⟨front, hfront⟩ := parts_of_ordinary hordinary
      refine ⟨hs', hd', _, by rw [hreads.rest, hrest, ← List.append_assoc], front ++ parts, ?_⟩
      rw [closed, List.flatMap_append, hfront, List.append_assoc]
      rfl
    · exact stringAt_sound (P := Any) layout ih s a s' hs hd trivial hrun

/-- A string was read. -/
theorem string_sound {P : Bytes → Prop} (d : Nat) :
    Sound P d d (string layout) fun _ bytes => ∃ parts : List StringPart,
      renderString parts = bytes := by
  refine ((expect_sound layout d 0x22).bind fun _ =>
    .get fun s => stringLoop_sound layout d (s.rest.length + 1)).mono ?_
  rintro - bytes ⟨-, x, y, rfl, rfl, parts, rfl⟩
  exact ⟨parts, rfl⟩

/-- A scalar that starts with a byte of its own has no other. -/
theorem scalar_ascii {b : UInt8} {t : Bytes} (hb : b < 0x80) (h : Codec.Scalar (b :: t)) :
    t = [] := by
  have hscan : Codec.scan (b :: t) = .valid 1 := if_pos hb
  have hlen := Codec.Scan.valid.inj (hscan.symm.trans h)
  exact List.length_eq_zero_iff.mp (Nat.succ.inj hlen).symm

/-- Ordinary bytes in front of a string's end are parts of their own. -/
theorem parts_behind {span : Bytes} {parts : List StringPart} {y z : Bytes}
    (hspan : ∀ b ∈ span, isOrdinary b = true)
    (h : parts.flatMap StringPart.render ++ 0x22 :: z = span ++ y) :
    ∃ parts' : List StringPart,
      parts.flatMap StringPart.render = span ++ parts'.flatMap StringPart.render := by
  induction span generalizing parts with
  | nil => exact ⟨parts, rfl⟩
  | cons b span ih =>
    obtain ⟨hb, hrest⟩ := List.forall_mem_cons.mp hspan
    cases parts with
    | nil =>
      obtain ⟨rfl, -⟩ := List.cons_eq_cons.mp h
      exact absurd hb (by decide)
    | cons part parts =>
      cases part with
      | plain scalar hscalar hunescaped =>
        cases scalar with
        | nil => exact absurd rfl hscalar.ne_nil
        | cons c t =>
          rw [List.flatMap_cons, List.append_assoc] at h
          obtain ⟨rfl, hbytes⟩ := List.cons_eq_cons.mp h
          obtain rfl := scalar_ascii (plain_of_ordinary hb).1 hscalar
          obtain ⟨parts', hparts⟩ := ih hrest hbytes
          exact ⟨parts', congrArg (c :: ·) hparts⟩
      | escape c known =>
        obtain ⟨rfl, -⟩ := List.cons_eq_cons.mp h
        exact absurd hb (by decide)
      | single u hhigh hlow =>
        obtain ⟨rfl, -⟩ := List.cons_eq_cons.mp h
        exact absurd hb (by decide)
      | pair first second hhigh hlow =>
        obtain ⟨rfl, -⟩ := List.cons_eq_cons.mp h
        exact absurd hb (by decide)

theorem stringAt_closing (next : Action Unit) :
    Complete (stringAt layout next) [0x22] (written layout [0x22]) Any () := by
  refine .peek (o := some 0x22) ?_ fun _ _ => rfl
  have hcopy := (copy_complete layout 0x22).bind (g := fun _ => pure ()) (.pure ())
    fun _ _ => trivial
  simp only [List.append_nil] at hcopy
  exact hcopy

/-- A part is read, and the loop goes on behind it. -/
theorem stringAt_part {next : Action Unit} (part : StringPart) {bytes : Bytes}
    (hnext : Complete next bytes (written layout bytes) Any ()) :
    Complete (stringAt layout next) (part.render ++ bytes)
      (written layout (part.render ++ bytes)) Any () := by
  have hescape : ∀ escaped : Bytes,
      Complete (escape layout) escaped (written layout escaped) Any () →
      Complete (stringAt layout next) ((0x5C :: escaped) ++ bytes)
        (written layout ((0x5C :: escaped) ++ bytes)) Any () := by
    intro escaped hescaped
    refine .peek (o := some 0x5C) ?_ fun _ _ => rfl
    have hcopy := (copy_complete layout 0x5C).bind (g := fun _ => escape layout >>= fun _ => next)
      (hescaped.bind hnext fun _ _ => trivial) fun _ _ => trivial
    simp only [← written_append] at hcopy
    exact hcopy
  cases part with
  | plain scalar hscalar hunescaped =>
    cases scalar with
    | nil => exact absurd rfl hscalar.ne_nil
    | cons b t =>
      obtain ⟨hcontrol, hquote, hslash⟩ := hunescaped b List.mem_cons_self
      refine .peek (o := some b) ?_ fun _ _ => rfl
      dsimp only
      rw [if_neg hquote, if_neg hcontrol, if_neg hslash, written_append]
      split_ifs with hlong
      · exact (scalar_complete layout hlong hscalar).bind hnext fun _ _ => trivial
      · obtain rfl := scalar_ascii (UInt8.not_le.mp hlong) hscalar
        exact (copy_complete layout b).bind hnext fun _ _ => trivial
  | escape b known => exact hescape [b] (escape_short layout known)
  | single u hhigh hlow => exact hescape _ (escape_single layout u hhigh hlow)
  | pair first second hhigh hlow => exact hescape _ (escape_pair layout first second hhigh hlow)

/-- The parts of a string are read up to its closing quote. -/
theorem stringLoop_complete {parts : List StringPart} {rounds : Nat}
    (hrounds : (parts.flatMap StringPart.render).length < rounds) :
    Complete (stringLoop layout rounds) (closed parts) (written layout (closed parts)) Any () := by
  induction rounds generalizing parts with
  | zero => exact absurd hrounds (Nat.not_lt_zero _)
  | succ rounds ih =>
    intro s hs rest hrest _
    rw [stringLoop, bind_run (x := get) rfl]
    by_cases hspan : s.buffer.takeWhile isOrdinary ≠ []
    · rw [if_pos hspan, bind_run (x := modify _) rfl]
      have hreads := span_reads layout hs
      have hordinary : ∀ b ∈ s.buffer.takeWhile isOrdinary, isOrdinary b = true :=
        fun b hb => List.all_eq_true.mp List.all_takeWhile b hb
      have hshape := hreads.rest
      rw [hrest, closed, List.append_assoc] at hshape
      obtain ⟨parts', hparts⟩ := parts_behind hordinary hshape
      have hclosed : closed parts = s.buffer.takeWhile isOrdinary ++ closed parts' := by
        rw [closed, hparts, List.append_assoc]
        rfl
      have hlen : (parts'.flatMap StringPart.render).length < rounds := by
        rw [hparts, List.length_append] at hrounds
        have := List.length_pos_iff.mpr hspan
        omega
      rw [hclosed, List.append_assoc] at hrest
      obtain ⟨s', hrun, hreads'⟩ := ih hlen _ hreads.filled rest (hreads.rest_eq hrest) trivial
      refine ⟨s', hrun, ?_⟩
      rw [hclosed, written_append]
      exact hreads.trans hreads'
    · rw [if_neg hspan]
      cases parts with
      | nil => exact stringAt_closing layout _ s hs rest hrest trivial
      | cons part parts =>
        have hpos : 0 < part.render.length := List.length_pos_iff.mpr (render_ne_nil part)
        have hlen : (parts.flatMap StringPart.render).length < rounds := by
          rw [List.flatMap_cons, List.length_append] at hrounds
          omega
        rw [closed_cons] at hrest ⊢
        exact stringAt_part layout part (ih hlen) s hs rest hrest trivial

/-- A string is read. -/
theorem string_complete (parts : List StringPart) :
    Complete (string layout) (renderString parts) (written layout (renderString parts)) Any () := by
  have hloop : Complete (fun s => stringLoop layout (s.rest.length + 1) s) (closed parts)
      (written layout (closed parts)) Any () := by
    intro s hs rest hrest _
    refine stringLoop_complete layout ?_ s hs rest hrest trivial
    rw [hrest, closed, List.length_append, List.length_append]
    omega
  have hstring := (expect_complete layout 0x22).bind (g := fun _ s =>
    stringLoop layout (s.rest.length + 1) s) hloop fun _ _ => trivial
  rw [← written_append] at hstring
  exact hstring

/-! ## §4 Literals -/

theorem expectAll_sound {P : Bytes → Prop} (d : Nat) (bytes : Bytes) :
    Sound P d d (expectAll layout bytes) fun _ read => read = bytes := by
  induction bytes generalizing P with
  | nil => exact (Sound.pure ()).mono fun _ _ h => h.2
  | cons b bytes ih =>
    refine ((expect_sound layout d b).bind fun _ => ih).mono ?_
    rintro - read ⟨-, x, y, rfl, rfl, rfl⟩
    rfl

theorem expectAll_complete (bytes : Bytes) :
    Complete (expectAll layout bytes) bytes (written layout bytes) Any () := by
  induction bytes with
  | nil =>
    rw [written_nil]
    exact .pure ()
  | cons b bytes ih =>
    have hall := (expect_complete layout b).bind (g := fun _ => expectAll layout bytes) ih
      fun _ _ => trivial
    rw [← written_append] at hall
    exact hall

end BareLine.JsonTools.Process
