import BareLine.Tree.Charged

/-!
# The piece tree is balanced

- §1: balanced trees.
- §2: one rotation.
- §3: joining.
- §4: cutting and selecting.
- §5: new text.
- §6: every tree that the operations build.
-/

namespace BareLine.Tree

open Lib

/-! ## §1 Balanced trees -/

/-- Every stored height is exact, and the heights of two siblings differ by at most one. -/
def Node.Avl : Node → Prop
  | .branch left right height _ => left.Avl ∧ right.Avl ∧ left.height ≤ right.height + 1 ∧
      right.height ≤ left.height + 1 ∧ height = 1 + max left.height right.height
  | _ => True

def RootAvl (root : Root) : Prop := ∀ node ∈ root, node.Avl

@[simp] theorem rootAvl_none : RootAvl none := fun _ h => nomatch h

@[simp] theorem rootAvl_some {node : Node} : RootAvl (some node) ↔ node.Avl :=
  ⟨fun h => h node rfl, fun h _ hn => Option.some.inj hn ▸ h⟩

variable {l r n : Node} {charge : Nat}

theorem Node.Avl.height_pos (h : n.Avl) : 0 < n.height := by
  cases n with
  | branch left right height summary =>
    obtain ⟨-, -, -, -, hheight⟩ := h
    show 0 < height
    omega
  | _ => exact Nat.one_pos

@[simp] theorem height_branch (l r : Node) (height : Nat) (s : Summary) :
    (Node.branch l r height s).height = height := rfl

@[simp] theorem branch_height (l r : Node) : (branch l r).height = 1 + max l.height r.height := rfl

theorem branch_avl (hl : l.Avl) (hr : r.Avl) (h : l.height ≤ r.height + 1)
    (h' : r.height ≤ l.height + 1) : (branch l r).Avl := ⟨hl, hr, h, h', rfl⟩

/-- What is higher than a leaf is a branch. -/
theorem Node.Avl.branch_of_height (h : n.Avl) (hheight : 1 < n.height) :
    ∃ a b, n = .branch a b n.height n.summary ∧ a.Avl ∧ b.Avl ∧ a.height ≤ b.height + 1 ∧
      b.height ≤ a.height + 1 ∧ n.height = 1 + max a.height b.height := by
  cases n with
  | branch a b height summary =>
    obtain ⟨ha, hb, hab, hba, hheight⟩ := h
    exact ⟨a, b, rfl, ha, hb, hab, hba, hheight⟩
  | _ => exact absurd hheight (Nat.lt_irrefl 1)

/-! ## §2 One rotation -/

/-- The result of a join, and its height. -/
structure Joined (l r n : Node) : Prop where
  avl : n.Avl
  low : max l.height r.height ≤ n.height
  high : n.height ≤ max l.height r.height + 1

/-- A rotation mends a difference of two. -/
theorem balance_joined (hl : l.Avl) (hr : r.Avl) (h : l.height ≤ r.height + 2)
    (h' : r.height ≤ l.height + 2) : Joined l r (balance l r) ∧
      (l.height ≤ r.height + 1 → r.height ≤ l.height + 1 →
        (balance l r).height = 1 + max l.height r.height) := by
  have hlpos := hl.height_pos
  have hrpos := hr.height_pos
  unfold balance
  split_ifs with hleft hright
  · obtain ⟨a, b, hbranch, ha, hb, hab, hba, hheight⟩ := hl.branch_of_height (by omega)
    rw [hbranch]
    dsimp only
    split_ifs with hsingle
    · refine ⟨⟨branch_avl ha (branch_avl hb hr ?_ ?_) ?_ ?_, ?_, ?_⟩, ?_⟩ <;>
        first | omega | (simp only [branch_height, height_branch]; omega)
    · obtain ⟨c, d, hinner, hc, hd, hcd, hdc, hb'⟩ :=
        hb.branch_of_height (by have := ha.height_pos; omega)
      rw [hinner]
      dsimp only
      refine ⟨⟨branch_avl (branch_avl ha hc ?_ ?_) (branch_avl hd hr ?_ ?_) ?_ ?_, ?_, ?_⟩, ?_⟩ <;>
        first | omega | (simp only [branch_height, height_branch]; omega)
  · obtain ⟨a, b, hbranch, ha, hb, hab, hba, hheight⟩ := hr.branch_of_height (by omega)
    rw [hbranch]
    dsimp only
    split_ifs with hsingle
    · refine ⟨⟨branch_avl (branch_avl hl ha ?_ ?_) hb ?_ ?_, ?_, ?_⟩, ?_⟩ <;>
        first | omega | (simp only [branch_height, height_branch]; omega)
    · obtain ⟨c, d, hinner, hc, hd, hcd, hdc, ha'⟩ :=
        ha.branch_of_height (by have := hb.height_pos; omega)
      rw [hinner]
      dsimp only
      refine ⟨⟨branch_avl (branch_avl hl hc ?_ ?_) (branch_avl hd hb ?_ ?_) ?_ ?_, ?_, ?_⟩, ?_⟩ <;>
        first | omega | (simp only [branch_height, height_branch]; omega)
  · refine ⟨⟨branch_avl hl hr (by omega) (by omega), ?_, ?_⟩, fun _ _ => rfl⟩ <;>
      simp only [branch_height] <;> omega

theorem chargedNode_builds (node : Node) : Builds (chargedNode charge node) (· = node) :=
  Builds.bind ((claim_builds charge).mono fun _ _ => Builds.pure rfl)

theorem chargedBranch_builds (l r : Node) : Builds (chargedBranch charge l r) (· = branch l r) :=
  chargedNode_builds _

/-- The charged rotation is the plain one: the siblings that it takes apart are branches. -/
theorem chargedBalance_builds (hl : l.Avl) (hr : r.Avl) :
    Builds (chargedBalance charge l r) (· = balance l r) := by
  have hlpos := hl.height_pos
  have hrpos := hr.height_pos
  unfold chargedBalance balance
  split_ifs with hleft hright
  · obtain ⟨a, b, hbranch, ha, hb, -⟩ := hl.branch_of_height (by omega)
    rw [hbranch]
    dsimp only
    split_ifs with hsingle
    · refine Builds.bind ((chargedBranch_builds b r).mono ?_)
      rintro _ rfl
      exact chargedBranch_builds _ _
    · obtain ⟨c, d, hinner, -⟩ := hb.branch_of_height (by have := ha.height_pos; omega)
      rw [hinner]
      refine Builds.bind ((chargedBranch_builds a c).mono ?_)
      rintro _ rfl
      refine Builds.bind ((chargedBranch_builds d r).mono ?_)
      rintro _ rfl
      exact chargedBranch_builds _ _
  · obtain ⟨a, b, hbranch, ha, hb, -⟩ := hr.branch_of_height (by omega)
    rw [hbranch]
    dsimp only
    split_ifs with hsingle
    · refine Builds.bind ((chargedBranch_builds l a).mono ?_)
      rintro _ rfl
      exact chargedBranch_builds _ _
    · obtain ⟨c, d, hinner, -⟩ := ha.branch_of_height (by have := hb.height_pos; omega)
      rw [hinner]
      refine Builds.bind ((chargedBranch_builds l c).mono ?_)
      rintro _ rfl
      refine Builds.bind ((chargedBranch_builds d b).mono ?_)
      rintro _ rfl
      exact chargedBranch_builds _ _
  · exact chargedBranch_builds l r

/-! ## §3 Joining -/

/-- Joining trees of any heights: the shorter one goes down the spine of the taller one, which
grows by at most one on the way back. -/
theorem concatNode_joined (hl : l.Avl) (hr : r.Avl) : Joined l r (concatNode l r) := by
  fun_induction concatNode l r with
  | case1 r a b height summary h ih =>
    obtain ⟨ha, hb, hab, hba, hheight⟩ := hl
    obtain ⟨havl, hlow, hhigh⟩ := ih hb hr
    have h : height > r.height + 1 := h
    obtain ⟨⟨hbalanced, hlow', hhigh'⟩, hexact⟩ :=
      balance_joined ha havl (by omega) (by omega)
    refine ⟨hbalanced, ?_, ?_⟩
    · show max height r.height ≤ _
      by_cases hnear : (concatNode b r).height ≤ a.height + 1
      · have := hexact (by omega) hnear
        omega
      · omega
    · show _ ≤ max height r.height + 1
      omega
  | case2 l r h hno =>
    obtain ⟨a, b, hbranch, -⟩ := hl.branch_of_height (by omega)
    exact absurd hbranch (hno a b _ _)
  | case3 l a b height summary h h' ih =>
    obtain ⟨ha, hb, hab, hba, hheight⟩ := hr
    obtain ⟨havl, hlow, hhigh⟩ := ih hl ha
    have h' : height > l.height + 1 := h'
    obtain ⟨⟨hbalanced, hlow', hhigh'⟩, hexact⟩ :=
      balance_joined havl hb (by omega) (by omega)
    refine ⟨hbalanced, ?_, ?_⟩
    · show max l.height height ≤ _
      by_cases hnear : (concatNode l a).height ≤ b.height + 1
      · have := hexact hnear (by omega)
        omega
      · omega
    · show _ ≤ max l.height height + 1
      omega
  | case4 l r h h' hno =>
    obtain ⟨a, b, hbranch, -⟩ := hr.branch_of_height (by omega)
    exact absurd hbranch (hno a b _ _)
  | case5 l r h h' =>
    refine ⟨branch_avl hl hr (by omega) (by omega), ?_, ?_⟩ <;> simp only [branch_height] <;> omega

theorem concat_avl {l r : Root} (hl : RootAvl l) (hr : RootAvl r) : RootAvl (concat l r) := by
  cases l <;> cases r <;> simp only [concat, rootAvl_none, rootAvl_some] at *
  · exact hr
  · exact hl
  · exact (concatNode_joined hl hr).avl

theorem chargedConcatNode_builds (hl : l.Avl) (hr : r.Avl) :
    Builds (chargedConcatNode charge l r) (· = concatNode l r) := by
  fun_induction concatNode l r with
  | case1 r a b height summary h ih =>
    unfold chargedConcatNode
    rw [if_pos h]
    refine Builds.bind ((ih hl.2.1 hr).mono ?_)
    rintro _ rfl
    exact chargedBalance_builds hl.1 (concatNode_joined hl.2.1 hr).avl
  | case2 l r h hno =>
    obtain ⟨a, b, hbranch, -⟩ := hl.branch_of_height (by omega)
    exact absurd hbranch (hno a b _ _)
  | case3 l a b height summary h h' ih =>
    unfold chargedConcatNode
    rw [if_neg h, if_pos h']
    refine Builds.bind ((ih hl hr.1).mono ?_)
    rintro _ rfl
    exact chargedBalance_builds (concatNode_joined hl hr.1).avl hr.2.1
  | case4 l r h h' hno =>
    obtain ⟨a, b, hbranch, -⟩ := hr.branch_of_height (by omega)
    exact absurd hbranch (hno a b _ _)
  | case5 l r h h' =>
    unfold chargedConcatNode
    rw [if_neg h, if_neg h']
    exact chargedBranch_builds l r

theorem chargedConcat_builds {l r : Root} (hl : RootAvl l) (hr : RootAvl r) :
    Builds (chargedConcat charge l r) (· = concat l r) := by
  cases l with
  | none => exact Builds.pure rfl
  | some l =>
    cases r with
    | none => exact Builds.pure rfl
    | some r =>
      refine Builds.bind ((chargedConcatNode_builds (rootAvl_some.mp hl)
        (rootAvl_some.mp hr)).mono ?_)
      rintro _ rfl
      exact Builds.pure rfl

/-! ## §4 Cutting and selecting -/

theorem fromSource_avl (source : MemorySource) (range : Range) :
    RootAvl (fromSource source range) := by
  unfold fromSource
  split_ifs
  · exact rootAvl_none
  · exact rootAvl_some.mpr trivial

theorem fromOwnedSource_avl (source : MemorySource) (range : Range)
    (original : Option (MemorySource × Range)) :
    RootAvl (fromOwnedSource source range original) := by
  unfold fromOwnedSource
  split_ifs
  · exact rootAvl_none
  · exact rootAvl_some.mpr trivial

/-- Each half of a cut is joined from the subtrees that the cut leaves whole. -/
theorem splitNode_avl (h : n.Avl) (offset : Nat) :
    RootAvl (splitNode n offset).1 ∧ RootAvl (splitNode n offset).2 := by
  induction n generalizing offset with
  | leaf piece =>
    rw [splitNode]
    split_ifs <;> exact ⟨by simp [Node.Avl], by simp [Node.Avl]⟩
  | source src range =>
    rw [splitNode]
    split_ifs
    · exact ⟨rootAvl_none, rootAvl_some.mpr h⟩
    · exact ⟨rootAvl_some.mpr h, rootAvl_none⟩
    · exact ⟨fromSource_avl _ _, fromSource_avl _ _⟩
  | ownedSource src range original summary =>
    rw [splitNode]
    split_ifs
    · exact ⟨rootAvl_none, rootAvl_some.mpr h⟩
    · exact ⟨rootAvl_some.mpr h, rootAvl_none⟩
    · exact ⟨fromOwnedSource_avl _ _ _, fromOwnedSource_avl _ _ _⟩
  | branch left right height summary ihl ihr =>
    rw [splitNode]
    dsimp only
    split_ifs with h0 h1 h2
    · exact ⟨rootAvl_none, rootAvl_some.mpr h⟩
    · exact ⟨rootAvl_some.mpr h, rootAvl_none⟩
    · obtain ⟨hfirst, hrest⟩ := ihl h.1 offset
      exact ⟨hfirst, concat_avl hrest (rootAvl_some.mpr h.2.1)⟩
    · obtain ⟨hfirst, hrest⟩ := ihr h.2.1 (offset - left.summary.bytes)
      exact ⟨concat_avl (rootAvl_some.mpr h.1) hfirst, hrest⟩

theorem split_avl {root : Root} (h : RootAvl root) (offset : Nat) :
    RootAvl (split root offset).1 ∧ RootAvl (split root offset).2 := by
  cases root with
  | none => exact ⟨rootAvl_none, rootAvl_none⟩
  | some n => exact splitNode_avl (rootAvl_some.mp h) offset

theorem sliceNode_avl (h : n.Avl) (range : Range) : RootAvl (sliceNode n range) := by
  induction n generalizing range with
  | leaf piece =>
    rw [sliceNode]
    dsimp only
    split_ifs <;> simp [Node.Avl]
  | source src r =>
    rw [sliceNode]
    · dsimp only
      split_ifs
      · exact rootAvl_none
      · exact rootAvl_some.mpr h
      · exact (split_avl (splitNode_avl h _).1 _).2
    all_goals intros; contradiction
  | ownedSource src r original summary =>
    rw [sliceNode]
    · dsimp only
      split_ifs
      · exact rootAvl_none
      · exact rootAvl_some.mpr h
      · exact (split_avl (splitNode_avl h _).1 _).2
    all_goals intros; contradiction
  | branch left right height summary ihl ihr =>
    rw [sliceNode]
    dsimp only
    split_ifs
    · exact rootAvl_none
    · exact rootAvl_some.mpr h
    · exact ihl h.1 _
    · exact ihr h.2.1 _
    · exact concat_avl (ihl h.1 _) (ihr h.2.1 _)

theorem slice_avl {root : Root} (h : RootAvl root) (range : Range) :
    RootAvl (slice root range) := by
  cases root with
  | none => exact rootAvl_none
  | some n => exact sliceNode_avl (rootAvl_some.mp h) range

theorem chargedSource_builds (source : MemorySource) (range : Range) :
    Builds (chargedSource charge source range) (· = fromSource source range) := by
  unfold chargedSource fromSource
  split_ifs
  · exact Builds.pure rfl
  · refine Builds.bind ((chargedNode_builds _).mono ?_)
    rintro _ rfl
    exact Builds.pure rfl

theorem chargedOwned_builds (source : MemorySource) (range : Range)
    (original : Option (MemorySource × Range)) :
    Builds (chargedOwned charge source range original)
      (· = fromOwnedSource source range original) := by
  unfold chargedOwned fromOwnedSource
  split_ifs
  · exact Builds.pure rfl
  · refine Builds.bind ((chargedNode_builds _).mono ?_)
    rintro _ rfl
    exact Builds.pure rfl

/-- Within the text, the charged cut is the plain one. -/
theorem chargedSplitNode_builds {st : Storage} (h : n.Avl) (hwf : n.Wf st) (offset : Nat)
    (hle : offset ≤ n.text.length) :
    Builds (chargedSplitNode charge n offset) (· = splitNode n offset) := by
  induction n generalizing offset with
  | leaf piece =>
    have hbytes := hwf.bytes
    rw [chargedSplitNode, splitNode]
    split_ifs with h0 h1 h2 h2
    · exact Builds.pure rfl
    · exact Builds.pure rfl
    · omega
    · omega
    · refine Builds.bind ((chargedNode_builds _).mono ?_)
      rintro _ rfl
      refine Builds.bind ((chargedNode_builds _).mono ?_)
      rintro _ rfl
      exact Builds.pure rfl
  | source src range =>
    have hbytes := hwf.bytes
    rw [chargedSplitNode, splitNode]
    split_ifs with h0 h1 h2 h2
    · exact Builds.pure rfl
    · exact Builds.pure rfl
    · omega
    · omega
    · refine Builds.bind ((chargedSource_builds _ _).mono ?_)
      rintro _ rfl
      refine Builds.bind ((chargedSource_builds _ _).mono ?_)
      rintro _ rfl
      exact Builds.pure rfl
  | ownedSource src range original summary =>
    have hbytes := hwf.bytes
    rw [chargedSplitNode, splitNode]
    split_ifs with h0 h1 h2 h2
    · exact Builds.pure rfl
    · exact Builds.pure rfl
    · omega
    · omega
    · refine Builds.bind ((chargedOwned_builds _ _ _).mono ?_)
      rintro _ rfl
      refine Builds.bind ((chargedOwned_builds _ _ _).mono ?_)
      rintro _ rfl
      exact Builds.pure rfl
  | branch left right height summary ihl ihr =>
    have hbytes := hwf.bytes
    have hleft := hwf.1.bytes
    rw [Node.text, List.length_append] at hle
    rw [Node.text, List.length_append] at hbytes
    rw [chargedSplitNode, splitNode]
    dsimp only
    by_cases h0 : offset = 0
    · rw [if_pos h0, if_pos h0]
      exact Builds.pure rfl
    by_cases h1 : offset = (Node.branch left right height summary).summary.bytes
    · rw [if_neg h0, if_pos (by omega), if_neg h0, if_pos h1]
      exact Builds.pure rfl
    rw [if_neg h0, if_neg (by omega), if_neg h0, if_neg h1]
    by_cases h2 : offset < left.summary.bytes
    · rw [if_pos h2, if_pos h2]
      refine Builds.bind ((ihl h.1 hwf.1 offset (by omega)).mono ?_)
      rintro _ rfl
      refine Builds.bind ((chargedConcat_builds (splitNode_avl h.1 offset).2
        (rootAvl_some.mpr h.2.1)).mono ?_)
      rintro _ rfl
      exact Builds.pure rfl
    · rw [if_neg h2, if_neg h2]
      refine Builds.bind ((ihr h.2.1 hwf.2.1 (offset - left.summary.bytes) (by omega)).mono ?_)
      rintro _ rfl
      refine Builds.bind ((chargedConcat_builds (rootAvl_some.mpr h.1)
        (splitNode_avl h.2.1 _).1).mono ?_)
      rintro _ rfl
      exact Builds.pure rfl

theorem chargedSplit_builds {st : Storage} {root : Root} (h : RootAvl root) (hwf : RootWf st root)
    (offset : Nat) (hle : offset ≤ (text root).length) :
    Builds (chargedSplit charge root offset) (· = split root offset) := by
  cases root with
  | none => exact Builds.pure rfl
  | some n =>
    exact chargedSplitNode_builds (rootAvl_some.mp h) (rootWf_some.mp hwf) offset hle

/-! ## §5 New text -/

theorem textSegments_avl {inserted : Bool} {t : Bytes} {root root' : Root} {heap heap' : Heap}
    (hroot : RootAvl root) (h : textSegments inserted t root heap = .ok (root', heap')) :
    RootAvl root' := by
  induction t, root, heap using textSegments.induct inserted with
  | case1 root heap =>
    rw [textSegments, dif_pos rfl] at h
    obtain ⟨rfl, rfl⟩ := Prod.mk.inj (Except.ok.inj h)
    exact hroot
  | case2 t root heap hne n e hres =>
    rw [textSegments, dif_neg hne] at h
    simp only [n] at hres
    simp [hres] at h
  | case3 t root heap hne n heap₁ hres segment ih =>
    rw [textSegments, dif_neg hne] at h
    simp only [n] at hres
    simp only [hres] at h
    exact ih (concat_avl hroot (rootAvl_some.mpr trivial)) h

/-- A balanced tree over owned text and page sources. -/
structure Sound (root : Root) : Prop where
  wf : RootWf .paged root
  avl : RootAvl root

theorem Sound.concat {l r : Root} (hl : Sound l) (hr : Sound r) : Sound (concat l r) :=
  ⟨concat_wf hl.wf hr.wf, concat_avl hl.avl hr.avl⟩

theorem Sound.split {root : Root} (h : Sound root) {offset : Nat}
    (hle : offset ≤ (text root).length) :
    Sound (split root offset).1 ∧ Sound (split root offset).2 :=
  ⟨⟨(split_spec h.wf offset hle).1.1, (split_avl h.avl offset).1⟩,
    (split_spec h.wf offset hle).2.1, (split_avl h.avl offset).2⟩

theorem Sound.slice {root : Root} (h : Sound root) (range : Range) : Sound (slice root range) :=
  ⟨(slice_spec h.wf range).1, slice_avl h.avl range⟩

theorem freshId_builds : Builds freshId fun _ => True :=
  fun heap => Or.inl ⟨heap.next, { heap with next := heap.next + 1 }, rfl, trivial⟩

/-- New charged text is appended chunk by chunk. -/
theorem chargedTextFrom_builds {t : Bytes} {root : Root} (hroot : Sound root) :
    Builds (chargedTextFrom charge t root) fun root' =>
      Sound root' ∧ text root' = text root ++ t := by
  induction hlength : t.length using Nat.strongRecOn generalizing t root with
  | ind length ih =>
    rw [chargedTextFrom]
    split_ifs with hnil
    · exact Builds.pure ⟨hroot, by rw [hnil, List.append_nil]⟩
    · have hn := chunkLen_le t
      have hpos := chunkLen_pos hnil
      refine Builds.bind ((claim_builds _).mono fun _ _ => ?_)
      refine Builds.bind (freshId_builds.mono fun id _ => ?_)
      refine Builds.bind ((chargedNode_builds _).mono ?_)
      rintro _ rfl
      have hleaf : (Piece.new ⟨id, t.take (chunkLen t), none, false⟩ ⟨0, chunkLen t⟩).Wf :=
        ⟨hpos, by simp [Piece.new]; omega, rfl⟩
      have hsound : Sound (some (.leaf (Piece.new ⟨id, t.take (chunkLen t), none, false⟩
          ⟨0, chunkLen t⟩))) := ⟨rootWf_some.mpr hleaf, rootAvl_some.mpr trivial⟩
      refine Builds.bind ((chargedConcat_builds hroot.avl hsound.avl).mono ?_)
      rintro _ rfl
      refine (ih (t.drop (chunkLen t)).length (by rw [List.length_drop]; omega)
        (hroot.concat hsound) rfl).mono ?_
      rintro root' ⟨hsound', htext⟩
      refine ⟨hsound', ?_⟩
      have hcut : (⟨0, chunkLen t⟩ : Range).of (t.take (chunkLen t)) = t.take (chunkLen t) :=
        Range.of_all (List.length_take_le _ _)
      rw [htext, concat_text, text_some, Node.text, Piece.text, Piece.new, hcut,
        List.append_assoc, List.take_append_drop]

/-- What was read of a range before a page source is a front of it, and all of it where none was
met. -/
theorem chunksNode_front {st : Storage} (h : n.Wf st) (range : Range)
    (hle : range.stop ≤ n.text.length) (hlt : range.start < range.stop) :
    ((chunksNode n range).2 = false → (chunksNode n range).1.flatten = range.of n.text) ∧
      (chunksNode n range).1.flatten <+: range.of n.text := by
  induction n generalizing range with
  | leaf piece =>
    have hall : (chunksNode (.leaf piece) range).1.flatten = range.of (Node.leaf piece).text := by
      simp [chunksNode, Node.text]
    exact ⟨fun _ => hall, hall ▸ List.prefix_rfl⟩
  | source src r => exact ⟨fun h => (by cases h), List.nil_prefix⟩
  | ownedSource src r original summary => exact ⟨fun h => (by cases h), List.nil_prefix⟩
  | branch left right height summary ihl ihr =>
    have hlb := h.1.bytes
    have hlen : range.stop ≤ left.text.length + right.text.length := by
      simpa [Node.text] using hle
    rw [chunksNode, hlb, Node.text, Range.of_append]
    by_cases hs : range.start < left.text.length
    · obtain ⟨hall, hfront⟩ := ihl h.1 ⟨range.start, min range.stop left.text.length⟩
        (Nat.min_le_right _ _) (by simp only; omega)
      have hcut : (⟨range.start, min range.stop left.text.length⟩ : Range).of left.text =
          range.of left.text := by
        simp only [Range.of, ← List.take_eq_take_min]
      rw [hcut] at hall hfront
      simp only [hs, if_true]
      cases hstopped : (chunksNode left ⟨range.start, min range.stop left.text.length⟩).2 with
      | true =>
        simp only [if_true]
        exact ⟨fun h => (by cases h), hfront.trans (List.prefix_append _ _)⟩
      | false =>
        have hfirst := hall hstopped
        simp only [Bool.false_eq_true, if_false]
        split_ifs with hm
        · obtain ⟨hall₂, hfront₂⟩ := ihr h.2.1 ⟨range.start - left.text.length,
            range.stop - left.text.length⟩ (by simp only; omega) (by simp only; omega)
          simp only [List.flatten_append, hfirst]
          exact ⟨fun h => by rw [hall₂ h], (List.prefix_append_right_inj _).mpr hfront₂⟩
        · rw [hfirst, Range.of_eq_nil (t := right.text) (by simp only; omega), List.append_nil]
          exact ⟨fun _ => rfl, List.prefix_rfl⟩
    · have hm : range.stop > left.text.length := by omega
      obtain ⟨hall₂, hfront₂⟩ := ihr h.2.1 ⟨range.start - left.text.length,
        range.stop - left.text.length⟩ (by simp only; omega) (by simp only; omega)
      rw [Range.of_eq_nil (t := left.text) (by simp only; omega), List.nil_append]
      simp only [hs, if_false, Bool.false_eq_true, hm, if_true, List.nil_append]
      exact ⟨hall₂, hfront₂⟩

/-- Reading as many bytes as the tree has reads its text. -/
theorem chunks_of_length {st : Storage} {root : Root} (h : RootWf st root)
    (hlength : (chunks root ⟨0, (summary root).bytes⟩).length = (summary root).bytes) :
    chunks root ⟨0, (summary root).bytes⟩ = text root := by
  have hbytes := h.bytes
  unfold chunks at hlength ⊢
  split_ifs at hlength ⊢ with hempty
  · rw [Range.isEmpty_iff] at hempty
    have hzero : (text root).length = 0 := by rw [← hbytes]; exact Nat.le_zero.mp hempty
    exact (List.length_eq_zero_iff.mp hzero).symm
  · rw [Range.isEmpty_iff] at hempty
    cases root with
    | none => exact absurd (Nat.le_refl 0) hempty
    | some node =>
      have hfront := (chunksNode_front (rootWf_some.mp h) ⟨0, node.summary.bytes⟩
        (Nat.le_of_eq hbytes) (Nat.pos_of_ne_zero (by simpa using hempty))).2
      have hall : (⟨0, node.summary.bytes⟩ : Range).of node.text = node.text :=
        Range.of_all (Nat.le_of_eq hbytes.symm)
      rw [hall] at hfront
      exact hfront.eq_of_length (hlength.trans hbytes)

/-- Coalesced or not, the typed text follows the text before it, and the tree stays sound. -/
theorem Sound.concatCoalesced {left right : Root} (hl : Sound left) (hr : Sound right)
    (limit : Nat) (heap : Heap) :
    Sound (concatCoalesced left right limit heap).1 ∧
      text (concatCoalesced left right limit heap).1 = text left ++ text right := by
  have hplain := hl.concat hr
  unfold Tree.concatCoalesced
  split
  next length joined hjoin =>
    split
    next leaf heap' hleaf =>
      simp only [coalescedText, Option.bind_eq_some_iff] at hjoin
      obtain ⟨piece, hlast, hjoin⟩ := hjoin
      split_ifs at hjoin with hno hlen
      obtain ⟨rfl, rfl⟩ := Prod.mk.inj (Option.some.inj hjoin)
      obtain ⟨hw, ht, -, -⟩ := textSegments_spec (rootWf_none .paged) hleaf
      have hleafAvl := textSegments_avl rootAvl_none hleaf
      cases left with
      | none => cases hlast
      | some node =>
        obtain ⟨hpw, pre, hpre⟩ := lastLeafNode_suffix (hl.wf node rfl) hlast
        have hplen := hpw.length
        have hcut : (summary (some node)).bytes - (piece.range.stop - piece.range.start) =
            pre.length := by
          rw [hl.wf.bytes, text_some, hpre, List.length_append]
          omega
        have hle : pre.length ≤ (text (some node)).length := by simp [hpre]
        -- Nothing of the right side was out of reach, or the lengths would differ.
        have hread : chunks right ⟨0, (summary right).bytes⟩ = text right := by
          refine chunks_of_length hr.wf ?_
          rw [List.length_append, hplen] at hlen
          omega
        dsimp only
        rw [hcut]
        refine ⟨(hl.split hle).1.concat ⟨hw, hleafAvl⟩, ?_⟩
        rw [concat_text, (split_spec hl.wf pre.length hle).1.2, ht, hread]
        simp [hpre]
    next => exact ⟨hplain, concat_text _ _⟩
  next => exact ⟨hplain, concat_text _ _⟩

/-! ## §6 Every tree that the operations build -/

/-- `charged_replace` is the splice, built like the plain one. -/
theorem chargedReplace_builds {root inserted : Root} (h : Sound root) (hi : Sound inserted)
    {range : Range} (hrange : range.start ≤ range.stop) (hle : range.stop ≤ (text root).length) :
    Builds (chargedReplace charge root range inserted) fun root' => Sound root' ∧
      text root' = (text root).take range.start ++ text inserted ++ (text root).drop range.stop := by
  refine Builds.bind ((chargedSplit_builds h.avl h.wf _ hle).mono ?_)
  rintro _ rfl
  obtain ⟨hfront, hrest⟩ := h.split hle
  have hcut := split_spec h.wf _ hle
  have hle₂ : range.start ≤ (text (split root range.stop).1).length := by
    rw [hcut.1.2, List.length_take, Nat.min_eq_left hle]
    exact hrange
  refine Builds.bind ((chargedSplit_builds hfront.avl hfront.wf _ hle₂).mono ?_)
  rintro _ rfl
  have hfirst := (hfront.split hle₂).1
  refine Builds.bind ((chargedConcat_builds hfirst.avl hi.avl).mono ?_)
  rintro _ rfl
  have hjoined := hfirst.concat hi
  refine (chargedConcat_builds hjoined.avl hrest.avl).mono ?_
  rintro _ rfl
  refine ⟨hjoined.concat hrest, ?_⟩
  rw [concat_text, concat_text, (split_spec hfront.wf _ hle₂).1.2, hcut.1.2, hcut.2.2,
    List.take_take, Nat.min_eq_left hrange]

/-- The trees that any composition of the operations builds, at offsets within the text. -/
inductive Built : Root → Prop
  | fromText {t : Bytes} {heap heap' : Heap} {root : Root}
      (h : fromText t heap = .ok (root, heap')) : Built root
  | fromInsertedText {t : Bytes} {heap heap' : Heap} {root : Root}
      (h : fromInsertedText t heap = .ok (root, heap')) : Built root
  | concat {l r : Root} (hl : Built l) (hr : Built r) : Built (concat l r)
  | concatCoalesced {l r : Root} (hl : Built l) (hr : Built r) (limit : Nat) (heap : Heap) :
      Built (concatCoalesced l r limit heap).1
  | splitLeft {root : Root} (h : Built root) {offset : Nat} (hle : offset ≤ (text root).length) :
      Built (split root offset).1
  | splitRight {root : Root} (h : Built root) {offset : Nat} (hle : offset ≤ (text root).length) :
      Built (split root offset).2
  | slice {root : Root} (h : Built root) (range : Range) : Built (slice root range)
  | chargedText {charge : Nat} {t : Bytes} {heap heap' : Heap} {root : Root}
      (h : chargedText charge t heap = .ok (root, heap')) : Built root
  | chargedSource {charge : Nat} {source : MemorySource} {range : Range} {heap heap' : Heap}
      {root : Root} (hrange : range.stop ≤ source.data.length)
      (h : chargedSource charge source range heap = .ok (root, heap')) : Built root
  | chargedOwned {charge : Nat} {source : MemorySource} {range : Range} {heap heap' : Heap}
      {original : Option (MemorySource × Range)} {root : Root}
      (hrange : range.stop ≤ source.data.length)
      (h : chargedOwned charge source range original heap = .ok (root, heap')) : Built root
  | chargedConcat {charge : Nat} {l r root : Root} {heap heap' : Heap} (hl : Built l)
      (hr : Built r) (h : chargedConcat charge l r heap = .ok (root, heap')) : Built root
  | chargedSplitLeft {charge : Nat} {root a b : Root} {heap heap' : Heap} (hroot : Built root)
      {offset : Nat} (hle : offset ≤ (text root).length)
      (h : chargedSplit charge root offset heap = .ok ((a, b), heap')) : Built a
  | chargedSplitRight {charge : Nat} {root a b : Root} {heap heap' : Heap} (hroot : Built root)
      {offset : Nat} (hle : offset ≤ (text root).length)
      (h : chargedSplit charge root offset heap = .ok ((a, b), heap')) : Built b
  | chargedReplace {charge : Nat} {root inserted root' : Root} {heap heap' : Heap}
      (hroot : Built root) (hi : Built inserted) {range : Range}
      (hrange : range.start ≤ range.stop) (hle : range.stop ≤ (text root).length)
      (h : chargedReplace charge root range inserted heap = .ok (root', heap')) : Built root'

/-- What a procedure that was not refused has built. -/
theorem Builds.result {α : Type} {p : Charged α} {good : α → Prop} (h : Builds p good) {a : α}
    {heap heap' : Heap} (hrun : p heap = .ok (a, heap')) : good a := by
  rcases h heap with ⟨a', heap'', hp, hgood⟩ | ⟨error, hp⟩
  · rw [hrun] at hp
    cases hp
    exact hgood
  · rw [hrun] at hp
    cases hp

private theorem sound_source (source : MemorySource) {range : Range}
    (h : range.stop ≤ source.data.length) : Sound (fromSource source range) := by
  refine ⟨?_, fromSource_avl _ _⟩
  unfold fromSource
  split_ifs with he
  · exact rootWf_none _
  · rw [Range.isEmpty_iff, Nat.not_le] at he
    exact rootWf_some.mpr ⟨rfl, he, h⟩

private theorem sound_owned (source : MemorySource) {range : Range}
    (original : Option (MemorySource × Range)) (h : range.stop ≤ source.data.length) :
    Sound (fromOwnedSource source range original) := by
  refine ⟨?_, fromOwnedSource_avl _ _ _⟩
  unfold fromOwnedSource
  split_ifs with he
  · exact rootWf_none _
  · rw [Range.isEmpty_iff, Nat.not_le] at he
    refine rootWf_some.mpr ⟨rfl, he, h, ?_, fun hu => nomatch hu⟩
    show range.stop - range.start = (range.of source.data).length
    rw [Range.of_length, Nat.min_eq_left h]

theorem Built.sound {root : Root} (h : Built root) : Sound root := by
  induction h with
  | fromText h =>
    exact ⟨(textSegments_spec (rootWf_none .paged) h).1, textSegments_avl rootAvl_none h⟩
  | fromInsertedText h =>
    exact ⟨(textSegments_spec (rootWf_none .paged) h).1, textSegments_avl rootAvl_none h⟩
  | concat hl hr ihl ihr => exact ihl.concat ihr
  | concatCoalesced hl hr limit heap ihl ihr => exact (ihl.concatCoalesced ihr limit heap).1
  | splitLeft h hle ih => exact (ih.split hle).1
  | splitRight h hle ih => exact (ih.split hle).2
  | slice h range ih => exact ih.slice range
  | chargedText h =>
    exact ((chargedTextFrom_builds ⟨rootWf_none _, rootAvl_none⟩).result h).1
  | chargedSource hrange h =>
    rw [(chargedSource_builds _ _).result h]
    exact sound_source _ hrange
  | chargedOwned hrange h =>
    rw [(chargedOwned_builds _ _ _).result h]
    exact sound_owned _ _ hrange
  | chargedConcat hl hr h ihl ihr =>
    rw [(chargedConcat_builds ihl.avl ihr.avl).result h]
    exact ihl.concat ihr
  | chargedSplitLeft hroot hle h ih =>
    have hsame := congrArg Prod.fst ((chargedSplit_builds ih.avl ih.wf _ hle).result h)
    simp only at hsame
    rw [hsame]
    exact (ih.split hle).1
  | chargedSplitRight hroot hle h ih =>
    have hsame := congrArg Prod.snd ((chargedSplit_builds ih.avl ih.wf _ hle).result h)
    simp only at hsame
    rw [hsame]
    exact (ih.split hle).2
  | chargedReplace hroot hi hrange hle h ih ihi =>
    exact ((chargedReplace_builds ih ihi hrange hle).result h).1

/-- The nodes of a tree. -/
def Node.nodes : Node → List Node
  | .branch left right height summary =>
    .branch left right height summary :: (left.nodes ++ right.nodes)
  | node => [node]

/-- Every leaf below is owned text. -/
def Node.owned : Node → Bool
  | .leaf _ => true
  | .branch left right _ _ => left.owned && right.owned
  | _ => false

/-- Where nothing is on pages the tree is a resident one. -/
theorem Node.Wf.resident (h : n.Wf .paged) (howned : n.owned = true) : n.Wf .resident := by
  induction n with
  | leaf piece => exact h
  | source src range => cases howned
  | ownedSource src range original summary => cases howned
  | branch left right height summary ihl ihr =>
    obtain ⟨hl, hr⟩ := Bool.and_eq_true_iff.mp howned
    exact ⟨ihl h.1 hl, ihr h.2.1 hr, h.2.2⟩

end BareLine.Tree
