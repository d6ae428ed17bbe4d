import BareLine.Basic
import BareLine.GroupRecovery.Commit
import BareLine.GroupRecovery.Rules

/-!
# What a sound recovery root selects

- §1: sizes of JSON texts.
- §2: sound markers and pointers.
- §3: `committed_root` on a sound recovery root.
- §4: what `committed_root` has read.
-/

namespace BareLine.GroupRecovery

open Lib

/-! ## §1 Sizes of JSON texts -/

theorem bytes_length_le (text : List Char) : (Json.bytes text).length ≤ 4 * text.length := by
  induction text with
  | nil => exact Nat.le_refl 0
  | cons c text ih =>
    have hc : (String.utf8EncodeChar c).length ≤ 4 := by
      rw [String.length_utf8EncodeChar]
      exact c.utf8Size_le_four
    rw [Json.bytes, List.flatMap_cons, List.length_append, List.length_cons]
    rw [Json.bytes] at ih
    omega

theorem length_le_bytes (text : List Char) : text.length ≤ (Json.bytes text).length := by
  induction text with
  | nil => exact Nat.le_refl 0
  | cons c text ih =>
    have hc : 0 < (String.utf8EncodeChar c).length := by
      rw [String.length_utf8EncodeChar]
      exact c.utf8Size_pos
    rw [Json.bytes, List.flatMap_cons, List.length_append, List.length_cons]
    rw [Json.bytes] at ih
    omega

theorem bytes_replicate (n : Nat) (c : Char) :
    (Json.bytes (List.replicate n c)).length = n * c.utf8Size := by
  induction n with
  | zero => rw [Nat.zero_mul, List.replicate_zero, Json.bytes, List.flatMap_nil, List.length_nil]
  | succ n ih =>
    rw [Json.bytes] at ih ⊢
    rw [List.replicate_succ, List.flatMap_cons, List.length_append, ih,
      String.length_utf8EncodeChar, Nat.succ_mul, Nat.add_comm]

theorem length_le_sequence {item : List Char} {items : List (List Char)} (h : item ∈ items) :
    item.length ≤ (Json.sequence items).length := by
  induction items with
  | nil => exact nomatch h
  | cons x items ih =>
    cases items with
    | nil =>
      have hone : Json.sequence [x] = x := by
        rw [Json.sequence, List.intersperse_singleton, List.flatten_singleton]
      exact Nat.le_of_eq (by rw [hone, List.mem_singleton.mp h])
    | cons y items =>
      rw [Json.sequence] at ih ⊢
      rw [List.intersperse_cons_cons, List.flatten_cons, List.flatten_cons, List.length_append,
        List.length_append]
      rcases List.mem_cons.mp h with rfl | h
      · omega
      · have := ih h
        omega

theorem length_le_object {name value : List Char} {fields : List (List Char × List Char)}
    (h : (name, value) ∈ fields) : value.length ≤ (Json.object fields).length := by
  have hitem : Json.string name ++ ':' :: value ∈
      fields.map fun field => Json.string field.1 ++ ':' :: field.2 := List.mem_map.mpr ⟨_, h, rfl⟩
  have hlength := length_le_sequence hitem
  rw [List.length_append, List.length_cons] at hlength
  rw [Json.object, List.length_cons, List.length_append]
  omega

theorem length_le_string (text : List Char) : text.length + 2 ≤ (Json.string text).length := by
  have hescape : ∀ c, 0 < (Json.escape c).length := by
    intro c
    unfold Json.escape
    repeat' split
    all_goals exact Nat.succ_pos _
  have htext : text.length ≤ (text.flatMap Json.escape).length := by
    induction text with
    | nil => exact Nat.le_refl 0
    | cons c text ih =>
      have hc := hescape c
      rw [List.flatMap_cons, List.length_append, List.length_cons]
      omega
  rw [Json.string, List.length_cons, List.length_append, List.length_singleton]
  omega

/-- A receipt is longer than any value of its metadata. -/
theorem metadata_le_receipt {receipt : RootReceipt} {key value : List Char}
    (h : (key, value) ∈ receipt.metadata.values) :
    value.length + 2 ≤ (Json.bytes receipt.json).length := by
  have hvalue := length_le_string value
  have hmetadata : (Json.string value).length ≤ receipt.metadata.json.length :=
    length_le_object (List.mem_map.mpr ⟨(key, value), h, rfl⟩)
  have hreceipt : receipt.metadata.json.length ≤ receipt.json.length := by
    apply length_le_object
    apply List.mem_append_left
    exact .tail _ (.tail _ (.tail _ (.tail _ (.head _))))
  have hbytes := length_le_bytes receipt.json
  omega

/-- A pointer carries at most one more, so it stays small. -/
theorem pointer_small {pointer : Pointer} (h : ∀ q ∈ pointer.previous, q.previous = none) :
    (Json.bytes pointer.json).length ≤ SMALL := by
  have hlast : ∀ v i r, (Pointer.json ⟨v, i, r, none⟩).length ≤ 200 := by
    intro v i r
    have hv := decimal_length v
    have hi := decimal_length i
    have hr := decimal_length r
    simp [Pointer.json, Json.object, Json.field, Json.string, Json.sequence, Json.escape, Json.null]
    omega
  have hall : pointer.json.length ≤ 400 := by
    obtain ⟨v, i, r, previous⟩ := pointer
    cases previous with
    | none => exact Nat.le_trans (hlast v i r) (by omega)
    | some q =>
      obtain ⟨v', i', r', previous⟩ := q
      cases h _ rfl
      have hq := hlast v' i' r'
      have hv := decimal_length v
      have hi := decimal_length i
      have hr := decimal_length r
      rw [Pointer.json]
      simp [Json.object, Json.field, Json.string, Json.sequence, Json.escape]
      omega
  have hbytes := bytes_length_le pointer.json
  rw [SMALL]
  omega

/-! ## §2 Sound markers and pointers -/

section Sound

variable (sha256 : Bytes → Digest)

/-- A member as its marker says: the receipt and everything the receipt names. -/
structure MemberSound (w : World) (d : Directory) (id : Nat) (member : Member)
    (receipt : RootReceipt) : Prop where
  directory : member.directory = d.name.text
  intent : (w.folder d).intent id = some receipt
  small : (Json.bytes receipt.json).length ≤ SMALL
  hash : sha256 (Json.bytes receipt.json) = member.receiptHash
  revision : receipt.revision = member.revision
  version : receipt.version = 2
  base : receipt.base = none
  file : receipt.file = .root receipt.revision
  recipe : ∃ content, (w.folder d).asset (.root receipt.revision) = some content ∧
    sha256 content = receipt.sha256
  owned : ∀ owned ∈ receipt.owned, owned.name = .owned receipt.revision ∧
    ∃ content, (w.folder d).asset (.owned receipt.revision) = some content ∧
      content.length = owned.len ∧ sha256 content = owned.sha256

/-- A marker all of whose members can be restored. -/
structure MarkerSound (w : World) (parent : String) (id : Nat) (marker : Marker) : Prop where
  version : marker.version = 1
  named : marker.id = id
  small : (Json.bytes marker.json).length ≤ SMALL
  two_le : 2 ≤ marker.members.length
  le_hundred : marker.members.length ≤ 100
  distinct : (marker.members.map Member.directory).Nodup
  members : ∀ member ∈ marker.members, ∃ d receipt, d.parent = parent ∧
    MemberSound sha256 w d id member receipt

/-- The marker of a pointer's group lists the directory at the pointer's revision. -/
def Listed (w : World) (d : Directory) (pointer : Pointer) : Prop :=
  ∃ marker, w.marker d.parent pointer.id = some marker ∧
    ∃ member ∈ marker.members, member.directory = d.name.text ∧
      member.revision = pointer.revision

/-- A pointer to a committed group, or one that carries the committed group before it. -/
structure PointerSound (w : World) (d : Directory) (pointer : Pointer) : Prop where
  version : pointer.version = 1
  depth : ∀ previous ∈ pointer.previous, previous.previous = none
  own : (w.marker d.parent pointer.id).isSome = true → Listed w d pointer
  carried : w.marker d.parent pointer.id = none → ∀ previous ∈ pointer.previous,
    Listed w d previous

/-- A published marker names a revision of a directory. -/
def Named (w : World) (d : Directory) (revision : Nat) : Prop :=
  ∃ id marker, w.marker d.parent id = some marker ∧
    ∃ member ∈ marker.members, member.directory = d.name.text ∧ member.revision = revision

/-- A recovery root as group commits leave it. -/
structure Sound (w : World) : Prop where
  markers : ∀ parent id marker, w.marker parent id = some marker →
    MarkerSound sha256 w parent id marker
  pointers : ∀ d, ∀ pointer ∈ (w.folder d).pointer, PointerSound w d pointer
  journals : ∀ d, JournalSafe (Named w d) (w.journal d)

end Sound

/-- The root a directory's pointer selects. -/
def selected (w : World) (d : Directory) : Option RootReceipt :=
  (w.folder d).pointer.bind fun pointer =>
    if (w.marker d.parent pointer.id).isSome then (w.folder d).intent pointer.id
    else pointer.previous.bind fun previous => (w.folder d).intent previous.id

/-! ## §3 `committed_root` on a sound recovery root -/

section Select

variable {sha256 : Bytes → Digest} {w : World} {d : Directory} {id : Nat} {member : Member}
  {receipt : RootReceipt}

theorem verifyAsset_ok {name : AssetName} {length : Option Nat} {expected : Digest}
    {content : Bytes} (hcontent : (w.folder d).asset name = some content)
    (hlength : ∀ size ∈ length, content.length = size) (hhash : sha256 content = expected) :
    verifyAsset sha256 w d name length expected = .ok () := by
  have hsize : ¬∃ size ∈ length, content.length ≠ size :=
    fun ⟨size, hsize, hne⟩ => hne (hlength size hsize)
  unfold verifyAsset
  rw [hcontent]
  simp only [hsize, hhash, ite_false, ne_eq, not_true_eq_false]

theorem verifyMember_ok (h : MemberSound sha256 w d id member receipt) :
    verifyMember sha256 w d id member = .ok receipt := by
  have hroot : verifyAsset sha256 w d receipt.file none receipt.sha256 = .ok () := by
    obtain ⟨content, hcontent, hhash⟩ := h.recipe
    exact verifyAsset_ok (by rw [h.file]; exact hcontent) nofun hhash
  have howned : verifyOwned sha256 w d receipt = .ok () := by
    unfold verifyOwned
    split
    · rfl
    · rename_i owned howned
      obtain ⟨hname, content, hcontent, hlength, hhash⟩ := h.owned owned howned
      rw [if_neg (fun hne => hne hname), hname]
      refine verifyAsset_ok hcontent ?_ hhash
      rintro _ ⟨⟩
      exact hlength
  unfold verifyMember
  simp only [h.intent]
  rw [if_neg (Nat.not_lt.mpr h.small), if_neg (fun hne => hne h.hash),
    if_neg (fun hne => hne h.revision), if_neg, hroot, howned]
  · rfl
  · rintro (hversion | hbase | hfile)
    · exact hversion (.inr h.version)
    · rw [h.base] at hbase
      exact nomatch hbase
    · exact hfile h.file

/-- A directory is known by its parent and the text of its name. -/
theorem directory_ext {d d' : Directory} (hparent : d.parent = d'.parent)
    (hname : d.name.text = d'.name.text) : d = d' := by
  obtain ⟨parent, name, valid⟩ := d
  obtain ⟨parent', name', valid'⟩ := d'
  cases hparent
  cases hname
  rfl

/-- The loop over sound members ends with the receipt of the document's own directory. -/
theorem selectMember_ok {pointer : Pointer} {members : List Member} {names : List (List Char)}
    {before : Option RootReceipt}
    (hmembers : ∀ member ∈ members, ∃ d' receipt, d'.parent = d.parent ∧
      MemberSound sha256 w d' pointer.id member receipt)
    (hdistinct : (members.map Member.directory).Nodup)
    (hnames : ∀ member ∈ members, member.directory ∉ names)
    (hrevision : ∀ member ∈ members, member.directory = d.name.text →
      member.revision = pointer.revision) :
    selectMember sha256 w d pointer names before members =
      .ok (if d.name.text ∈ members.map Member.directory then (w.folder d).intent pointer.id
        else before) := by
  induction members generalizing names before with
  | nil => rfl
  | cons member members ih =>
    obtain ⟨d', receipt, hparent, hsound⟩ := hmembers member (List.mem_cons_self ..)
    have hvalid : validMember member.directory = true := by
      rw [hsound.directory]
      exact d'.name.valid
    have hd' : (⟨d.parent, ⟨member.directory, hvalid⟩⟩ : Directory) = d' :=
      directory_ext hparent.symm hsound.directory
    rw [List.map_cons, List.nodup_cons] at hdistinct
    have ih (before : Option RootReceipt) := @ih (member.directory :: names) before
      (fun m hm => hmembers m (List.mem_cons_of_mem _ hm)) hdistinct.2
      (fun m hm hin => by
        rcases List.mem_cons.mp hin with heq | hin
        · exact hdistinct.1 (heq ▸ List.mem_map_of_mem hm)
        · exact hnames m (List.mem_cons_of_mem _ hm) hin)
      (fun m hm => hrevision m (List.mem_cons_of_mem _ hm))
    unfold selectMember
    rw [dif_pos hvalid, if_neg (hnames member (List.mem_cons_self ..))]
    simp only [hd', verifyMember_ok hsound]
    show (if d' = d then _ else _) = _
    by_cases hd : d' = d
    · subst hd
      have hrevision := hrevision member (List.mem_cons_self ..) hsound.directory
      rw [if_pos rfl, if_neg (fun hne => hne (hsound.revision.trans hrevision)), ih]
      have hin : d'.name.text ∈ List.map Member.directory (member :: members) := by
        rw [← hsound.directory]
        exact List.mem_cons_self ..
      rw [if_pos hin, hsound.intent, ite_self]
    · have hne : d.name.text ≠ member.directory := by
        intro heq
        exact hd (directory_ext hparent (heq.trans hsound.directory).symm)
      rw [if_neg hd, ih]
      simp only [List.map_cons, List.mem_cons, hne, false_or]

/-- The root a marker lists for a directory. -/
theorem markedRoot_ok {pointer : Pointer} {marker : Marker}
    (hmarker : MarkerSound sha256 w d.parent pointer.id marker)
    (hlisted : ∃ member ∈ marker.members, member.directory = d.name.text ∧
      member.revision = pointer.revision) :
    markedRoot sha256 w d pointer marker = .ok ((w.folder d).intent pointer.id) := by
  obtain ⟨own, hown, hname, hrevision⟩ := hlisted
  have hsame : ∀ member ∈ marker.members, member.directory = d.name.text → member = own :=
    fun member hmember heq =>
      List.inj_on_of_nodup_map hmarker.distinct hmember hown (heq.trans hname.symm)
  have hselect := @selectMember_ok sha256 w d pointer marker.members [] none hmarker.members
    hmarker.distinct (fun _ _ => List.not_mem_nil) (fun member hmember heq => by
      rw [hsame member hmember heq]
      exact hrevision)
  have hin : d.name.text ∈ marker.members.map Member.directory :=
    hname ▸ List.mem_map_of_mem hown
  obtain ⟨d', receipt, hparent, hsound⟩ := hmarker.members own hown
  have hd' : d' = d := directory_ext hparent (hsound.directory.symm.trans hname)
  subst hd'
  rw [if_pos hin, hsound.intent] at hselect
  unfold markedRoot
  rw [if_neg (Nat.not_lt.mpr hmarker.small), if_neg, hselect, hsound.intent]
  · rfl
  · rintro (hversion | hid | htwo | hhundred)
    · exact hversion hmarker.version
    · exact hid hmarker.named
    · exact absurd hmarker.two_le (Nat.not_le.mpr htwo)
    · exact absurd hmarker.le_hundred (Nat.not_le.mpr hhundred)

/-- On a sound recovery root `committed_root` succeeds with the selected root. -/
theorem committedRoot_eq (h : Sound sha256 w) (d : Directory) :
    committedRoot sha256 w d = .ok (selected w d) := by
  unfold committedRoot selected
  cases hpointer : (w.folder d).pointer with
  | none => rfl
  | some pointer =>
    have hsound := h.pointers d pointer hpointer
    show (if _ then _ else _) = Except.ok (if _ then _ else _)
    rw [if_neg (Nat.not_lt.mpr (pointer_small hsound.depth)),
      if_neg (fun hne => hne hsound.version)]
    cases hmarker : w.marker d.parent pointer.id with
    | some marker =>
      obtain ⟨marker', hmarker', hlisted⟩ := hsound.own (by rw [hmarker]; rfl)
      cases hmarker.symm.trans hmarker'
      have hcommitted : committedPointer w d pointer = .ok (some pointer) := by
        unfold committedPointer
        rw [hmarker]
        rfl
      rw [hcommitted]
      simp only [bind, Except.bind, hmarker]
      exact markedRoot_ok (h.markers _ _ _ hmarker) hlisted
    | none =>
      cases hprevious : pointer.previous with
      | none =>
        have hcommitted : committedPointer w d pointer = .ok none := by
          unfold committedPointer
          rw [hmarker, hprevious]
          rfl
        rw [hcommitted]
        rfl
      | some previous =>
        obtain ⟨marker, hmarker', hlisted⟩ := hsound.carried hmarker previous hprevious
        have hcommitted : committedPointer w d pointer = .ok (some previous) := by
          unfold committedPointer
          rw [hmarker, hprevious]
          simp only [hsound.depth previous hprevious, hmarker']
          rfl
        rw [hcommitted]
        simp only [bind, Except.bind, hmarker']
        exact markedRoot_ok (h.markers _ _ _ hmarker') hlisted

/-! ## §4 What `committed_root` has read -/

/-- A verified member has a receipt that is small enough to read. -/
theorem verifyMember_small (h : verifyMember sha256 w d id member = .ok receipt) :
    (w.folder d).intent id = some receipt ∧ (Json.bytes receipt.json).length ≤ SMALL := by
  unfold verifyMember at h
  cases hintent : (w.folder d).intent id with
  | none =>
    rw [hintent] at h
    exact nomatch h
  | some found =>
    simp only [hintent] at h
    split at h
    · exact nomatch h
    · rename_i hsmall
      split at h
      · exact nomatch h
      split at h
      · exact nomatch h
      split at h
      · exact nomatch h
      obtain ⟨_, -, h⟩ := bind_ok.mp h
      obtain ⟨_, -, h⟩ := bind_ok.mp h
      cases h
      exact ⟨rfl, Nat.not_lt.mp hsmall⟩

/-- The loop over members has read every receipt. -/
theorem selectMember_small {pointer : Pointer} {members : List Member} {names : List (List Char)}
    {before result : Option RootReceipt}
    (h : selectMember sha256 w d pointer names before members = .ok result)
    {member : Member} (hmember : member ∈ members) {d' : Directory}
    (hparent : d'.parent = d.parent) (hname : d'.name.text = member.directory) :
    ∃ receipt, (w.folder d').intent pointer.id = some receipt ∧
      (Json.bytes receipt.json).length ≤ SMALL := by
  induction members generalizing names before with
  | nil => exact nomatch hmember
  | cons first members ih =>
    unfold selectMember at h
    split at h
    · rename_i hvalid
      split at h
      · exact nomatch h
      obtain ⟨receipt, hverify, h⟩ := bind_ok.mp h
      rcases List.mem_cons.mp hmember with rfl | hmember
      · have hd' : (⟨d.parent, ⟨member.directory, hvalid⟩⟩ : Directory) = d' :=
          directory_ext hparent.symm hname.symm
        rw [hd'] at hverify
        exact ⟨receipt, verifyMember_small hverify⟩
      · split at h
        · split at h
          · exact nomatch h
          · exact ih h hmember
        · exact ih h hmember
    · exact nomatch h

/-- `committed_root` of a published pointer has read the receipts of all members. -/
theorem committedRoot_small {pointer : Pointer} {marker : Marker} {result : Option RootReceipt}
    (hpointer : (w.folder d).pointer = some pointer)
    (hmarker : w.marker d.parent pointer.id = some marker)
    (h : committedRoot sha256 w d = .ok result) (hmember : member ∈ marker.members)
    {d' : Directory} (hparent : d'.parent = d.parent) (hname : d'.name.text = member.directory) :
    ∃ receipt, (w.folder d').intent pointer.id = some receipt ∧
      (Json.bytes receipt.json).length ≤ SMALL := by
  have hcommitted : committedPointer w d pointer = .ok (some pointer) := by
    unfold committedPointer
    rw [hmarker]
    rfl
  unfold committedRoot at h
  simp only [hpointer] at h
  split at h
  · cases h
  split at h
  · cases h
  rw [hcommitted] at h
  simp only [bind, Except.bind, hmarker] at h
  unfold markedRoot at h
  split at h
  · cases h
  split at h
  · cases h
  obtain ⟨selected, hselect, -⟩ := bind_ok.mp h
  exact selectMember_small hselect hmember hparent hname

end Select

end BareLine.GroupRecovery
