import BareLine.SaveTransaction.Types

/-!
# Records of a save transaction

- §1: the manifest.
- §2: reading and writing below the folder.
- §3: state records.
-/

namespace BareLine.SaveTransaction

open Lib

/-! ## §1 The manifest -/

/-- `MANIFEST_MAGIC` -/
def MANIFEST_MAGIC : Bytes :=
  "bareline-save-manifest-posix-v1".toList.map (fun c => UInt8.ofNat c.toNat) ++ [0]

/-- `MANIFEST_LIMIT` -/
def MANIFEST_LIMIT : Nat := 128 * 1024

/-- The bytes of a number, least first. -/
def leBytes : Nat → Nat → Bytes
  | 0, _ => []
  | width + 1, n => UInt8.ofNat (n % 256) :: leBytes width (n / 256)

def leNumber : Bytes → Nat
  | [] => 0
  | byte :: bytes => byte.toNat + 256 * leNumber bytes

theorem leBytes_length (width n : Nat) : (leBytes width n).length = width := by
  induction width generalizing n with
  | zero => rfl
  | succ width ih => rw [leBytes, List.length_cons, ih]

/-- A number that fits reads back. -/
theorem leNumber_leBytes (width n : Nat) (h : n < 256 ^ width) :
    leNumber (leBytes width n) = n := by
  induction width generalizing n with
  | zero => exact (Nat.lt_one_iff.mp h).symm
  | succ width ih =>
    have hdiv : n / 256 < 256 ^ width := by
      apply Nat.div_lt_of_lt_mul
      rwa [Nat.pow_succ, Nat.mul_comm] at h
    rw [leBytes, leNumber, ih _ hdiv]
    have hbyte : (UInt8.ofNat (n % 256)).toNat = n % 256 := by
      rw [UInt8.toNat_ofNat']
      omega
    rw [hbyte]
    omega

/-- A save target: its path has at most `u32::MAX` bytes. -/
structure Manifest where
  target : Bytes
  mode : CommitMode
  deriving DecidableEq

def CommitMode.byte : CommitMode → UInt8
  | .createNew => 0
  | .replace => 1

/-- The generation of a transaction, a `u128`. -/
abbrev Generation := Fin (2 ^ 128)

instance neZero_generations : NeZero (2 ^ 128) := ⟨by decide⟩

/-- `manifest_bytes` -/
def manifestBytes (generation : Generation) (manifest : Manifest) : Except Errno Bytes :=
  if 2 ^ 32 ≤ manifest.target.length then .error .invalidData
  else .ok (MANIFEST_MAGIC ++ (leBytes 16 generation.val ++ (manifest.mode.byte ::
    (leBytes 4 manifest.target.length ++ manifest.target))))

/-- `parse_manifest` -/
def parseManifest (bytes : Bytes) (expected : Generation) : Except Errno Manifest :=
  let header := MANIFEST_MAGIC.length
  let body := bytes.drop header
  if bytes.length < header + 21 ∨ bytes.take header ≠ MANIFEST_MAGIC then .error .invalidData
  else if leNumber (body.take 16) ≠ expected.val then .error .invalidData
  else
    let rest := body.drop 16
    match rest.head? with
    | some 0 => parsePath .createNew (rest.drop 1)
    | some 1 => parsePath .replace (rest.drop 1)
    | _ => .error .invalidData
where
  /-- The length of the path, and the path. -/
  parsePath (mode : CommitMode) (bytes : Bytes) : Except Errno Manifest :=
    if leNumber (bytes.take 4) ≠ (bytes.drop 4).length then .error .invalidData
    else .ok ⟨bytes.drop 4, mode⟩

/-- The first bytes of a record, up to a part of its last field. -/
theorem take_fields {a b c d : Bytes} {x : UInt8} (hb : b.length = 16) (hc : c.length = 4)
    (j : Nat) :
    (a ++ (b ++ (x :: (c ++ d)))).take (a.length + (16 + (1 + (4 + j)))) =
      a ++ (b ++ (x :: (c ++ d.take j))) := by
  rw [List.take_length_add_append, ← hb, List.take_length_add_append, Nat.add_comm 1,
    List.take_succ_cons, ← hc, List.take_length_add_append]

/-- A path of `length` bytes at the end of its record, of which a part is there. -/
theorem parsePath_part (mode : CommitMode) (target : Bytes) (k : Nat)
    (hlength : target.length < 2 ^ 32) :
    parseManifest.parsePath mode (leBytes 4 target.length ++ target.take k) =
      if target.length ≤ k then .ok ⟨target, mode⟩ else .error .invalidData := by
  have hwidth := leBytes_length 4 target.length
  have htake : (leBytes 4 target.length ++ target.take k).take 4 = leBytes 4 target.length :=
    List.take_left' hwidth
  have hdrop : (leBytes 4 target.length ++ target.take k).drop 4 = target.take k :=
    List.drop_left' hwidth
  have hnumber : leNumber (leBytes 4 target.length) = target.length :=
    leNumber_leBytes 4 _ (Nat.lt_of_lt_of_eq hlength (by decide))
  rw [parseManifest.parsePath, htake, hdrop, hnumber, List.length_take]
  by_cases h : target.length ≤ k
  · rw [if_neg (by omega), if_pos h, List.take_of_length_le h]
  · rw [if_pos (by omega), if_neg h]

/-- What was written of a manifest parses exactly when all of it was. -/
theorem parseManifest_take {generation : Generation} {manifest : Manifest} {bytes : Bytes}
    (h : manifestBytes generation manifest = .ok bytes) (k : Nat) :
    parseManifest (bytes.take k) generation =
      if bytes.length ≤ k then .ok manifest else .error .invalidData := by
  obtain ⟨target, mode⟩ := manifest
  have hlength : target.length < 2 ^ 32 := by
    by_contra hlong
    rw [manifestBytes, if_pos (by simpa using hlong)] at h
    cases h
  rw [manifestBytes, if_neg (by simpa using hlength)] at h
  cases h
  have hgeneration := leBytes_length 16 generation.val
  have hwidth := leBytes_length 4 target.length
  have hall (mode : CommitMode) : (MANIFEST_MAGIC ++ (leBytes 16 generation.val ++ (mode.byte ::
      (leBytes 4 target.length ++ target)))).length =
      MANIFEST_MAGIC.length + 21 + target.length := by
    simp only [List.length_append, List.length_cons, hgeneration, hwidth]
    omega
  by_cases hshort : k < MANIFEST_MAGIC.length + 21
  · rw [if_neg (by rw [hall]; omega), parseManifest, if_pos]
    exact Or.inl (by rw [List.length_take]; omega)
  · -- The header is there, and a part of the path.
    obtain ⟨j, rfl⟩ : ∃ j, k = MANIFEST_MAGIC.length + (16 + (1 + (4 + j))) :=
      ⟨k - (MANIFEST_MAGIC.length + 21), by omega⟩
    have htaken := take_fields (a := MANIFEST_MAGIC) (x := mode.byte) (d := target)
      hgeneration hwidth j
    have hnumber : leNumber (leBytes 16 generation.val) = generation.val :=
      leNumber_leBytes 16 _ (Nat.lt_of_lt_of_eq generation.isLt (by decide))
    rw [htaken, parseManifest, List.drop_left, List.take_left,
      if_neg (by simp only [List.length_append, List.length_cons, hgeneration, hwidth]; simp; omega),
      List.take_left' hgeneration, hnumber, if_neg (by simp), List.drop_left' hgeneration]
    have hpath := parsePath_part mode target j hlength
    have hiff : (MANIFEST_MAGIC ++ (leBytes 16 generation.val ++ (mode.byte ::
        (leBytes 4 target.length ++ target)))).length ≤
          MANIFEST_MAGIC.length + (16 + (1 + (4 + j))) ↔ target.length ≤ j := by
      rw [hall]
      omega
    simp only [hiff]
    cases mode with
    | createNew => exact hpath
    | replace => exact hpath

/-- A manifest reads back. -/
theorem parseManifest_manifestBytes {generation : Generation} {manifest : Manifest}
    {bytes : Bytes} (h : manifestBytes generation manifest = .ok bytes) :
    parseManifest bytes generation = .ok manifest := by
  have := parseManifest_take h bytes.length
  rwa [List.take_length, if_pos (Nat.le_refl _)] at this

/-! ## §2 Reading and writing below the folder -/

/-- `open_regular` -/
def openRegular (name : Name) : Task Node := do
  let node ← use (.openAny name)
  let kind ← use (.kind node)
  refuseIf (kind ≠ .regular) .denied
  return node

/-- `read_bounded` -/
def readBounded (node : Node) (limit : Nat) : Task Bytes := do
  let bytes ← use (.read node)
  refuseIf (limit < bytes.length) .invalidData
  return bytes

def readRegular (name : Name) (limit : Nat) : Task Bytes := do
  let node ← openRegular name
  readBounded node limit

def ofExcept {α : Type} (result : Except Errno α) : Task α := ExceptT.mk (pure result)

/-- `read_manifest` -/
def readManifest (entry : Entry) (generation : Generation) : Task Manifest := do
  let bytes ← readRegular (.entry entry) MANIFEST_LIMIT
  ofExcept (parseManifest bytes generation)

/-- `write_record` -/
def writeRecord (entry : Entry) (bytes : Bytes) : Task Unit := do
  let node ← use (.create (.entry entry))
  use (.write node bytes)
  use .sync

/-- `unlink_present` -/
def unlinkPresent (entry : Entry) : Task Unit := do
  match ← resultOf (use (.unlink (.entry entry))) with
  | .ok () | .error .notFound => pure ()
  | .error error => throw error

/-- `remove_verified`: only while the name still holds the recorded object. -/
def removeVerified (entry : Entry) (node : Node) : Task Unit := do
  match ← resultOf (use (.stat (.entry entry))) with
  | .ok found => if found = node then use (.unlink (.entry entry)) else throw .denied
  | .error .notFound => pure ()
  | .error error => throw error

/-! ## §3 State records -/

/-- The bytes of an ASCII text. -/
def ascii (text : String) : Bytes := text.toList.map fun c => UInt8.ofNat c.toNat

/-- What the record of a state holds. -/
def stateRecord : CommitState → Bytes
  | .precommit => ascii "bareline-save-v1\nprecommit\n"
  | .created => ascii "bareline-save-v1\ncreated\n"
  | .replaced => ascii "bareline-save-v1\ncommitted-unacknowledged\n"
  | .conflict => ascii "bareline-save-v1\nconflict\n"
  | .cleanupPending => ascii "bareline-save-v1\ncleanup-pending\n"
  | .unverified => []

/-- The record of a state that was published before: it must be the same. -/
def confirmRecord (state : CommitState) : Task Unit := do
  let node ← use (.openAny (.entry (.state state)))
  let bytes ← readBounded node 128
  refuseIf (bytes ≠ stateRecord state) .invalidData

/-- `publish_commit_state` -/
def publishCommitState (state : CommitState) : Task Unit := do
  refuseIf (state = .unverified) .io
  match ← resultOf (use (.create (.entry (.state state)))) with
  | .ok node => do
    use (.write node (stateRecord state))
    use .sync
  | .error .alreadyExists => confirmRecord state
  | .error error => throw error

/-- The states in the order in which their records win. -/
def recordOrder : List CommitState :=
  [.cleanupPending, .conflict, .replaced, .created, .precommit]

/-- The loop of `state_from_records`; `invalid` is `saw_invalid`. -/
def stateFrom : List CommitState → Bool → Task CommitState
  | [], _ => pure .unverified
  | state :: states, invalid => do
    match ← resultOf (readRegular (.entry (.state state)) 128) with
    | .ok bytes =>
      if bytes = stateRecord state then return if invalid then .unverified else state
      else stateFrom states true
    | .error .notFound => stateFrom states invalid
    | .error _ => stateFrom states true

/-- `state_from_records` -/
def stateFromRecords : Task CommitState := stateFrom recordOrder false

end BareLine.SaveTransaction
