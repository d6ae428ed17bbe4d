import BareLine.Diff.Work

/-!
# Myers alignment

The alignment of two slices of lines.  The search keeps the furthest point of each diagonal in
one vector, shifted so that the lowest diagonal has a place, and a copy of the vector for each
round.  The way back reads the copies.
-/

namespace BareLine.Diff

open Lib Lib.Checked

/-! ## §1 Lines -/

/-- `Line` -/
structure Line where
  range : Range
  text : Bytes
  hint : Nat
  deriving DecidableEq, Repr

/-- `size_of::<usize>()` -/
def sizeOfUsize : Nat := 8

/-- `size_of::<Line>()`: two offsets, the three words of a string, and the hint. -/
def sizeOfLine : Nat := 6 * sizeOfUsize

/-- A slice of lines, which is no longer than memory. -/
structure Lines where
  lines : List Line
  fits : lines.length * sizeOfLine ≤ isizeMax

def Lines.len (a : Lines) : Nat := a.lines.length

/-- What the alignment compares. -/
def Lines.keys (a : Lines) : List Bytes := a.lines.map Line.text

@[simp] theorem Lines.keys_length (a : Lines) : a.keys.length = a.len := List.length_map ..

/-! ## §2 The search -/

section Model

variable (env : Surroundings)

/-- `while x < a.len() && y < b.len() && a[x].text == b[y].text`, on the lines from `x` and from
`y` on. -/
def follow : List Line → List Line → Nat → Nat → Working (Nat × Nat)
  | p :: ps, q :: qs, x, y =>
    if p.text = q.text then do
      Work.check env
      let x ← require (checkedAdd x 1)
      let y ← require (checkedAdd y 1)
      follow ps qs x y
    else pure (x, y)
  | _, _, x, y => pure (x, y)

/-- `(offset as isize + k) as usize` -/
def indexOf (offset : Nat) (k : Int) : Working Nat := do
  let i ← require (isizeOf (asIsize offset + k))
  return asUsize i

/-- `k == -(d as isize) || (k != d as isize && v[idx - 1] < v[idx + 1])` -/
def comesDown (v : List Nat) (d : Nat) (k : Int) (idx : Nat) : Working Bool := do
  let low ← require (isizeOf (-asIsize d))
  if k = low then return true
  if k = asIsize d then return false
  let before ← require (checkedSub idx 1)
  let before ← require v[before]?
  let after ← require (checkedAdd idx 1)
  let after ← require v[after]?
  return decide (before < after)

/-- Where the round enters the diagonal. -/
def enter (v : List Nat) (d : Nat) (k : Int) (idx : Nat) : Working Nat := do
  if ← comesDown v d k idx then
    let after ← require (checkedAdd idx 1)
    require v[after]?
  else
    let before ← require (checkedSub idx 1)
    let x ← require v[before]?
    require (checkedAdd x 1)

/-- `for k in (-(d as isize)..=d as isize).step_by(2)`; whether the search breaks off. -/
def sweep (a b : Lines) (offset d : Nat) : List Int → List Nat → Working (Bool × List Nat)
  | [], v => return (false, v)
  | k :: ks, v => do
    Work.check env
    let idx ← indexOf offset k
    let x ← enter v d k idx
    let y ← require (isizeOf (asIsize x - k))
    let y := asUsize y
    let (x, y) ← follow env (a.lines.drop x) (b.lines.drop y) x y
    let v ← require (setAt v idx x)
    if a.len ≤ x ∧ b.len ≤ y then return (true, v)
    sweep a b offset d ks v

/-- `(low..=high).step_by(2)` -/
def stepByTwo (low high : Int) : List Int :=
  (List.range ((high - low + 2) / 2).toNat).map fun i : Nat => low + 2 * i

/-- `'search: for d in 0..=max`, with the rounds that are left. -/
def rounds (a b : Lines) (offset rowBytes : Nat) :
    List Nat → List Nat → List (List Nat) → Working (Nat × List (List Nat))
  | [], _, trace => return (0, trace)
  | d :: ds, v, trace => do
    Work.check env
    let row ← require (checkedAdd rowBytes 64)
    Work.reserve env row
    let trace := trace ++ [v]
    let low ← require (isizeOf (-asIsize d))
    let (found, v) ← sweep env a b offset d (stepByTwo low (asIsize d)) v
    if found then return (d, trace)
    rounds a b offset rowBytes ds v trace

/-! ## §3 The way back -/

/-- `while x > px && y > py` -/
def retreat (px py : Nat) : Nat → Nat → List (Nat × Nat) → List (Nat × Nat)
  | x + 1, y + 1, pairs =>
    if px < x + 1 ∧ py < y + 1 then retreat px py x y (pairs ++ [(x, y)]) else pairs
  | _, _, pairs => pairs

/-- `for d in (0..=final_d).rev()` -/
def backtrack (trace : List (List Nat)) (offset : Nat) :
    Nat → Nat → Nat → List (Nat × Nat) → Working (List (Nat × Nat))
  | 0, x, y, pairs => do
    Work.check env
    return retreat 0 0 x y pairs
  | d + 1, x, y, pairs => do
    Work.check env
    let v ← require (trace)[d + 1]?
    let k ← require (isizeOf (asIsize x - asIsize y))
    let idx ← indexOf offset k
    let down ← comesDown v (d + 1) k idx
    let pk ← require (isizeOf (if down then k + 1 else k - 1))
    let from' ← indexOf offset pk
    let px ← require v[from']?
    let py ← require (isizeOf (asIsize px - pk))
    let py := asUsize py
    backtrack trace offset d px py (retreat px py x y pairs)

/-- `myers` -/
def myers (a b : Lines) : Working (List (Nat × Nat)) := do
  let max ← require (checkedAdd a.len b.len)
  let width ← require (checkedMul 2 max)
  let width ← require (checkedAdd width 3)
  let offset ← require (checkedAdd max 1)
  let rowBytes := saturatingMul width sizeOfUsize
  Work.reserve env rowBytes
  let v := List.replicate width 0
  let (finalD, trace) ← rounds env a b offset rowBytes (List.range (max + 1)) v []
  let pairs ← backtrack env trace offset finalD a.len b.len []
  return pairs.reverse

end Model

end BareLine.Diff
