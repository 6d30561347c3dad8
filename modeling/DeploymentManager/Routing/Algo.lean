import Mathlib.Data.List.Sort
import Mathlib.Data.String.Basic
import Mathlib.Data.Nat.Log

namespace DeploymentManager.Routing

/-- Go compares strings bytewise, which on UTF-8 text is the order of their characters.
Deciding it on the character lists lets `decide` run `sort.Strings`. -/
instance (priority := high) decideStringLe : DecidableRel (α := String) (· ≤ ·) := fun a b =>
  decidable_of_iff (a.toList ≤ b.toList) String.le_iff_toList_le.symm

def sortStrings (xs : List String) : List String := xs.insertionSort (· ≤ ·)

structure Slice where
  start : Nat
  replicas : List String
deriving DecidableEq, Repr

/-- Modelled from the spec: the assignment of a routed component. Only the fields that
`routingAlgo` and `startComponent` set are kept. -/
structure Assignment where
  app : String
  deploymentId : String
  component : String
  version : Nat
  slices : List Slice
deriving DecidableEq, Repr

def minSliceKey : Nat := 0

def maxSliceKey : Nat := 2 ^ 64 - 1

def droppedBits (x : Nat) : Nat := Nat.log2 x + 1 - 53

/-- `float64(x)` for a `uint64` `x`: the nearest double, ties to even. That double is an
integer and is returned as one. -/
def toFloat64 (x : Nat) : Nat :=
  let p := 2 ^ droppedBits x
  if p < 2 * (x % p) ∨ (2 * (x % p) = p ∧ x / p % 2 = 1) then (x / p + 1) * p else x / p * p

/-- `curr[0] + uint64(math.Floor(0.5*float64(curr[1]-curr[0])))`. Halving a double is
exact, so the floor is the integer half of `float64(curr[1]-curr[0])`. -/
def midPoint (l r : Nat) : Nat := l + toFloat64 (r - l) / 2

def split (curr : Nat × Nat) : List (Nat × Nat) :=
  [(curr.1, midPoint curr.1 curr.2), (midPoint curr.1 curr.2, curr.2)]

def bisectStep : List (Nat × Nat) → List (Nat × Nat)
  | [] => []
  | curr :: splits => splits ++ split curr

def bisect : Nat → List (Nat × Nat) → List (Nat × Nat)
  | 0, splits => splits
  | k + 1, splits => bisect k (bisectStep splits)

/-- The bisection loop as written: a do-while whose test `len(splits) != numSlices` follows
each pass. The loop has no bound of its own; `fuel` caps the passes, and `none` is running
out of them. -/
def bisectLoop (numSlices : Nat) : Nat → List (Nat × Nat) → Option (List (Nat × Nat))
  | 0, _ => none
  | fuel + 1, splits =>
    let splits := bisectStep splits
    if splits.length ≠ numSlices then bisectLoop numSlices fuel splits else some splits

def sortSplits (splits : List (Nat × Nat)) : List (Nat × Nat) :=
  splits.insertionSort (fun a b => a.1 ≤ b.1)

/-- The longest `[]string` a Go process can grow: past `2^44` entries `growslice` would
need more than the runtime's `maxAlloc` of `2^48` bytes on 64-bit Linux. -/
def maxSliceLen : Nat := 2 ^ 44

/-- `math.Ceil(math.Log2(float64(x)))` as Go's float library computes it. Up to
`maxSliceLen` the conversion is exact and `math.Log2` errs by far less than the distance
of `log₂ x` from the next integer, so the ceiling is exact; above that it is left open. -/
structure Log2Ceil where
  ceil : Nat → Nat
  exact : ∀ x, 1 ≤ x → x ≤ maxSliceLen → ceil x = Nat.clog 2 x

def nextPowerOfTwo (lg : Log2Ceil) (x : Nat) : Nat :=
  if x &&& (x - 1) = 0 then x else 2 ^ lg.ceil x

def assignSlices (candidates : List String) : Nat → List (Nat × Nat) → List Slice
  | _, [] => []
  | rId, s :: splits =>
    ⟨s.1, [candidates.getD rId ""]⟩ ::
      assignSlices candidates ((rId + 1) % candidates.length) splits

/-- `routingAlgo`, returning with the new assignment the candidates as its in-place
`sort.Strings` leaves the caller's slice. It never returns an error. The do-while loop
stops once `len(splits) = numSlices`, after `numSlices - 1` passes since `numSlices ≥ 2`. -/
def routingAlgo (lg : Log2Ceil) (curr : Assignment) (candidates : List String) :
    Assignment × List String :=
  let next := { curr with version := curr.version + 1 }
  let candidates := sortStrings candidates
  if candidates.length = 0 then ({ next with slices := [] }, candidates)
  else if candidates.length = 1 then
    ({ next with slices := [⟨minSliceKey, candidates⟩] }, candidates)
  else
    let numSlices := nextPowerOfTwo lg candidates.length
    let splits := sortSplits (bisect (numSlices - 1) [(minSliceKey, maxSliceKey)])
    ({ next with slices := assignSlices candidates 0 splits }, candidates)

def Log2Ceil.exactCeil : Log2Ceil := ⟨Nat.clog 2, fun _ _ _ => rfl⟩

end DeploymentManager.Routing
