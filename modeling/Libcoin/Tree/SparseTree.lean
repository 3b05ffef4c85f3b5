/-
The sparse tree of `BlockTree.h`: a trunk held as a vector, the branch blocks held in a map, and one
signed height for every known hash. A height that is not negative is an index into the trunk; a
negative one says that the block lies on a branch.

* `find`, `heightOf`, `count`, `advance` and `assign` are the member functions of the same names.
* An iterator is `Option Elem`: the element it points at, or `none` for `end()`.
* A call that throws ends in `Fault.error`. Reading past the trunk, or through an iterator of a
  branch block that the map does not hold, is undefined in C++ and ends in `Fault.undefined`.

Heights and indices are unbounded integers: the trunk is far shorter than the range of `int`.
-/

import Libcoin.Library.Exec
import Libcoin.Library.OrderedMap

namespace Libcoin

/-- How a call ends when it does not return: with one of the two exceptions of `BlockChain`, or in
behaviour that C++ leaves undefined (a loop that never ends included). -/
inductive Fault
  | reject (what : String)
  | error (what : String)
  | undefined
  deriving DecidableEq, Repr

/-- The public members that `SparseTree` asks of its elements. -/
class TreeElem (Elem : Type) (Hash : outParam Type) where
  hash : Elem → Hash
  prev : Elem → Hash

/-- The data members of `SparseTree<Elem, Hash>`. -/
structure SparseTree (Elem Hash : Type) [LinearOrder Hash] where
  trunk : List Elem
  heights : Map Hash Int
  branches : Map Hash Elem

namespace SparseTree

variable {Elem Hash : Type} [LinearOrder Hash] [TreeElem Elem Hash]

open TreeElem

def empty : SparseTree Elem Hash := { trunk := [], heights := ∅, branches := ∅ }

/-- `SparseTree::height(hash)`. -/
def heightOf (t : SparseTree Elem Hash) (h : Hash) : Except Fault Int :=
  match t.heights[h]? with
  | some height => .ok height
  | none => .error (.error "SparseTree::height - hash not known")

/-- `SparseTree::count(hash)`. -/
def count (t : SparseTree Elem Hash) (h : Hash) : Except Fault Int := do
  let height ← t.heightOf h
  return (height.natAbs : Int) + 1

/-- `SparseTree::height()`, the height of the trunk. -/
def height (t : SparseTree Elem Hash) : Int := t.trunk.length - 1

/-- `_trunk[h]`. -/
def trunkAt (t : SparseTree Elem Hash) (h : Int) : Except Fault Elem :=
  if h < 0 then .error .undefined
  else
    match t.trunk[h.toNat]? with
    | some e => .ok e
    | none => .error .undefined

/-- `SparseTree::find`. -/
def find (t : SparseTree Elem Hash) (h : Hash) : Except Fault (Option Elem) :=
  match t.heights[h]? with
  | none => .ok none
  | some height =>
    if height < 0 then
      match t.branches[h]? with
      | some e => .ok (some e)
      | none => .error .undefined
    else some <$> t.trunkAt height

/-- One turn of the backward loop of `advance`, taken on a branch block. -/
def stepBranch (t : SparseTree Elem Hash) (e : Elem) : Except Fault Elem :=
  match t.branches[prev e]? with
  | some p => .ok p
  | none =>
    match t.heights[prev e]? with
    | some height => t.trunkAt height
    | none => .ok e

/-- The backward loop of `advance`: the element it stops at, and the steps that are left. -/
def walkBranch (t : SparseTree Elem Hash) : Nat → Elem → Except Fault (Elem × Nat)
  | 0, e => .ok (e, 0)
  | n + 1, e => do
    let height ← t.heightOf (hash e)
    if height < 0 then
      let p ← t.stepBranch e
      walkBranch t n p
    else return (e, n + 1)

/-- `SparseTree::advance` on an iterator that is not `end()`. -/
def advance (t : SparseTree Elem Hash) (e : Elem) (n : Int) : Except Fault (Option Elem) :=
  if 0 < n then do
    let height ← t.heightOf (hash e)
    if height < 0 then return none
    else if (t.trunk.length : Int) ≤ height + n then return none
    else some <$> t.trunkAt (height + n)
  else if n < 0 then do
    let (stop, left) ← t.walkBranch n.natAbs e
    let height ← t.heightOf (hash stop)
    -- the source keeps the iterator where it is when the walk would pass the genesis
    if 0 ≤ height - left then some <$> t.trunkAt (height - left)
    else return some stop
  else return some e

/-- `--blk`, read through at once. -/
def back (t : SparseTree Elem Hash) (e : Elem) : Except Fault Elem := do
  match ← t.advance e (-1) with
  | some p => return p
  | none => .error .undefined

/-- The heights that `assign` gives to the trunk from index `h` on, and its check of the links. -/
def assignFrom : Elem → List Elem → Int → Map Hash Int → Except Fault (Map Hash Int)
  | _, [], _, heights => .ok heights
  | below, e :: rest, h, heights =>
    if prev e ≠ hash below then .error (.error "Tree::assign - failed to validate trunk!")
    else assignFrom e rest (h + 1) (heights.insert (hash e) h)

/-- `SparseTree::assign`. -/
def assign (t : SparseTree Elem Hash) : List Elem → Except Fault (SparseTree Elem Hash)
  | [] => .ok t
  | genesis :: rest => do
    let heights ← assignFrom genesis rest 1 (t.heights.insert (hash genesis) 0)
    return { trunk := genesis :: rest, heights := heights, branches := ∅ }

/-- A loop over known blocks that ends meets every one of them at most once, so this many turns are
more than it can take. The height is counted in so that the bound is visible at once. -/
def fuel (t : SparseTree Elem Hash) (e : Elem) : Nat :=
  t.heights.size + (t.heights.getD (hash e) 0).natAbs + 1

end SparseTree

end Libcoin
