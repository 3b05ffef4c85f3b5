/-
`BlockTree`: the sparse tree of block references, with the accumulated work of its trunk.

* `BlockRef.work` is the work that a block's compact target claims.
* `insert` and `popBack` are `BlockTree::insert` and `BlockTree::pop_back`, loop by loop. Both walk
  back along a branch (`collect`), forward along the trunk (`forward`), and push the blocks of the
  branch onto the trunk (`pushTrunk`); `popBack` has its own copy of the three with two changes,
  which are parameters here.
-/

import Libcoin.Tree.SparseTree
import Mathlib.Data.Nat.Digits.Defs
import Mathlib.Order.Fin.Basic

namespace Libcoin

/-- `CBigNum::SetCompact`. The top byte is the length of a big-endian number, the other three its first bytes, with a
sign. A negative argument asks for a buffer that the conversion refuses, which leaves zero. -/
def setCompact (nCompact : Int) : Int :=
  if nCompact < 0 then 0
  else
    let bytes := nCompact.toNat
    let nSize := bytes / 2 ^ 24
    let first := bytes / 2 ^ 16 % 256
    let magnitude := (first % 128) * 2 ^ 16 + bytes % 2 ^ 16
    let value : Nat :=
      if nSize ≤ 3 then magnitude / 256 ^ (3 - nSize) else magnitude * 256 ^ (nSize - 3)
    -- the sign is read off the first byte, which an empty number does not have
    if 1 ≤ nSize ∧ 128 ≤ first then -value else value

/-- `uint256`. -/
abbrev Uint256 := Fin (2 ^ 256)

instance : LinearOrder Uint256 := Fin.instLinearOrder

instance (priority := 2000) Uint256.neZero : NeZero (2 ^ 256 : Nat) := ⟨by norm_num⟩

instance (priority := 2000) Uint256.zero : Zero Uint256 := ⟨0⟩

/-- `BlockRef`. -/
structure BlockRef (Hash : Type) where
  version : Int
  hash : Hash
  prev : Hash
  time : Int
  bits : Int
  deriving DecidableEq, Repr

namespace BlockRef

variable {Hash : Type}

instance : TreeElem (BlockRef Hash) Hash := ⟨hash, prev⟩

/-- The default constructor. -/
instance [Zero Hash] : Inhabited (BlockRef Hash) :=
  ⟨{ version := 3, hash := 0, prev := 0, time := 0, bits := 0 }⟩

/-- `BlockRef::work`. -/
def work (ref : BlockRef Hash) : Int :=
  let target := setCompact ref.bits
  if target ≤ 0 then 0 else 2 ^ 256 / (target + 1)

theorem work_nonneg (ref : BlockRef Hash) : 0 ≤ ref.work := by
  unfold work
  by_cases low : setCompact ref.bits ≤ 0
  · rw [if_pos low]
  · rw [if_neg low]
    exact Int.ediv_nonneg (by norm_num) (by omega)

end BlockRef

/-- `std::vector::resize`. -/
def resize {A : Type} (fill : A) (n : Nat) (xs : List A) : List A :=
  xs.take n ++ List.replicate (n - xs.length) fill

theorem resize_of_le {A : Type} (fill : A) {n : Nat} {xs : List A} (short : n ≤ xs.length) :
    resize fill n xs = xs.take n := by
  unfold resize
  rw [Nat.sub_eq_zero_of_le short, List.replicate_zero, List.append_nil]

/-- The data members of `BlockTree`. -/
structure BlockTree (Hash : Type) [LinearOrder Hash] extends SparseTree (BlockRef Hash) Hash where
  accWork : List Int

namespace BlockTree

/-- `BlockTree::Changes`. -/
structure Changes (Hash : Type) where
  deleted : List Hash
  inserted : List Hash
  deriving DecidableEq, Repr

variable {Hash : Type}

/-- The prefix sums that `assign` pushes onto `_acc_work`. -/
def pushWork (acc : List Int) : List (BlockRef Hash) → List Int
  | [] => acc
  | ref :: rest => pushWork (acc ++ [acc.getLastD 0 + ref.work]) rest

variable [LinearOrder Hash]

def empty : BlockTree Hash := { SparseTree.empty with accWork := [] }

/-- `BlockTree::assign` on a tree without accumulated work. -/
def assign (t : BlockTree Hash) (trunk : List (BlockRef Hash)) : Except Fault (BlockTree Hash) := do
  let assigned ← t.toSparseTree.assign trunk
  return { assigned with accWork := pushWork t.accWork trunk }

/-- `_acc_work[h]`. -/
def workAt (t : BlockTree Hash) (h : Int) : Except Fault Int :=
  if h < 0 then .error .undefined
  else
    match t.accWork[h.toNat]? with
    | some work => .ok work
    | none => .error .undefined

/-- The loop of `accumulatedWork`: the work of the branch below `blk`, and the height at which the
branch leaves the trunk. -/
def sumBranch (t : BlockTree Hash) : Nat → BlockRef Hash → Int → Except Fault (Int × Int)
  | 0, _, _ => .error .undefined
  | turns + 1, blk, sum => do
    let below ← t.back blk
    let h ← t.heightOf below.hash
    if h < 0 then sumBranch t turns below (sum + below.work) else return (sum, h)

/-- `BlockTree::accumulatedWork`. -/
def accumulatedWork (t : BlockTree Hash) (blk : BlockRef Hash) : Except Fault Int := do
  let h ← t.heightOf blk.hash
  if h < 0 then
    let (sum, root) ← t.sumBranch (t.fuel blk) blk blk.work
    let trunkWork ← t.workAt root
    return sum + trunkWork
  else t.workAt h

/-- `BlockTree::best`. -/
def best (t : BlockTree Hash) : Except Fault (BlockRef Hash) :=
  match t.trunk.getLast? with
  | some blk => .ok blk
  | none => .error .undefined

/-- `while (blk.height() < 0) { hashes.push_back(blk->hash); --blk; }`: the hashes, and the trunk
block that the loop ends on. -/
def collect (t : BlockTree Hash) : Nat → BlockRef Hash → List Hash →
    Except Fault (List Hash × BlockRef Hash)
  | 0, _, _ => .error .undefined
  | turns + 1, blk, hashes => do
    let h ← t.heightOf blk.hash
    if h < 0 then
      let below ← t.back blk
      collect t turns below (hashes ++ [blk.hash])
    else return (hashes, blk)

/-- `for (++blk; blk != end(); ++blk)` with a body that changes the tree; `blk` is the iterator
after the first step. The hashes are those of the blocks met. -/
def forward (body : BlockTree Hash → BlockRef Hash → BlockTree Hash) :
    Nat → BlockTree Hash → Option (BlockRef Hash) → List Hash →
      Except Fault (BlockTree Hash × List Hash)
  | _, t, none, met => .ok (t, met)
  | 0, _, some _, _ => .error .undefined
  | turns + 1, t, some blk, met => do
    let t := body t blk
    let next ← t.advance blk 1
    forward body turns t next (met ++ [blk.hash])

/-- `_branches[blk->hash] = *blk`, the loop body of `insert`. -/
def toBranch (t : BlockTree Hash) (blk : BlockRef Hash) : BlockTree Hash :=
  { t with branches := t.branches.insert blk.hash blk }

/-- The loop body of `popBack`, which also changes the sign of the height. -/
def toBranchFlipped (t : BlockTree Hash) (blk : BlockRef Hash) : BlockTree Hash :=
  { t with
    branches := t.branches.insert blk.hash blk
    heights := t.heights.insert blk.hash (t.heights.getD blk.hash 0 * -1) }

section Update

variable [Zero Hash]

/-- `_trunk.resize(n)` and `_acc_work.resize(n)`. -/
def cut (t : BlockTree Hash) (n : Nat) : BlockTree Hash :=
  { t with trunk := resize default n t.trunk, accWork := resize 0 n t.accWork }

/-- A branch block moves onto the trunk and its height is multiplied by `sign`. The vector
`_acc_work` holds at least the entry of the block below. -/
def pushTrunk (sign : Int) (t : BlockTree Hash) (h : Hash) : BlockTree Hash :=
  let blk := t.branches.getD h default
  { trunk := t.trunk ++ [blk]
    heights := t.heights.insert h (t.heights.getD h 0 * sign)
    branches := t.branches.erase h
    accWork := t.accWork ++ [t.accWork.getLastD 0 + blk.work] }

/-- `BlockTree::insert`. -/
def insert (t : BlockTree Hash) (ref : BlockRef Hash) :
    Except Fault (BlockTree Hash × Changes Hash) := do
  match ← t.find ref.prev with
  | none => .error (.error "BlockTree::insert: BlockRef not connected to blocktree!")
  | some blk =>
    let work := (← t.accumulatedWork blk) + ref.work
    let tipWork ← t.workAt (t.accWork.length - 1)
    if tipWork < work then
      let (inserted, root) ← t.collect (t.fuel blk) blk []
      let above ← t.advance root 1
      let (t, deleted) ← forward toBranch (t.trunk.length + 1) t above []
      let h ← t.heightOf root.hash
      let t := t.cut (h.toNat + 1)
      -- the signs are changed only now: the loop above asks them where the trunk goes on
      let t := { t with heights := t.heights.adjustAll 0 (· * -1) deleted }
      let t := inserted.reverse.foldl (pushTrunk (-1)) t
      return ({ trunk := t.trunk ++ [ref]
                heights := t.heights.insert ref.hash t.trunk.length
                branches := t.branches
                accWork := t.accWork ++ [work] },
              { deleted := deleted, inserted := ref.hash :: inserted })
    else
      let h ← t.heightOf blk.hash
      return ({ t with
                branches := t.branches.insert ref.hash ref
                heights := t.heights.insert ref.hash (-(h.natAbs : Int) - 1) },
              { deleted := [], inserted := [] })

/-- The loop of `popBack` over the branch blocks: the last candidate that has more work than the
trunk that is left, if there is one. `best_work` is not updated on the way. -/
def pickBest (t : BlockTree Hash) (bestWork : Int) :
    List Hash → Option (BlockRef Hash) → Except Fault (Option (BlockRef Hash))
  | [], picked => .ok picked
  | h :: rest, picked => do
    match ← t.find h with
    | none => .error .undefined
    | some candidate =>
      let candidateWork ← t.accumulatedWork candidate
      pickBest t bestWork rest (if bestWork < candidateWork then some candidate else picked)

/-- The reorganisation of `popBack` onto the branch that ends in `blk`. -/
def reorganize (t : BlockTree Hash) (blk : BlockRef Hash) : Except Fault (BlockTree Hash) := do
  let (inserted, root) ← t.collect (t.fuel blk) blk []
  let above ← t.advance root 1
  let (t, _) ← forward toBranchFlipped (t.trunk.length + 1) t above []
  let h ← t.heightOf root.hash
  let t := t.cut (h.toNat + 1)
  -- the source multiplies by 1 here, so the heights keep their sign
  return inserted.reverse.foldl (pushTrunk 1) t

/-- The tree without its best block, before a new best chain is looked for. -/
def dropTip (t : BlockTree Hash) (blk : BlockRef Hash) : BlockTree Hash :=
  { trunk := t.trunk.dropLast
    heights := t.heights.erase blk.hash
    branches := t.branches
    accWork := t.accWork.dropLast }

/-- `BlockTree::pop_back`. -/
def popBack (t : BlockTree Hash) : Except Fault (BlockTree Hash) := do
  let blk ← t.best
  let popped := t.dropTip blk
  let bestBlk ← popped.best
  let bestWork ← { popped with heights := t.heights }.accumulatedWork bestBlk
  match ← popped.pickBest bestWork popped.branches.keys none with
  | none => return popped
  | some picked => popped.reorganize picked

end Update

end BlockTree

end Libcoin
