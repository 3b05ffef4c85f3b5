/-
`nextWorkRequired` of the chains: the bits that the block after an iterator must have.

* `Retarget` has the constants of a chain. `Retarget.newBits` is the arithmetic of a retarget.
* `Retarget.nextWork` is the function that `BitcoinChain`, `NamecoinChain`, `LitecoinChain` and
  `TerracoinChain` have with their own constants and their own number of blocks to go back; `TestNet3Chain`
  has a rule of its own between retargets, and `DogecoinChain` and `DogetestChain` share another function.
* The former go by the signed height of the iterator, the latter by its count. `nextWorkRequired_iff` says what
  follows for a block that lies on the trunk of one tree and on a branch of another.
-/

import Libcoin.Tree.PopBack

namespace Libcoin

/-- `CBigNum::GetCompact`: the length of the big-endian number with its sign, and its first three bytes. -/
def getCompact (n : Int) : Int :=
  let magnitude := n.natAbs
  let size := if magnitude = 0 then 0 else (magnitude.log2 + 1) / 8 + 1
  let first := if size ≤ 3 then magnitude * 256 ^ (3 - size) else magnitude / 256 ^ (size - 3)
  let sign := if n < 0 then 2 ^ 23 else 0
  ((size * 2 ^ 24 + first + sign : Nat) : Int).bmod (2 ^ 32)

namespace BlockTree

/-- The constants of a chain, and the number of blocks to go back from a height. -/
structure Retarget where
  targetTimespan : Int
  targetSpacing : Int
  proofOfWorkLimit : Int
  genesisBits : Int
  blocksToGoBack : Int → Int

namespace Retarget

/-- `nInterval`. -/
def interval (rule : Retarget) : Int := rule.targetTimespan / rule.targetSpacing

/-- The two comparisons that limit the adjustment step. -/
def clamp (low high timespan : Int) : Int :=
  let timespan := if timespan < low then low else timespan
  if high < timespan then high else timespan

/-- The bits for a time span: the target is scaled, up to the limit. -/
def scale (limit targetTimespan bits timespan : Int) : Int :=
  let bnNew := (setCompact bits * timespan).tdiv targetTimespan
  getCompact (if limit < bnNew then limit else bnNew)

/-- The bits for the time between two blocks, which is an `int`. -/
def newBits (rule : Retarget) (bits actualTimespan : Int) : Int :=
  scale rule.proofOfWorkLimit rule.targetTimespan bits
    (clamp (rule.targetTimespan / 4) (rule.targetTimespan * 4) (actualTimespan.bmod (2 ^ 32)))

end Retarget

section Rules

variable {Hash : Type} [LinearOrder Hash]

/-- `blk->time - former->time`, where `former` is so many blocks before `blk`. -/
def timeSince (t : BlockTree Hash) (blk : BlockRef Hash) (blocks : Int) : Except Fault Int := do
  match ← t.advance blk (-blocks) with
  | none => .error .undefined
  | some former => return blk.time - former.time

/-- The function of the chains that go by the height, with what they return between retargets. -/
def nextWork (rule : Retarget) (between : Except Fault Int) (t : BlockTree Hash) (blk : BlockRef Hash) :
    Except Fault Int := do
  let h ← t.heightOf blk.hash
  if h = 0 then return rule.genesisBits
  else if (h + 1).tmod rule.interval ≠ 0 then between
  else do
    let actualTimespan ← t.timeSince blk (rule.blocksToGoBack h)
    return rule.newBits blk.bits actualTimespan

/-- `~uint256(0) >> 32` and `~uint256(0) >> 20`. -/
def limit32 : Int := 2 ^ 224 - 1

def limit20 : Int := 2 ^ 236 - 1

/-- Two weeks, with a block every ten minutes. -/
def twoWeeks : Int := 14 * 24 * 60 * 60

namespace BitcoinChain

def retarget : Retarget :=
  { targetTimespan := twoWeeks, targetSpacing := 10 * 60, proofOfWorkLimit := limit32
    genesisBits := getCompact limit32, blocksToGoBack := fun _ => twoWeeks / (10 * 60) - 1 }

def nextWorkRequired (t : BlockTree Hash) (blk : BlockRef Hash) : Except Fault Int :=
  nextWork retarget (.ok blk.bits) t blk

end BitcoinChain

namespace TestNet3Chain

/-- The loop that looks for the last block that is not one of the special ones with the least work. -/
def lastNormal (t : BlockTree Hash) : Nat → BlockRef Hash → Except Fault Int
  | 0, _ => .error .undefined
  | turns + 1, blk => do
    let h ← t.heightOf blk.hash
    if h.tmod BitcoinChain.retarget.interval ≠ 0 ∧ blk.bits = getCompact limit32 then do
      let below ← t.back blk
      lastNormal t turns below
    else return blk.bits

def nextWorkRequired (t : BlockTree Hash) (blk : BlockRef Hash) : Except Fault Int :=
  nextWork BitcoinChain.retarget (lastNormal t (t.fuel blk) blk) t blk

end TestNet3Chain

namespace NamecoinChain

def retarget : Retarget :=
  { targetTimespan := twoWeeks, targetSpacing := 10 * 60, proofOfWorkLimit := limit32
    genesisBits := 0x1c007fff
    blocksToGoBack := fun h =>
      if 19200 ≤ h ∧ twoWeeks / (10 * 60) < h + 1 then twoWeeks / (10 * 60) else twoWeeks / (10 * 60) - 1 }

def nextWorkRequired (t : BlockTree Hash) (blk : BlockRef Hash) : Except Fault Int :=
  nextWork retarget (.ok blk.bits) t blk

end NamecoinChain

namespace LitecoinChain

def retarget : Retarget :=
  { targetTimespan := 302400, targetSpacing := 150, proofOfWorkLimit := limit20, genesisBits := 0x1e0ffff0
    blocksToGoBack := fun h => if h + 1 ≠ 302400 / 150 then 302400 / 150 else 302400 / 150 - 1 }

def nextWorkRequired (t : BlockTree Hash) (blk : BlockRef Hash) : Except Fault Int :=
  nextWork retarget (.ok blk.bits) t blk

end LitecoinChain

namespace TerracoinChain

def retarget : Retarget :=
  { targetTimespan := 60 * 60, targetSpacing := 2 * 60, proofOfWorkLimit := limit32
    genesisBits := getCompact limit32, blocksToGoBack := fun _ => 60 * 60 / (2 * 60) - 1 }

def nextWorkRequired (t : BlockTree Hash) (blk : BlockRef Hash) : Except Fault Int :=
  nextWork retarget (.ok blk.bits) t blk

end TerracoinChain

namespace DogecoinChain

def targetTimespan : Int := 4 * 60 * 60

/-- `fNewDifficultyProtocol`. -/
def newProtocol (count : Int) : Bool := decide (145000 ≤ count)

/-- `retargetInterval` and `retargetTimespan`. -/
def retargetInterval (count : Int) : Int := if newProtocol count then 60 / 60 else targetTimespan / 60

def retargetTimespan (count : Int) : Int := if newProtocol count then 60 else targetTimespan

/-- The limits of the adjustment step, which change with the count. -/
def adjust (count actualTimespan : Int) : Int :=
  if newProtocol count then
    Retarget.clamp (60 - 60 / 4) (60 + 60 / 2) (60 + (actualTimespan - 60).tdiv 8)
  else if 10000 < count then Retarget.clamp (targetTimespan / 4) (targetTimespan * 4) actualTimespan
  else if 5000 < count then Retarget.clamp (targetTimespan / 8) (targetTimespan * 4) actualTimespan
  else Retarget.clamp (targetTimespan / 16) (targetTimespan * 4) actualTimespan

/-- `blockstogoback`. -/
def blocksToGoBack (count : Int) : Int :=
  if count ≠ retargetInterval count then retargetInterval count else retargetInterval count - 1

def nextWorkRequired (t : BlockTree Hash) (blk : BlockRef Hash) : Except Fault Int := do
  let count ← t.count blk.hash
  let h ← t.heightOf blk.hash
  if h = 0 then return 0x1e0ffff0
  else if count.tmod (retargetInterval count) ≠ 0 then return blk.bits
  else do
    let actualTimespan ← t.timeSince blk (blocksToGoBack count)
    return Retarget.scale limit20 (retargetTimespan count) blk.bits (adjust count actualTimespan)

end DogecoinChain

namespace DogetestChain

/-- The function of `DogecoinChain`, with the same constants. -/
def nextWorkRequired (t : BlockTree Hash) (blk : BlockRef Hash) : Except Fault Int :=
  DogecoinChain.nextWorkRequired t blk

end DogetestChain

end Rules

/-! ### Steps back -/

section Steps

variable {Hash : Type} [LinearOrder Hash] {known : List (BlockRef Hash)} {t : BlockTree Hash}
  {b root : BlockRef Hash} {up low high : List (BlockRef Hash)}

open Exec

/-- The block so many steps down a path, or its last block. -/
def ancestor (path : List (BlockRef Hash)) (n : Nat) : Option (BlockRef Hash) := path[min n (path.length - 1)]?

/-- The time between the begin of a path and the block so many steps down. -/
def timespan (path : List (BlockRef Hash)) (n : Nat) : Int :=
  (path.head?.map BlockRef.time).getD 0 - ((ancestor path n).map BlockRef.time).getD 0

namespace Represents

/-- The backward loop goes over the branch, and stops on the trunk with the steps that are left. -/
theorem walkBranch_fork (rep : Represents known t) (grown : Grown known)
    (fork : Fork known t b up root low high) (n : Nat) {stop : BlockRef Hash}
    (reached : (up ++ [root])[min n up.length]? = some stop) :
    t.walkBranch n b = .ok (stop, n - up.length) := by
  induction up generalizing b n with
  | nil =>
    obtain rfl := fork.eq_base grown rfl
    obtain rfl : root = stop := by simpa using reached
    cases n with
    | zero => rfl
    | succ n =>
      have nonneg := depth_nonneg grown fork.member
      unfold SparseTree.walkBranch
      show t.heightOf root.hash >>= _ = _
      rw [rep.heightOf_trunk fork.root_mem, ok_bind, if_neg (by omega)]
      rfl
  | cons c up ih =>
    obtain rfl := fork.eq_base grown rfl
    cases n with
    | zero =>
      obtain rfl : c = stop := by simpa using reached
      rw [Nat.zero_sub]
      rfl
    | succ n =>
      have offC : c ∉ t.trunk := fork.off c List.mem_cons_self
      have negative := rep.depth_pos grown fork.member offC
      obtain ⟨p, tail, -, path_p, fork_p⟩ := fork.exists_below grown
      have further : (up ++ [root])[min n up.length]? = some stop := by
        rw [List.length_cons, Nat.succ_min_succ, List.cons_append, List.getElem?_cons_succ] at reached
        exact reached
      unfold SparseTree.walkBranch
      show t.heightOf c.hash >>= _ = _
      rw [rep.heightOf_branch fork.member offC, ok_bind, if_pos (by omega),
        (rep.stepBranch_branch grown path_p).1, ok_bind, List.length_cons, Nat.succ_sub_succ]
      exact ih fork_p n further

theorem Fork.length (fork : Fork known t b up root low high) :
    (lineage known b.hash).length = up.length + low.length + 1 := by
  rw [fork.path, List.length_append, List.length_cons, List.length_reverse]
  omega

/-- Going back `n` blocks leads to that ancestor. The iterator never passes the first block, but it stays where
the branch begins when it would. -/
theorem advance_back (rep : Represents known t) (grown : Grown known)
    (fork : Fork known t b up root low high) {n : Nat} (steps : 0 < n)
    (inside : n ≤ up.length + low.length ∨ low = []) :
      t.advance b (-n) = .ok (ancestor (lineage known b.hash) n) := by
  have bound := fork.length
  have moved : ∀ stop, (up ++ [root])[min n up.length]? = some stop → t.advance b (-n) =
      t.heightOf stop.hash >>= fun height =>
        if 0 ≤ height - ((n - up.length : Nat) : Int) then some <$> t.trunkAt
          (height - ((n - up.length : Nat) : Int))
        else .ok (some stop) := by
    intro stop reached
    unfold SparseTree.advance
    rw [if_neg (by omega), if_pos (by omega), Int.natAbs_neg, Int.natAbs_natCast]
    show t.walkBranch n b >>= _ = _
    rw [rep.walkBranch_fork grown fork n reached, ok_bind]
    rfl
  unfold ancestor
  by_cases short : n < up.length
  · have there : n < (lineage known b.hash).length := by omega
    have here : (lineage known b.hash)[min n ((lineage known b.hash).length - 1)]? = up[n]? := by
      rw [Nat.min_eq_left (by omega), fork.path, List.getElem?_append_left short]
    have stop : (up ++ [root])[min n up.length]? = some (up.get ⟨n, short⟩) := by
      rw [Nat.min_eq_left (by omega), List.getElem?_append_left short]
      exact List.getElem?_eq_getElem short
    have off := fork.off _ (List.get_mem up ⟨n, short⟩)
    have known_stop := fork.up_known (List.get_mem up ⟨n, short⟩)
    have negative := rep.depth_pos grown known_stop off
    rw [moved _ stop, rep.heightOf_branch known_stop off, ok_bind, if_neg (by omega), here]
    exact congrArg Except.ok (List.getElem?_eq_getElem short).symm
  · have stop : (up ++ [root])[min n up.length]? = some root := Fork.stop_beyond (by omega)
    rw [moved _ stop, rep.heightOf_trunk fork.root_mem, ok_bind, fork.root_depth grown]
    by_cases within : n - up.length ≤ low.length
    · have index : (low.length : Int) - ((n - up.length : Nat) : Int) =
        ((low.length - (n - up.length) : Nat) : Int) := by
        omega
      rw [index, if_pos (by omega)]
      unfold SparseTree.trunkAt
      rw [if_neg (by omega), Int.toNat_natCast, Nat.min_eq_left (by omega), fork.path,
        List.getElem?_append_right (by omega)]
      have total : (low ++ [root]).length = low.length + 1 := List.length_append
      have place : low.length - (n - up.length) < (low ++ [root]).length := by omega
      have flipped : (root :: low.reverse)[n - up.length]? = (low ++ [root])[low.length - (n - up.length)]? := by
        rw [← List.reverse_concat, List.getElem?_reverse (by omega), total]
        rfl
      have found : (low ++ [root])[low.length - (n - up.length)]? = some ((low ++ [root]).get ⟨_, place⟩) :=
        List.getElem?_eq_getElem _
      rw [flipped, fork.split_root, List.getElem?_append_left place, found]
      rfl
    · rcases inside with few | nothing
      · omega
      · subst nothing
        rw [if_neg (by rw [List.length_nil]; omega), Nat.min_eq_right (by rw [bound]; simp; omega), bound,
          fork.path,
          List.getElem?_append_right (by simp)]
        simp

theorem timeSince_known (rep : Represents known t) (grown : Grown known) (fork : Fork known t b up root low high)
    {n : Int} (steps : 0 < n) (inside : n ≤ up.length + low.length ∨ low = []) :
    t.timeSince b n = .ok (timespan (lineage known b.hash) n.toNat) := by
  obtain ⟨n, rfl⟩ := Int.eq_ofNat_of_zero_le steps.le
  have moved := rep.advance_back grown fork (n := n) (by omega) (inside.imp_left fun few => by omega)
  obtain ⟨rest, head⟩ := grown.exists_lineage fork.member
  have head : lineage known b.hash = b :: rest := head
  obtain ⟨former, there⟩ : ∃ former, ancestor (lineage known b.hash) n = some former := by
    unfold ancestor
    rw [head, List.length_cons]
    exact ⟨_, List.getElem?_eq_getElem (by rw [List.length_cons]; omega)⟩
  unfold timeSince timespan
  rw [Int.toNat_natCast, moved, ok_bind, there, head]
  rfl

end Represents

end Steps

/-! ### What the functions return -/

/-- The blocks to go back lead to a block of the path or, from the first block of a branch, to the genesis. -/
structure Retarget.Regular (rule : Retarget) : Prop where
  interval : 2 < rule.interval
  onTrunk : ∀ d, 0 < d → rule.interval ∣ d + 1 → 0 < rule.blocksToGoBack d ∧ rule.blocksToGoBack d ≤ d
  onBranch : ∀ d, 0 < d → rule.interval ∣ d - 1 →
    0 < rule.blocksToGoBack (-d) ∧ (rule.blocksToGoBack (-d) ≤ d ∨ d = 1)

theorem BitcoinChain.regular : BitcoinChain.retarget.Regular := by
  have interval : BitcoinChain.retarget.interval = 2016 := by decide
  have back : ∀ h, BitcoinChain.retarget.blocksToGoBack h = 2015 := fun _ => rfl
  refine ⟨by omega, fun d positive divides => ?_, fun d positive divides => ?_⟩ <;> rw [interval] at divides <;>
    rw [back] <;> omega

theorem NamecoinChain.regular : NamecoinChain.retarget.Regular := by
  have interval : NamecoinChain.retarget.interval = 2016 := by decide
  have back : ∀ h, NamecoinChain.retarget.blocksToGoBack h = if 19200 ≤ h ∧ 2016 < h + 1 then 2016 else 2015 :=
    fun _ => rfl
  refine ⟨by omega, fun d positive divides => ?_, fun d positive divides => ?_⟩ <;> rw [interval] at divides <;>
    rw [back] <;> split <;> omega

theorem LitecoinChain.regular : LitecoinChain.retarget.Regular := by
  have interval : LitecoinChain.retarget.interval = 2016 := by decide
  have back : ∀ h, LitecoinChain.retarget.blocksToGoBack h = if h + 1 ≠ 2016 then 2016 else 2015 := fun _ => rfl
  refine ⟨by omega, fun d positive divides => ?_, fun d positive divides => ?_⟩ <;> rw [interval] at divides <;>
    rw [back] <;> split <;> omega

theorem TerracoinChain.regular : TerracoinChain.retarget.Regular := by
  have interval : TerracoinChain.retarget.interval = 30 := by decide
  have back : ∀ h, TerracoinChain.retarget.blocksToGoBack h = 29 := fun _ => rfl
  refine ⟨by omega, fun d positive divides => ?_, fun d positive divides => ?_⟩ <;> rw [interval] at divides <;>
    rw [back] <;> omega

section Values

variable {Hash : Type} [LinearOrder Hash] {known known' : List (BlockRef Hash)} {t t' : BlockTree Hash}
  {b : BlockRef Hash}

open Exec

/-- The bits of the first block of a path. -/
def headBits (path : List (BlockRef Hash)) : Int := (path.head?.map BlockRef.bits).getD 0

/-- The height of the first block of a path. -/
def pathDepth (path : List (BlockRef Hash)) : Int := path.length - 1

/-- What a chain that goes by the height returns for a block of the trunk, and for one of a branch. -/
def trunkBits (rule : Retarget) (between : Int) (path : List (BlockRef Hash)) : Int :=
  if pathDepth path = 0 then rule.genesisBits
  else if rule.interval ∣ pathDepth path + 1 then
    rule.newBits (headBits path) (timespan path (rule.blocksToGoBack (pathDepth path)).toNat)
  else between

def branchBits (rule : Retarget) (between : Int) (path : List (BlockRef Hash)) : Int :=
  if rule.interval ∣ pathDepth path - 1 then
    rule.newBits (headBits path) (timespan path (rule.blocksToGoBack (-pathDepth path)).toNat)
  else between

theorem nextWork_trunk (rep : Represents known t) (grown : Grown known) (on : b ∈ t.trunk) {rule : Retarget}
    (regular : rule.Regular) (between : Int) :
    nextWork rule (.ok between) t b = .ok (trunkBits rule between (lineage known b.hash)) := by
  have member := rep.trunk_known on
  obtain ⟨rest, head⟩ := grown.exists_lineage member
  have head : lineage known b.hash = b :: rest := head
  obtain ⟨low, high, split, path⟩ := rep.trunk_split grown on
  have fork : Represents.Fork known t b [] b low high := ⟨member, path, split, nofun⟩
  have nonneg := Represents.depth_nonneg grown member
  have long : depth known b.hash = low.length := by
    have length := fork.length
    rw [depth, length]
    simp
  unfold nextWork trunkBits
  rw [rep.heightOf_trunk on, ok_bind]
  show (if depth known b.hash = 0 then _ else _) = _
  rw [show pathDepth (lineage known b.hash) = depth known b.hash from rfl]
  by_cases genesis : depth known b.hash = 0
  · rw [if_pos genesis, if_pos genesis]
    rfl
  · rw [if_neg genesis, if_neg genesis]
    by_cases due : rule.interval ∣ depth known b.hash + 1
    · obtain ⟨steps, few⟩ := regular.onTrunk _ (by omega) due
      rw [if_neg (not_not.mpr (Int.tmod_eq_zero_of_dvd due)), if_pos due,
        rep.timeSince_known grown fork steps (.inl (by rw [List.length_nil]; omega)), ok_bind, head]
      rfl
    · rw [if_pos fun zero => due (Int.dvd_of_tmod_eq_zero zero), if_neg due]

theorem nextWork_branch (rep : Represents known t) (grown : Grown known) (member : b ∈ known) (off : b ∉ t.trunk)
    {rule : Retarget} (regular : rule.Regular) (between : Int) :
    nextWork rule (.ok between) t b = .ok (branchBits rule between (lineage known b.hash)) := by
  obtain ⟨rest, head⟩ := grown.exists_lineage member
  have head : lineage known b.hash = b :: rest := head
  obtain ⟨up, root, low, high, fork⟩ := rep.exists_fork grown member
  have positive := rep.depth_pos grown member off
  have long : depth known b.hash = up.length + low.length := by
    have length := fork.length
    rw [depth, length]
    omega
  have started : 0 < up.length := by
    rcases up with _ | ⟨c, up⟩
    · exact absurd (fork.eq_base grown rfl ▸ fork.root_mem) off
    · simp
  unfold nextWork branchBits
  rw [rep.heightOf_branch member off, ok_bind]
  show (if -depth known b.hash = 0 then _ else _) = _
  rw [show pathDepth (lineage known b.hash) = depth known b.hash from rfl, if_neg (by omega)]
  have turned : rule.interval ∣ -depth known b.hash + 1 ↔ rule.interval ∣ depth known b.hash - 1 := by
    rw [← Int.dvd_neg, show -(-depth known b.hash + 1) = depth known b.hash - 1 by ring]
  by_cases due : rule.interval ∣ depth known b.hash - 1
  · obtain ⟨steps, few⟩ := regular.onBranch _ positive due
    have inside : rule.blocksToGoBack (-depth known b.hash) ≤ up.length + low.length ∨ low = [] := by
      rcases few with few | first
      · exact .inl (by omega)
      · exact .inr (List.length_eq_zero_iff.mp (by omega))
    rw [if_neg (not_not.mpr (Int.tmod_eq_zero_of_dvd (turned.mpr due))), if_pos due,
      rep.timeSince_known grown fork steps inside, ok_bind, head]
    rfl
  · rw [if_pos fun zero => due (turned.mp (Int.dvd_of_tmod_eq_zero zero)), if_neg due]

/-! ### Chains with rules of their own -/

/-- One step back leads to the predecessor, on the trunk and on a branch. -/
theorem back_known (rep : Represents known t) (grown : Grown known) {p : BlockRef Hash}
    {below : List (BlockRef Hash)} (path : lineage known b.hash = b :: p :: below) : t.back b = .ok p := by
  have member : b ∈ known := mem_of_mem_lineage (path ▸ List.mem_cons_self)
  obtain ⟨up, root, low, high, fork⟩ := rep.exists_fork grown member
  have length := fork.length
  rw [path, List.length_cons, List.length_cons] at length
  have moved := rep.advance_back grown fork (n := 1) (by omega) (.inl (by omega))
  rw [path] at moved
  unfold SparseTree.back
  rw [show (-1 : Int) = -((1 : Nat) : Int) from rfl, moved, ok_bind]
  rfl

/-- What `TestNet3Chain` returns between retargets. -/
def normalBits : List (BlockRef Hash) → Int
  | [] => 0
  | blk :: below =>
    if ¬BitcoinChain.retarget.interval ∣ (below.length : Int) ∧
      blk.bits = getCompact limit32 then normalBits below
    else blk.bits

/-- The height of a block is the length of its path, up to the sign. -/
theorem heightOf_known (rep : Represents known t) (member : b ∈ known) :
    ∃ h, t.heightOf b.hash = .ok h ∧ h.natAbs = (depth known b.hash).natAbs := by
  by_cases on : b ∈ t.trunk
  · exact ⟨_, rep.heightOf_trunk on, rfl⟩
  · exact ⟨_, rep.heightOf_branch member on, Int.natAbs_neg _⟩

/-- One turn of the loop: the interval divides the height on the trunk just when it does on a branch. -/
theorem lastNormal_turn (rep : Represents known t) {below : List (BlockRef Hash)} (turns : Nat)
    (path : lineage known b.hash = b :: below) :
    TestNet3Chain.lastNormal t (turns + 1) b =
      if ¬BitcoinChain.retarget.interval ∣ (below.length : Int) ∧ b.bits = getCompact limit32 then
        t.back b >>= TestNet3Chain.lastNormal t turns
      else .ok b.bits := by
  obtain ⟨h, height, size⟩ := heightOf_known rep (b := b) (mem_of_mem_lineage (path ▸ List.mem_cons_self))
  have long : depth known b.hash = below.length := by
    rw [depth, path, List.length_cons]
    omega
  have turned : h.tmod BitcoinChain.retarget.interval ≠ 0 ↔
      ¬BitcoinChain.retarget.interval ∣ (below.length : Int) := by
    rw [← long, not_iff_not, ← Int.natAbs_dvd_natAbs, ← size, Int.natAbs_dvd_natAbs]
    exact ⟨Int.dvd_of_tmod_eq_zero, Int.tmod_eq_zero_of_dvd⟩
  conv_lhs => unfold TestNet3Chain.lastNormal
  rw [height, ok_bind]
  by_cases special : ¬BitcoinChain.retarget.interval ∣ (below.length : Int) ∧ b.bits = getCompact limit32
  · rw [if_pos ⟨turned.mpr special.1, special.2⟩, if_pos special]
  · rw [if_neg fun both => special ⟨turned.mp both.1, both.2⟩, if_neg special]
    rfl

theorem lastNormal_known (rep : Represents known t) (grown : Grown known) (below : List (BlockRef Hash))
    {turns : Nat} (enough : below.length < turns) (path : lineage known b.hash = b :: below) :
    TestNet3Chain.lastNormal t turns b = .ok (normalBits (b :: below)) := by
  induction below generalizing b turns with
  | nil =>
    obtain ⟨turns, rfl⟩ := Nat.exists_eq_add_of_lt enough
    rw [lastNormal_turn rep _ path, if_neg fun special => special.1 (dvd_zero _)]
    rw [normalBits, if_neg fun special => special.1 (dvd_zero _)]
  | cons p below ih =>
    obtain ⟨turns, rfl⟩ := Nat.exists_eq_add_of_lt enough
    rw [lastNormal_turn rep _ path, normalBits]
    split
    · rw [back_known rep grown path, ok_bind]
      exact ih (by rw [List.length_cons]; omega) (grown.lineage_below [b] path)
    · rfl

/-- What `DogecoinChain` returns for the last block of a path. -/
def dogeBits (path : List (BlockRef Hash)) : Int :=
  let count := pathDepth path + 1
  if pathDepth path = 0 then 0x1e0ffff0
  else if count.tmod (DogecoinChain.retargetInterval count) ≠ 0 then headBits path
  else
    Retarget.scale limit20 (DogecoinChain.retargetTimespan count) (headBits path)
      (DogecoinChain.adjust count (timespan path (DogecoinChain.blocksToGoBack count).toNat))

theorem dogecoin_steps {count : Int} (second : 1 < count)
    (due : count.tmod (DogecoinChain.retargetInterval count) = 0) :
    0 < DogecoinChain.blocksToGoBack count ∧ DogecoinChain.blocksToGoBack count ≤ count - 1 := by
  have divides := Int.dvd_of_tmod_eq_zero due
  unfold DogecoinChain.blocksToGoBack
  have interval : DogecoinChain.retargetInterval count = 1 ∨ DogecoinChain.retargetInterval count = 240 := by
    unfold DogecoinChain.retargetInterval
    split
    · exact .inl rfl
    · exact .inr rfl
  rcases interval with one | long
  · rw [one, if_pos (by omega)]
    omega
  · rw [long] at divides ⊢
    split <;> omega

theorem dogecoin_known (rep : Represents known t) (grown : Grown known) (member : b ∈ known) :
    DogecoinChain.nextWorkRequired t b = .ok (dogeBits (lineage known b.hash)) := by
  obtain ⟨rest, head⟩ := grown.exists_lineage member
  have head : lineage known b.hash = b :: rest := head
  obtain ⟨up, root, low, high, fork⟩ := rep.exists_fork grown member
  obtain ⟨h, height, size⟩ := heightOf_known rep member
  have nonneg := Represents.depth_nonneg grown member
  have long : depth known b.hash = up.length + low.length := by
    have length := fork.length
    rw [depth, length]
    omega
  have counted : t.count b.hash = .ok (depth known b.hash + 1) := by
    unfold SparseTree.count
    show t.heightOf b.hash >>= _ = _
    rw [height, ok_bind, size]
    show Except.ok _ = Except.ok _
    rw [Int.natAbs_of_nonneg nonneg]
  unfold DogecoinChain.nextWorkRequired dogeBits
  rw [counted, ok_bind, height, ok_bind]
  dsimp only
  rw [show pathDepth (lineage known b.hash) = depth known b.hash from rfl]
  by_cases genesis : depth known b.hash = 0
  · rw [if_pos (by omega), if_pos genesis]
    rfl
  · rw [if_neg (by omega), if_neg genesis]
    by_cases due : (depth known b.hash + 1).tmod (DogecoinChain.retargetInterval (depth known b.hash + 1)) = 0
    · obtain ⟨steps, few⟩ := dogecoin_steps (by omega) due
      rw [if_neg (not_not.mpr due), if_neg (not_not.mpr due),
        rep.timeSince_known grown fork steps (.inl (by omega)), ok_bind, head]
      rfl
    · rw [if_pos due, if_pos due, head]
      rfl

/-! ### The trunk against a branch -/

/-- The chains with a retarget function, each on its main and its test network. -/
inductive RetargetChain
  | bitcoin | testnet3 | namecoin | litecoin | terracoin | dogecoin | dogetest
deriving DecidableEq, Repr

namespace RetargetChain

def nextWorkRequired (kind : RetargetChain) (t : BlockTree Hash) (blk : BlockRef Hash) : Except Fault Int :=
  match kind with
  | bitcoin => BitcoinChain.nextWorkRequired t blk
  | testnet3 => TestNet3Chain.nextWorkRequired t blk
  | namecoin => NamecoinChain.nextWorkRequired t blk
  | litecoin => LitecoinChain.nextWorkRequired t blk
  | terracoin => TerracoinChain.nextWorkRequired t blk
  | dogecoin => DogecoinChain.nextWorkRequired t blk
  | dogetest => DogetestChain.nextWorkRequired t blk

/-- The constants of a chain that goes by the height. -/
def rule? : RetargetChain → Option Retarget
  | bitcoin | testnet3 => some BitcoinChain.retarget
  | namecoin => some NamecoinChain.retarget
  | litecoin => some LitecoinChain.retarget
  | terracoin => some TerracoinChain.retarget
  | dogecoin | dogetest => none

/-- What such a chain asks for between retargets. -/
def plainBits : RetargetChain → List (BlockRef Hash) → Int
  | testnet3 => normalBits
  | _ => headBits

theorem rule?_regular {kind : RetargetChain} {rule : Retarget} (byHeight : kind.rule? = some rule) :
    rule.Regular := by
  cases kind <;> simp only [rule?, reduceCtorEq, Option.some.injEq] at byHeight <;> subst byHeight
  · exact BitcoinChain.regular
  · exact BitcoinChain.regular
  · exact NamecoinChain.regular
  · exact LitecoinChain.regular
  · exact TerracoinChain.regular

theorem lastNormal_enough (rep : Represents known t) (grown : Grown known) (member : b ∈ known) :
    TestNet3Chain.lastNormal t (t.fuel b) b = .ok (normalBits (lineage known b.hash)) := by
  obtain ⟨rest, head⟩ := grown.exists_lineage member
  have head : lineage known b.hash = b :: rest := head
  obtain ⟨h, height, size⟩ := heightOf_known rep member
  have stored : t.heights.getD b.hash 0 = h := by
    rw [Map.getD_lookup]
    unfold SparseTree.heightOf at height
    split at height
    · rename_i stored found
      rw [found]
      exact Except.ok.inj height
    · cases height
  have enough : rest.length < t.fuel b := by
    have long : depth known b.hash = rest.length := by
      rw [depth, head, List.length_cons]
      omega
    show rest.length < t.heights.size + (t.heights.getD b.hash 0).natAbs + 1
    rw [stored, size, long, Int.natAbs_natCast]
    omega
  rw [head]
  exact lastNormal_known rep grown rest enough head

/-- A chain that goes by the height, for a block with its path. -/
theorem nextWorkRequired_rule (rep : Represents known t) (grown : Grown known) (member : b ∈ known)
    {kind : RetargetChain} {rule : Retarget} (byHeight : kind.rule? = some rule) :
    kind.nextWorkRequired t b =
      .ok ((if b ∈ t.trunk then trunkBits else branchBits) rule (kind.plainBits (lineage known b.hash))
        (lineage known b.hash)) := by
  obtain ⟨rest, head⟩ := grown.exists_lineage member
  have head : lineage known b.hash = b :: rest := head
  have general : ∀ between, nextWork rule (.ok between) t b = .ok ((if b ∈ t.trunk then trunkBits else branchBits)
      rule between (lineage known b.hash)) := by
    intro between
    split
    · exact nextWork_trunk rep grown ‹_› (rule?_regular byHeight) between
    · exact nextWork_branch rep grown member ‹_› (rule?_regular byHeight) between
  have bits : headBits (lineage known b.hash) = b.bits := by
    rw [head]
    rfl
  cases kind <;> simp only [rule?, reduceCtorEq, Option.some.injEq] at byHeight <;> subst byHeight
  case testnet3 =>
    show nextWork _ (TestNet3Chain.lastNormal t (t.fuel b) b) t b = _
    rw [lastNormal_enough rep grown member]
    exact general _
  all_goals
    show nextWork _ (.ok b.bits) t b = _
    rw [← bits]
    exact general _

/-- The other two chains count the blocks, so that it does not matter where a block lies. -/
theorem nextWorkRequired_count (rep : Represents known t) (grown : Grown known) (member : b ∈ known)
    {kind : RetargetChain} (byCount : kind.rule? = none) :
    kind.nextWorkRequired t b = .ok (dogeBits (lineage known b.hash)) := by
  cases kind <;> simp only [rule?, reduceCtorEq] at byCount
  · exact dogecoin_known rep grown member
  · exact dogecoin_known rep grown member

/-- Neither the rule for the trunk nor the one for a branch makes the last block of a path a retarget, or the
retarget gives the bits that the chain asks for between retargets. -/
def NoRetarget (kind : RetargetChain) (path : List (BlockRef Hash)) : Prop :=
  ∀ rule, kind.rule? = some rule →
    (rule.interval ∣ pathDepth path + 1 →
      rule.newBits (headBits path) (timespan path (rule.blocksToGoBack (pathDepth path)).toNat) =
        kind.plainBits path) ∧
    (rule.interval ∣ pathDepth path - 1 →
      rule.newBits (headBits path) (timespan path (rule.blocksToGoBack (-pathDepth path)).toNat) =
        kind.plainBits path)

omit [LinearOrder Hash] in
theorem trunkBits_eq_branchBits {rule : Retarget} (regular : rule.Regular) {path : List (BlockRef Hash)}
    (positive : 0 < pathDepth path) (between : Int) :
    trunkBits rule between path = branchBits rule between path ↔
      (rule.interval ∣ pathDepth path + 1 →
        rule.newBits (headBits path) (timespan path (rule.blocksToGoBack (pathDepth path)).toNat) = between) ∧
      (rule.interval ∣ pathDepth path - 1 →
        rule.newBits (headBits path) (timespan path (rule.blocksToGoBack (-pathDepth path)).toNat) =
          between) := by
  have long := regular.interval
  unfold trunkBits branchBits
  rw [if_neg (by omega)]
  by_cases above : rule.interval ∣ pathDepth path + 1
  · -- the interval is longer than two, so that it cannot divide both
    have not : ¬rule.interval ∣ pathDepth path - 1 := by
      intro below
      have two : rule.interval ∣ 2 := by
        have difference := Int.dvd_sub above below
        rwa [show pathDepth path + 1 - (pathDepth path - 1) = 2 by ring] at difference
      exact absurd (Int.le_of_dvd (by decide) two) (by omega)
    rw [if_pos above, if_neg not]
    exact ⟨fun same => ⟨fun _ => same, fun below => absurd below not⟩, fun both => both.1 above⟩
  · rw [if_neg above]
    split
    · rename_i below
      exact ⟨fun same => ⟨fun divides => absurd divides above, fun _ => same.symm⟩, fun both =>
        (both.2 below).symm⟩
    · rename_i not
      exact ⟨fun _ => ⟨fun divides => absurd divides above, fun below => absurd below not⟩, fun _ => rfl⟩

/-- On the trunk of one tree and on a branch of another. -/
theorem nextWorkRequired_apart (rep : Represents known t) (grown : Grown known) (on : b ∈ t.trunk)
    (rep' : Represents known' t') (grown' : Grown known') (member' : b ∈ known') (off' : b ∉ t'.trunk)
    (same : lineage known b.hash = lineage known' b.hash) (kind : RetargetChain) :
    ∃ v v', kind.nextWorkRequired t b = .ok v ∧ kind.nextWorkRequired t' b = .ok v' ∧
      (v = v' ↔ kind.NoRetarget (lineage known b.hash)) := by
  have member := rep.trunk_known on
  cases byHeight : kind.rule? with
  | none =>
    refine ⟨_, _, nextWorkRequired_count rep grown member byHeight,
      nextWorkRequired_count rep' grown' member' byHeight, ?_⟩
    rw [same]
    refine ⟨fun _ rule some => ?_, fun _ => rfl⟩
    rw [byHeight] at some
    cases some
  | some rule =>
    have value := nextWorkRequired_rule rep grown member byHeight
    have value' := nextWorkRequired_rule rep' grown' member' byHeight
    rw [if_pos on] at value
    rw [if_neg off', ← same] at value'
    have positive : 0 < pathDepth (lineage known b.hash) := by
      rw [same]
      exact rep'.depth_pos grown' member' off'
    refine ⟨_, _, value, value', (trunkBits_eq_branchBits (rule?_regular byHeight) positive _).trans ?_⟩
    unfold NoRetarget
    rw [byHeight]
    exact ⟨fun both _ given => Option.some.inj given ▸ both, fun all => all rule rfl⟩

/-- On the same side of both trees. -/
theorem nextWorkRequired_alike (rep : Represents known t) (grown : Grown known) (member : b ∈ known)
    (rep' : Represents known' t') (grown' : Grown known') (member' : b ∈ known')
    (side : b ∈ t.trunk ↔ b ∈ t'.trunk) (same : lineage known b.hash = lineage known' b.hash)
    (kind : RetargetChain) :
    ∃ v, kind.nextWorkRequired t b = .ok v ∧ kind.nextWorkRequired t' b = .ok v := by
  cases byHeight : kind.rule? with
  | none =>
    refine ⟨_, nextWorkRequired_count rep grown member byHeight, ?_⟩
    rw [same]
    exact nextWorkRequired_count rep' grown' member' byHeight
  | some rule =>
    refine ⟨_, nextWorkRequired_rule rep grown member byHeight, ?_⟩
    rw [nextWorkRequired_rule rep' grown' member' byHeight, same]
    by_cases on : b ∈ t.trunk
    · rw [if_pos on, if_pos (side.mp on)]
    · rw [if_neg on, if_neg fun on' => on (side.mpr on')]

end RetargetChain

/-- A block with the same ancestors in two trees: the chains ask for the same work in both when it lies on the
trunk of both or on a branch of both. Otherwise they do exactly when there is no retarget by either rule. -/
theorem nextWorkRequired_iff [Zero Hash] (reached : Reached known t) (reached' : Reached known' t')
    (member : b ∈ known) (member' : b ∈ known') (same : lineage known b.hash = lineage known' b.hash)
    (kind : RetargetChain) :
    ∃ v v', kind.nextWorkRequired t b = .ok v ∧ kind.nextWorkRequired t' b = .ok v' ∧
      (v = v' ↔ (b ∈ t.trunk ↔ b ∈ t'.trunk) ∨ kind.NoRetarget (lineage known b.hash)) := by
  obtain ⟨grown, rep, -⟩ := reached.kept
  obtain ⟨grown', rep', -⟩ := reached'.kept
  by_cases on : b ∈ t.trunk <;> by_cases on' : b ∈ t'.trunk
  · obtain ⟨v, value, value'⟩ := RetargetChain.nextWorkRequired_alike rep grown member rep' grown' member'
      (iff_of_true on on') same kind
    exact ⟨v, v, value, value', iff_of_true rfl (.inl (iff_of_true on on'))⟩
  · obtain ⟨v, v', value, value', equal⟩ := RetargetChain.nextWorkRequired_apart rep grown on rep' grown' member'
      on' same kind
    refine ⟨v, v', value, value', equal.trans ⟨.inr, fun either => either.resolve_left fun side => ?_⟩⟩
    exact on' (side.mp on)
  · obtain ⟨v', v, value', value, equal⟩ := RetargetChain.nextWorkRequired_apart rep' grown' on' rep grown member
      on same.symm kind
    refine ⟨v, v', value, value', eq_comm.trans ((equal.trans (same ▸ Iff.rfl)).trans
      ⟨.inr, fun either => either.resolve_left fun side => on (side.mpr on')⟩)⟩
  · obtain ⟨v, value, value'⟩ := RetargetChain.nextWorkRequired_alike rep grown member rep' grown' member'
      (iff_of_false on on') same kind
    exact ⟨v, v, value, value', iff_of_true rfl (.inl (iff_of_false on on'))⟩

end Values

open Exec

/-- The first block of a branch is a retarget, as its height is minus one: Bitcoin asks for a quarter of the
target that it asks for when the same block lies on the trunk. -/
theorem nextWorkRequired_siblings :
    ∃ t t', Reached [rightRef, leftRef, genesisRef] t ∧ Reached [rightRef, genesisRef] t' ∧
      lineage [rightRef, leftRef, genesisRef] rightRef.hash = lineage [rightRef, genesisRef] rightRef.hash ∧
      BitcoinChain.nextWorkRequired t rightRef = .ok 0x1c3fffc0 ∧
      BitcoinChain.nextWorkRequired t' rightRef = .ok 0x1d00ffff := by
  have run : (do
      let t ← (grow [genesisRef] [leftRef, rightRef]).toOption
      (BitcoinChain.nextWorkRequired t rightRef).toOption) = some 0x1c3fffc0 := by decide +kernel
  have run' : (do
      let t ← (grow [genesisRef] [rightRef]).toOption
      (BitcoinChain.nextWorkRequired t rightRef).toOption) = some 0x1d00ffff := by decide +kernel
  obtain ⟨t, grew, value⟩ := Option.bind_eq_some_iff.mp run
  obtain ⟨t', grew', value'⟩ := Option.bind_eq_some_iff.mp run'
  have offered : Offered [genesisRef] [rightRef] := @Offered.snoc _ _ [] rightRef .nil (by decide) (by decide)
  refine ⟨t, t', ?_, ?_, by decide, toOption_eq_some.mp value, toOption_eq_some.mp value'⟩
  · exact .grow linked_genesis offered_siblings (toOption_eq_some.mp grew)
  · exact .grow linked_genesis offered (toOption_eq_some.mp grew')

/-- A block on the first of the two siblings. -/
def overLeftRef : BlockRef Uint256 := { version := 1, hash := 8, prev := 5, time := 7, bits := 0x1d00ffff }

theorem offered_overLeft : Offered [genesisRef] [leftRef, overLeftRef, rightRef, topRef] :=
  @Offered.snoc _ _ [leftRef, overLeftRef, rightRef] topRef
    (@Offered.snoc _ _ [leftRef, overLeftRef] rightRef
      (@Offered.snoc _ _ [leftRef] overLeftRef (@Offered.snoc _ _ [] leftRef .nil (by decide) (by decide))
        (by decide) (by decide)) (by decide) (by decide)) (by decide) (by decide)

/-- The second block of a fork asks for the same work on the trunk and on a branch. -/
theorem nextWorkRequired_fork :
    ∃ (t t' : BlockTree Uint256) (v : Int), topRef ∈ t.trunk ∧ topRef ∉ t'.trunk ∧
      RetargetChain.bitcoin.nextWorkRequired t topRef = .ok v ∧
      RetargetChain.bitcoin.nextWorkRequired t' topRef = .ok v := by
  have run : (do
      let t ← (grow [genesisRef] [leftRef, rightRef, topRef]).toOption
      return t.trunk) = some [genesisRef, rightRef, topRef] := by decide +kernel
  have run' : (do
      let t ← (grow [genesisRef] [leftRef, overLeftRef, rightRef, topRef]).toOption
      return t.trunk) = some [genesisRef, leftRef, overLeftRef] := by decide +kernel
  obtain ⟨t, grew, trunk⟩ := Option.bind_eq_some_iff.mp run
  obtain ⟨t', grew', trunk'⟩ := Option.bind_eq_some_iff.mp run'
  have trunk : t.trunk = [genesisRef, rightRef, topRef] := Option.some.inj trunk
  have trunk' : t'.trunk = [genesisRef, leftRef, overLeftRef] := Option.some.inj trunk'
  have reached := Reached.grow linked_genesis offered_fork (toOption_eq_some.mp grew)
  have reached' := Reached.grow linked_genesis offered_overLeft (toOption_eq_some.mp grew')
  have plain : RetargetChain.bitcoin.NoRetarget [topRef, rightRef, genesisRef] := by
    intro rule byHeight
    obtain rfl : BitcoinChain.retarget = rule := Option.some.inj byHeight
    exact ⟨fun divides => absurd divides (by decide), fun divides => absurd divides (by decide)⟩
  obtain ⟨v, v', value, value', equal⟩ := nextWorkRequired_iff
    (b := topRef) reached reached' (by decide) (by decide)
    (by decide) RetargetChain.bitcoin
  refine ⟨t, t', v, ?_, ?_, value, ?_⟩
  · rw [trunk]
    decide
  · rw [trunk']
    decide
  · rw [equal.mpr (.inr plain)]
    exact value'

end BlockTree

end Libcoin
