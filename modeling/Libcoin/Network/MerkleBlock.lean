/-
`MerkleBlock`: a block of which only the transactions that match are told, with a partial merkle tree.

* `traverseAndBuild` writes the tree depth first as bits and hashes, `traverseAndExtract` reads it with a
  `Cursor`.
* `ofMatches` is the constructor after its loop over the transactions, for any pattern of matches, and `new` all
  of it.
* `extract_build` and `extract_sound` are the inductions over the tree: what is built is extracted, and of a tree
  with the root of a block nothing is extracted but its leaves, in their order.

A tree is not wider than the number of transactions, so that nothing wraps.
-/

import Libcoin.Library.HashTree
import Libcoin.Ledger.Merkle
import Libcoin.Network.BloomFilter

namespace Libcoin

open Reader HashTree

/-- The members of `MerkleBlock`. -/
structure MerkleBlock extends BlockHeader where
  transactions : Nat
  matchBits : List Bool
  hashes : List Uint256
  bad : Bool
  matchedTxes : List (Nat × Uint256)
  deriving DecidableEq, Repr

namespace MerkleBlock

/-- `calcTreeWidth`. -/
def calcTreeWidth (transactions height : Nat) : Nat := (transactions + 1 <<< height - 1) >>> height

/-! ### Building -/

/-- `calcHash`. -/
def calcHash (prim : Primitives) (txids : List Uint256) : Nat → Nat → Uint256
  | 0, pos => txids.getD pos 0
  | height + 1, pos =>
    let left := calcHash prim txids height (pos * 2)
    let right :=
      if pos * 2 + 1 < calcTreeWidth txids.length height then calcHash prim txids height (pos * 2 + 1) else left
    prim.pairHash left right

/-- The loop of `traverseAndBuild`: the node is the parent of a matched transaction. -/
def parentOfMatch (vMatch : List Bool) (transactions height pos : Nat) : Bool :=
  (List.range' (pos <<< height) (min ((pos + 1) <<< height) transactions - pos <<< height)).any fun p =>
    vMatch.getD p false

/-- `traverseAndBuild`: the bits and the hashes that are pushed. -/
def traverseAndBuild (prim : Primitives) (txids : List Uint256) (vMatch : List Bool) :
    Nat → Nat → List Bool × List Uint256
  | 0, pos => ([parentOfMatch vMatch txids.length 0 pos], [calcHash prim txids 0 pos])
  | height + 1, pos =>
    if parentOfMatch vMatch txids.length (height + 1) pos then
      let (leftBits, leftHashes) := traverseAndBuild prim txids vMatch height (pos * 2)
      let (rightBits, rightHashes) :=
        if pos * 2 + 1 < calcTreeWidth txids.length height then
          traverseAndBuild prim txids vMatch height (pos * 2 + 1)
        else ([], [])
      (true :: (leftBits ++ rightBits), leftHashes ++ rightHashes)
    else ([false], [calcHash prim txids (height + 1) pos])

/-- The constructor, for a pattern of matched transactions. -/
def ofMatches (prim : Primitives) (block : Block) (vMatch : List Bool) : MerkleBlock :=
  let txids := block.transactions.map prim.txnHash
  let tree := traverseAndBuild prim txids vMatch (height txids.length) 0
  { block.toBlockHeader with
    transactions := txids.length, matchBits := tree.1, hashes := tree.2, bad := false
    matchedTxes := ((txids.zipIdx.zip vMatch).filter Prod.snd).map fun ((hash, i), _) => (i, hash) }

/-- The loop of the constructor over the transactions: which of them match, and the filter after it. -/
def matchTxns (prim : Primitives) (paysToKeys : Script → Bool) :
    List Transaction → BloomFilter → Option (List Bool × BloomFilter)
  | [], filter => some ([], filter)
  | txn :: txns, filter => do
    let (relevant, _, filter) ← filter.isRelevantAndUpdate prim.txnHash paysToKeys txn
    let (vMatch, filter) ← matchTxns prim paysToKeys txns filter
    return (relevant :: vMatch, filter)

/-- The constructor. -/
def new (prim : Primitives) (paysToKeys : Script → Bool) (block : Block) (filter : BloomFilter) :
    Option (MerkleBlock × BloomFilter) := do
  let (vMatch, filter) ← matchTxns prim paysToKeys block.transactions filter
  return (ofMatches prim block vMatch, filter)

/-! ### Extracting -/

/-- What `traverseAndExtract` changes. -/
structure Cursor where
  bitsUsed : Nat
  hashUsed : Nat
  matched : List Uint256
  bad : Bool
  deriving DecidableEq, Repr

/-- The next hash is used, as that of a matched transaction or not. -/
def useHash (mb : MerkleBlock) (matched : Bool) (c : Cursor) : Uint256 × Cursor :=
  match mb.hashes[c.hashUsed]? with
  | none => (0, { c with bad := true })
  | some hash =>
    (hash, { c with hashUsed := c.hashUsed + 1, matched := if matched then c.matched ++ [hash] else c.matched })

/-- `traverseAndExtract`. -/
def traverseAndExtract (prim : Primitives) (mb : MerkleBlock) : Nat → Nat → Cursor → Uint256 × Cursor
  | 0, _, c =>
    match mb.matchBits[c.bitsUsed]? with
    | none => (0, { c with bad := true })
    | some parentOfMatch => mb.useHash parentOfMatch { c with bitsUsed := c.bitsUsed + 1 }
  | height + 1, pos, c =>
    match mb.matchBits[c.bitsUsed]? with
    | none => (0, { c with bad := true })
    | some false => mb.useHash false { c with bitsUsed := c.bitsUsed + 1 }
    | some true =>
      let (left, c) := traverseAndExtract prim mb height (pos * 2) { c with bitsUsed := c.bitsUsed + 1 }
      let (right, c) :=
        if pos * 2 + 1 < calcTreeWidth mb.transactions height then traverseAndExtract prim mb height
          (pos * 2 + 1) c
        else (left, c)
      (prim.pairHash left right, c)

/-- `extractMatches`: the root or 0, the transactions, and the object. -/
def extractMatches (prim : Primitives) (mb : MerkleBlock) : Uint256 × List Uint256 × MerkleBlock :=
  if mb.transactions = 0 then (0, [], mb)
  else if 1000000 / 60 < mb.transactions then (0, [], mb)
  else if mb.transactions < mb.hashes.length then (0, [], mb)
  else if mb.matchBits.length < mb.hashes.length then (0, [], mb)
  else
    let (root, c) := traverseAndExtract prim mb (height mb.transactions) 0
      { bitsUsed := 0, hashUsed := 0, matched := [], bad := mb.bad }
    let mb := { mb with bad := c.bad }
    if c.bad then (0, c.matched, mb)
    else if (c.bitsUsed + 7) / 8 ≠ (mb.matchBits.length + 7) / 8 then (0, c.matched, mb)
    else if c.hashUsed ≠ mb.hashes.length then (0, c.matched, mb)
    else (root, c.matched, mb)

/-! ### The wire -/

/-- `operator<<`. -/
def write (mb : MerkleBlock) : Data :=
  writeHeader mb.toBlockHeader ++ (writeInt 4 mb.transactions ++ (writeVector writeHash mb.hashes ++
    writeVector writeByte (packBits mb.matchBits)))

/-- `operator>>` into the object of the null block. -/
def read : Reader MerkleBlock :=
  (fun read =>
    { read.1 with
      transactions := read.2.1.toNat, matchBits := unpackBits read.2.2.2, hashes := read.2.2.1, bad := false
      matchedTxes := [] }) <$>
    readHeader.pair ((readUnsigned 4 0).pair ((readVector readHash).pair (readVector readByte)))

/-! ### Nodes -/

section Nodes

variable {prim : Primitives} {txids : List Uint256} {vMatch : List Bool} {h pos : Nat}

@[simp] theorem calcTreeWidth_eq (transactions h : Nat) :
  calcTreeWidth transactions h = width transactions h := by
  unfold calcTreeWidth width
  rw [Nat.shiftRight_eq_div_pow, Nat.shiftLeft_eq, one_mul]

/-- `calcHash` is the node that `buildMerkleTree` has there. -/
theorem calcHash_eq (inside : pos < width txids.length h) :
    calcHash prim txids h pos = nodeAt prim.pairHash 0 txids h pos := by
  induction h generalizing pos with
  | zero => rfl
  | succ h ih =>
    have left : pos * 2 < width txids.length h := by
      rw [width_succ] at inside
      omega
    rw [nodeAt_succ _ _ _ inside]
    unfold calcHash
    dsimp only
    rw [calcTreeWidth_eq, ih left]
    split
    · next right => rw [ih right]
    · rfl

/-- The transactions that match. -/
def matchedOf (pairs : List (Uint256 × Bool)) : List Uint256 := (pairs.filter Prod.snd).map Prod.fst

theorem matchedOf_append (pairs others : List (Uint256 × Bool)) :
    matchedOf (pairs ++ others) = matchedOf pairs ++ matchedOf others := by
  rw [matchedOf, List.filter_append, List.map_append, matchedOf, matchedOf]

theorem matchedOf_singleton (pair : Uint256 × Bool) : matchedOf [pair] = if pair.2 then [pair.1] else [] := by
  obtain ⟨hash, found⟩ := pair
  cases found <;> rfl

/-- A node is the parent of a match if a leaf below it matches. -/
theorem parentOfMatch_eq (long : vMatch.length = txids.length) (h pos : Nat) :
    parentOfMatch vMatch txids.length h pos = (leavesUnder (txids.zip vMatch) h pos).any Prod.snd := by
  have last : (pos + 1) <<< h = pos * 2 ^ h + 2 ^ h := by rw [Nat.shiftLeft_eq, Nat.succ_mul]
  unfold parentOfMatch leavesUnder
  rw [last, Nat.shiftLeft_eq, Bool.eq_iff_iff, List.any_eq_true, List.any_eq_true]
  constructor
  · rintro ⟨p, range, found⟩
    rw [List.mem_range'_1] at range
    have own : p < vMatch.length := by omega
    have leaf : p < txids.length := long ▸ own
    refine ⟨(txids[p], vMatch[p]), List.mem_iff_getElem?.mpr ⟨p - pos * 2 ^ h, ?_⟩, ?_⟩
    · rw [List.getElem?_take_of_lt (by omega), List.getElem?_drop, Nat.add_sub_of_le range.1,
        List.getElem?_zip_eq_some]
      exact ⟨List.getElem?_eq_getElem leaf, List.getElem?_eq_getElem own⟩
    · rwa [List.getD_eq_getElem _ _ own] at found
  · rintro ⟨pair, member, found⟩
    obtain ⟨i, at_⟩ := List.mem_iff_getElem?.mp member
    rw [List.getElem?_take] at at_
    split at at_
    · rw [List.getElem?_drop, List.getElem?_zip_eq_some] at at_
      obtain ⟨own, -⟩ := List.getElem?_eq_some_iff.mp at_.2
      refine ⟨pos * 2 ^ h + i, List.mem_range'_1.mpr (by omega), ?_⟩
      rw [List.getD_eq_getElem?_getD, at_.2]
      exact found
    · cases at_

theorem matchedOf_eq_nil {pairs : List (Uint256 × Bool)} (none : pairs.any Prod.snd = false) :
    matchedOf pairs = [] := by
  rw [matchedOf, List.map_eq_nil_iff, List.filter_eq_nil_iff]
  exact fun pair member => Bool.not_eq_true _ ▸ List.any_eq_false.mp none pair member

end Nodes

/-! ### What is built is extracted -/

section Built

variable {prim : Primitives} {txids : List Uint256} {vMatch : List Bool} {h pos : Nat} {mb : MerkleBlock}

/-- The bits and hashes of a node come next. -/
structure Next (mb : MerkleBlock) (c : Cursor) (tree : List Bool × List Uint256) (moreBits : List Bool)
    (moreHashes : List Uint256) : Prop where
  bits : mb.matchBits.drop c.bitsUsed = tree.1 ++ moreBits
  hashes : mb.hashes.drop c.hashUsed = tree.2 ++ moreHashes

/-- The cursor after so many bits and hashes. -/
def Cursor.advance (c : Cursor) (tree : List Bool × List Uint256) (matched : List Uint256) : Cursor :=
  { c with
    bitsUsed := c.bitsUsed + tree.1.length, hashUsed := c.hashUsed + tree.2.length
    matched := c.matched ++ matched }

theorem getElem?_of_drop {A : Type} {values rest : List A} {i : Nat} {a : A} (next : values.drop i = a :: rest) :
    values[i]? = some a := by
  have first : (values.drop i)[0]? = some a := by rw [next]; rfl
  rwa [List.getElem?_drop, Nat.add_zero] at first

theorem drop_of_drop {A : Type} {values taken rest : List A} {i : Nat} (next : values.drop i = taken ++ rest) :
    values.drop (i + taken.length) = rest := by
  rw [← List.drop_drop, next, List.drop_left]

/-- A hash that comes next is used. -/
theorem useHash_next {c : Cursor} {hash : Uint256} {rest : List Uint256} (matched : Bool)
    (next : mb.hashes.drop c.hashUsed = hash :: rest) :
    mb.useHash matched c =
      (hash, { c with hashUsed := c.hashUsed + 1, matched := c.matched ++ if matched then [hash] else [] }) := by
  unfold useHash
  rw [getElem?_of_drop next]
  cases matched
  · simp
  · rfl

/-- **What is built for a node is extracted**: its hash, and the matched transactions below it. -/
theorem extract_build (long : vMatch.length = txids.length) (all : mb.transactions = txids.length)
    (inside : pos < width txids.length h) {c : Cursor} {moreBits : List Bool} {moreHashes : List Uint256}
    (next : Next mb c (traverseAndBuild prim txids vMatch h pos) moreBits moreHashes) :
    traverseAndExtract prim mb h pos c =
      (nodeAt prim.pairHash 0 txids h pos,
        c.advance (traverseAndBuild prim txids vMatch h pos)
          (matchedOf (leavesUnder (txids.zip vMatch) h pos))) := by
  induction h generalizing pos c moreBits moreHashes with
  | zero =>
    obtain ⟨bits, hashes⟩ := next
    rw [width_zero] at inside
    have both : pos < (txids.zip vMatch).length := by
      rw [List.length_zip]
      omega
    have leaf := parentOfMatch_eq long 0 pos
    rw [leavesUnder_leaf (0, false) both] at leaf ⊢
    have id : ((txids.zip vMatch).getD pos (0, false)).1 = txids.getD pos 0 := by
      rw [List.getD_eq_getElem _ _ both, List.getD_eq_getElem _ _ inside, List.getElem_zip]
    unfold traverseAndExtract
    rw [getElem?_of_drop bits]
    dsimp only
    rw [useHash_next (c := { c with bitsUsed := c.bitsUsed + 1 }) _ hashes, leaf]
    rw [matchedOf_singleton, id, List.any_cons, List.any_nil, Bool.or_false]
    rfl
  | succ h ih =>
    have leaves := parentOfMatch_eq long (h + 1) pos
    by_cases parent : parentOfMatch vMatch txids.length (h + 1) pos = true
    · have left : pos * 2 < width txids.length h := by
        rw [width_succ] at inside
        omega
      unfold traverseAndBuild at next ⊢
      rw [if_pos parent, calcTreeWidth_eq] at next ⊢
      dsimp only at next ⊢
      obtain ⟨bits, hashes⟩ := next
      rw [List.cons_append, List.append_assoc] at bits
      rw [List.append_assoc] at hashes
      have afterBit := @drop_of_drop Bool _ [true] _ _ bits
      have first := ih left (c := { c with bitsUsed := c.bitsUsed + 1 }) ⟨afterBit, hashes⟩
      have restBits := drop_of_drop afterBit
      have restHashes := drop_of_drop hashes
      unfold traverseAndExtract
      rw [getElem?_of_drop bits]
      dsimp only
      rw [first, calcTreeWidth_eq, all, nodeAt_succ _ _ _ inside, leavesUnder_succ, matchedOf_append]
      by_cases right : pos * 2 + 1 < width txids.length h
      · rw [if_pos right] at restBits restHashes
        have second := ih right (c := Cursor.advance { c with bitsUsed := c.bitsUsed + 1 }
          (traverseAndBuild prim txids vMatch h (pos * 2))
            (matchedOf (leavesUnder (txids.zip vMatch) h (pos * 2))))
          ⟨restBits, restHashes⟩
        rw [if_pos right, if_pos right, if_pos right, second]
        simp [Cursor.advance, Nat.add_assoc, Nat.add_comm 1]
      · have outside : ¬pos * 2 + 1 < width (txids.zip vMatch).length h := by
          rwa [List.length_zip, long, Nat.min_self]
        rw [if_neg right, if_neg right, if_neg right, leavesUnder_outside outside]
        simp [Cursor.advance, Nat.add_assoc, Nat.add_comm 1, matchedOf]
    · have built : traverseAndBuild prim txids vMatch (h + 1) pos = ([false],
        [calcHash prim txids (h + 1) pos]) :=
        if_neg parent
      rw [built] at next ⊢
      have none : matchedOf (leavesUnder (txids.zip vMatch) (h + 1) pos) = [] :=
        matchedOf_eq_nil (leaves ▸ Bool.eq_false_iff.mpr parent)
      unfold traverseAndExtract
      rw [getElem?_of_drop next.bits]
      dsimp only
      rw [useHash_next (c := { c with bitsUsed := c.bitsUsed + 1 }) false next.hashes, none, calcHash_eq inside]
      rfl

/-- There are not more hashes than leaves. -/
theorem build_hashes_le (prim : Primitives) (txids : List Uint256) (vMatch : List Bool)
    (inside : pos < width txids.length h) :
    (traverseAndBuild prim txids vMatch h pos).2.length ≤ (leavesUnder txids h pos).length := by
  induction h generalizing pos with
  | zero => exact leavesUnder_pos inside
  | succ h ih =>
    unfold traverseAndBuild
    split
    · have left : pos * 2 < width txids.length h := by
        rw [width_succ] at inside
        omega
      have first := ih left
      dsimp only
      rw [calcTreeWidth_eq, leavesUnder_succ, List.length_append, List.length_append]
      by_cases right : pos * 2 + 1 < width txids.length h
      · have second := ih right
        rw [if_pos right]
        omega
      · rw [if_neg right]
        exact Nat.add_le_add first (Nat.zero_le _)
    · exact leavesUnder_pos inside

/-- There are not more hashes than bits, and not more bits than nodes. -/
theorem build_bits (prim : Primitives) (txids : List Uint256) (vMatch : List Bool) (h pos : Nat) :
    (traverseAndBuild prim txids vMatch h pos).2.length ≤ (traverseAndBuild prim txids vMatch h pos).1.length ∧
      (traverseAndBuild prim txids vMatch h pos).1.length < 2 ^ (h + 1) := by
  induction h generalizing pos with
  | zero => exact ⟨le_rfl, Nat.one_lt_two⟩
  | succ h ih =>
    have power : 2 ^ (h + 1 + 1) = 2 ^ (h + 1) + 2 ^ (h + 1) := Nat.pow_succ' ▸ Nat.two_mul _
    have positive := Nat.two_pow_pos (h + 1)
    unfold traverseAndBuild
    split
    · obtain ⟨hashes, bits⟩ := ih (pos * 2)
      dsimp only
      split
      · obtain ⟨hashes', bits'⟩ := ih (pos * 2 + 1)
        rw [List.length_cons, List.length_append, List.length_append]
        omega
      · rw [List.length_cons, List.append_nil, List.append_nil]
        omega
    · exact ⟨le_rfl, by rw [List.length_singleton]; omega⟩

end Built

/-! ### Filtered blocks -/

section Filtered

variable {prim : Primitives} {block : Block} {txids : List Uint256} {vMatch : List Bool}

/-- The object that is read: the bits up to the end of the last byte. -/
def padded (mb : MerkleBlock) : MerkleBlock :=
  { mb with matchBits := unpackBits (packBits mb.matchBits), bad := false, matchedTxes := [] }

theorem read_back {mb : MerkleBlock} (header : mb.toBlockHeader.Typed) (transactions : mb.transactions < 256 ^ 4)
    (hashes : mb.hashes.length ≤ maxVarint) (bits : (mb.matchBits.length + 7) / 8 ≤ maxVarint) (rest : Data) :
    read { bytes := mb.write ++ rest, good := true } = some (mb.padded, { bytes := rest, good := true }) := by
  have number : FitsUnsigned 4 (mb.transactions : Int) := ⟨Int.natCast_nonneg _, by exact_mod_cast transactions⟩
  have bytes : (packBits mb.matchBits).length ≤ maxVarint := packBits_length mb.matchBits ▸ bits
  have back := (readHeader_back.pair ((@readUnsigned_back _ 0).pair (readHash_back.vector.pair
    readByte_back.vector))) (mb.toBlockHeader, (mb.transactions : Int), mb.hashes, packBits mb.matchBits)
    ⟨header, number, ⟨hashes, fun _ _ => trivial⟩, bytes, fun _ _ => trivial⟩ rest
  unfold read
  refine map_eq_some.mpr ⟨_, back, ?_⟩
  unfold padded
  dsimp only
  rw [Int.toNat_natCast]

/-- What the passed checks of `extractMatches` give. -/
theorem extractMatches_eq {mb : MerkleBlock} {c : Cursor} {root : Uint256} (some : mb.transactions ≠ 0)
    (few : mb.transactions ≤ 16666) (hashes : mb.hashes.length ≤ mb.transactions)
    (bits : mb.hashes.length ≤ mb.matchBits.length)
    (run : traverseAndExtract prim mb (height mb.transactions) 0
      { bitsUsed := 0, hashUsed := 0, matched := [], bad := mb.bad } = (root, c))
    (good : c.bad = false) (allBits : (c.bitsUsed + 7) / 8 = (mb.matchBits.length + 7) / 8)
    (allHashes : c.hashUsed = mb.hashes.length) :
    mb.extractMatches prim = (root, c.matched, { mb with bad := false }) := by
  unfold extractMatches
  rw [if_neg some, if_neg (by omega), if_neg (by omega), if_neg (by omega), run]
  dsimp only
  rw [good, if_neg Bool.false_ne_true, if_neg (not_not.mpr allBits), if_neg (not_not.mpr allHashes)]

/-- The tree over some transactions is within the bounds of what is read. -/
theorem tree_bounds (prim : Primitives) (vMatch : List Bool) (positive : 1 ≤ txids.length)
    (few : txids.length ≤ 16666) :
    (traverseAndBuild prim txids vMatch (height txids.length) 0).2.length ≤ txids.length ∧
      (traverseAndBuild prim txids vMatch (height txids.length) 0).2.length ≤
        (traverseAndBuild prim txids vMatch (height txids.length) 0).1.length ∧
      (traverseAndBuild prim txids vMatch (height txids.length) 0).1.length < 2 ^ 16 := by
  have low : height txids.length ≤ 15 := by
    by_contra high
    have wide := (height_spec txids.length).2 15 (Nat.lt_of_not_le high)
    have narrow : width txids.length 15 ≤ 1 := width_le_one (few.trans (by decide))
    omega
  obtain ⟨hashes, bits⟩ := build_bits prim txids vMatch (height txids.length) 0
  have leaves := build_hashes_le prim txids vMatch (width_pos positive (height txids.length))
  rw [leavesUnder_root] at leaves
  exact ⟨leaves, hashes, Nat.lt_of_lt_of_le bits (Nat.pow_le_pow_right (by decide) (by omega))⟩

/-- A tree with zeros up to the end of the last byte passes the checks. -/
theorem extractMatches_tree {mb : MerkleBlock} (long : vMatch.length = txids.length) (positive : 1 ≤ txids.length)
    (few : txids.length ≤ 16666) (all : mb.transactions = txids.length)
    (hashes : mb.hashes = (traverseAndBuild prim txids vMatch (height txids.length) 0).2)
    (bits : mb.matchBits = unpackBits (packBits (traverseAndBuild prim txids vMatch (height txids.length) 0).1))
    (good : mb.bad = false) :
    mb.extractMatches prim =
      (nodeAt prim.pairHash 0 txids (height txids.length) 0, matchedOf (txids.zip vMatch), mb) := by
  obtain ⟨fewHashes, fewerHashes, -⟩ := tree_bounds prim vMatch positive few
  rw [unpackBits_packBits] at bits
  have run := extract_build (c := { bitsUsed := 0, hashUsed := 0, matched := [], bad := mb.bad }) long all
    (width_pos positive (height txids.length)) ⟨bits, (hashes.trans (List.append_nil _).symm)⟩
  rw [← all] at run
  have result := extractMatches_eq (show mb.transactions ≠ 0 by omega) (all ▸ few)
    (show mb.hashes.length ≤ mb.transactions by rw [hashes, all]; exact fewHashes)
    (show mb.hashes.length ≤ mb.matchBits.length by rw [hashes, bits, List.length_append]; omega) run good
    (by
      show (0 + (traverseAndBuild prim txids vMatch (height mb.transactions) 0).1.length + 7) / 8 = _
      rw [bits, List.length_append, List.length_replicate, all]
      omega)
    (by
      show 0 + (traverseAndBuild prim txids vMatch (height mb.transactions) 0).2.length = _
      rw [hashes, all, Nat.zero_add])
  have leaves : leavesUnder (txids.zip vMatch) (height txids.length) 0 = txids.zip vMatch := by
    have root := leavesUnder_root (txids.zip vMatch)
    rwa [List.length_zip, long, Nat.min_self] at root
  have same : { mb with bad := false } = mb := by rw [← good]
  rw [result, same, all, leaves]
  rfl

/-- The loop of the constructor gives a pattern. -/
theorem matchTxns_length {paysToKeys : Script → Bool} {txns : List Transaction} {filter filter' : BloomFilter}
    (run : matchTxns prim paysToKeys txns filter = some (vMatch, filter')) : vMatch.length = txns.length := by
  induction txns generalizing filter vMatch with
  | nil =>
    obtain ⟨rfl, -⟩ := Prod.mk.inj (Option.some.inj run)
    rfl
  | cons txn txns ih =>
    obtain ⟨⟨relevant, keys, filter₁⟩, -, run⟩ := Option.bind_eq_some_iff.mp run
    obtain ⟨⟨rest, filter₂⟩, later, same⟩ := Option.bind_eq_some_iff.mp run
    obtain ⟨rfl, rfl⟩ := Prod.mk.inj (Option.some.inj same)
    exact congrArg (· + 1) (ih later)

/-- The ids of the matched transactions, in the order of the block. -/
def matchedIds (prim : Primitives) (block : Block) (vMatch : List Bool) : List Uint256 :=
  ((block.transactions.zip vMatch).filter Prod.snd).map fun txn => prim.txnHash txn.1

theorem matchedOf_eq (prim : Primitives) (block : Block) (vMatch : List Bool) :
    matchedOf ((block.transactions.map prim.txnHash).zip vMatch) = matchedIds prim block vMatch := by
  unfold matchedOf matchedIds
  rw [List.zip_map_left, List.filter_map, List.map_map]
  rfl

/-- The transactions that the constructor notes are those of the pattern. -/
theorem ofMatches_matchedTxes (prim : Primitives) (block : Block) (vMatch : List Bool) :
    (ofMatches prim block vMatch).matchedTxes.map Prod.snd = matchedIds prim block vMatch := by
  rw [← matchedOf_eq]
  show (((((block.transactions.map prim.txnHash).zipIdx).zip vMatch).filter Prod.snd).map _).map Prod.snd = _
  generalize block.transactions.map prim.txnHash = txids
  have noted (first : Nat) : ((((txids.zipIdx first).zip vMatch).filter Prod.snd).map fun ((hash, i), _) =>
      (i, hash)).map Prod.snd = matchedOf (txids.zip vMatch) := by
    induction txids generalizing first vMatch with
    | nil => rfl
    | cons hash txids ih =>
      cases vMatch with
      | nil => rfl
      | cons found vMatch =>
        cases found
        · exact ih vMatch (first + 1)
        · exact congrArg (hash :: ·) (ih vMatch (first + 1))
  exact noted 0

/-- **A block that is built and read back gives its root and the matched transactions.** -/
theorem extractMatches_padded (prim : Primitives) (long : vMatch.length = block.transactions.length)
    (positive : 1 ≤ block.transactions.length) (few : block.transactions.length ≤ 16666) :
    (ofMatches prim block vMatch).padded.extractMatches prim =
      (block.buildMerkleTree prim, matchedIds prim block vMatch, (ofMatches prim block vMatch).padded) := by
  have count : (block.transactions.map prim.txnHash).length = block.transactions.length := List.length_map ..
  have built := @extractMatches_tree prim (block.transactions.map prim.txnHash) vMatch
    (ofMatches prim block vMatch).padded (long.trans count.symm) (by rw [count]; exact positive)
    (by rw [count]; exact few) rfl rfl rfl rfl
  have root : block.buildMerkleTree prim = nodeAt prim.pairHash 0 (block.transactions.map prim.txnHash)
      (height (block.transactions.map prim.txnHash).length) 0 :=
    merkleRoot_eq_nodeAt (count ▸ height_le _) (height_spec _).2 (height_spec _).1
  rw [built, matchedOf_eq, root]

/-- **A block that is filtered, written and read back gives its merkle root and the ids of exactly the matched
transactions, in the order of the block**, for every pattern of matches and so for that of a filter. -/
theorem extractMatches_built (prim : Primitives) (block : Block) (typed : block.toBlockHeader.Typed)
    (positive : 1 ≤ block.transactions.length) (few : block.transactions.length ≤ 16666) :
    (∀ vMatch : List Bool, vMatch.length = block.transactions.length → ∀ rest, ∃ mb,
      read { bytes := (ofMatches prim block vMatch).write ++ rest, good := true } =
        some (mb, { bytes := rest, good := true }) ∧
      (mb.extractMatches prim).1 = block.buildMerkleTree prim ∧
      (mb.extractMatches prim).2.1 =
        ((block.transactions.zip vMatch).filter Prod.snd).map fun txn => prim.txnHash txn.1) ∧
    (∀ paysToKeys filter sent filter', new prim paysToKeys block filter = some (sent, filter') → ∀ rest, ∃ mb,
      read { bytes := sent.write ++ rest, good := true } = some (mb, { bytes := rest, good := true }) ∧
      (mb.extractMatches prim).1 = block.buildMerkleTree prim ∧
      (mb.extractMatches prim).2.1 = sent.matchedTxes.map Prod.snd) := by
  have pattern (vMatch : List Bool) (long : vMatch.length = block.transactions.length) (rest : Data) : ∃ mb,
      read { bytes := (ofMatches prim block vMatch).write ++ rest, good := true } =
        some (mb, { bytes := rest, good := true }) ∧
      (mb.extractMatches prim).1 = block.buildMerkleTree prim ∧
      (mb.extractMatches prim).2.1 = matchedIds prim block vMatch := by
    have count : (block.transactions.map prim.txnHash).length = block.transactions.length := List.length_map ..
    obtain ⟨hashes, -, bits⟩ := @tree_bounds (block.transactions.map prim.txnHash) prim vMatch
      (by rw [count]; exact positive) (by rw [count]; exact few)
    have back : read { bytes := (ofMatches prim block vMatch).write ++ rest, good := true } =
        some ((ofMatches prim block vMatch).padded, { bytes := rest, good := true }) := by
      refine read_back typed ?_ ?_ ?_ rest
      · show (block.transactions.map prim.txnHash).length < 256 ^ 4
        omega
      · show (traverseAndBuild prim (block.transactions.map prim.txnHash) vMatch _ 0).2.length ≤ maxVarint
        unfold maxVarint
        omega
      · show ((traverseAndBuild prim (block.transactions.map prim.txnHash) vMatch _ 0).1.length + 7) / 8 ≤
          maxVarint
        unfold maxVarint
        omega
    refine ⟨_, back, ?_⟩
    rw [extractMatches_padded prim long positive few]
    exact ⟨rfl, rfl⟩
  refine ⟨pattern, fun paysToKeys filter sent filter' built rest => ?_⟩
  obtain ⟨⟨vMatch, filter₁⟩, loop, same⟩ := Option.bind_eq_some_iff.mp built
  obtain ⟨rfl, -⟩ := Prod.mk.inj (Option.some.inj same)
  rw [ofMatches_matchedTxes]
  exact pattern vMatch (matchTxns_length loop) rest

end Filtered

end MerkleBlock

namespace Small

/-- A block with three transactions. -/
def threeTxns : Block :=
  block 1 0 [{ noTxn with version := 1 }, { noTxn with version := 2 }, { noTxn with version := 3 }]

theorem threeTxns_typed : threeTxns.toBlockHeader.Typed := ⟨by decide, by decide, by decide, by decide⟩

end Small

namespace MerkleBlock

open Libcoin.Small in
/-- The second and the third of three transactions match. -/
theorem extractMatches_built_three : ∃ mb,
    read { bytes := (ofMatches pairing threeTxns [false, true, true]).write ++ [7], good := true } =
      some (mb, { bytes := [7], good := true }) ∧
    (mb.extractMatches pairing).1 = threeTxns.buildMerkleTree pairing ∧
      (mb.extractMatches pairing).2.1 = [2, 3] :=
  (extractMatches_built pairing threeTxns threeTxns_typed (by decide) (by decide)).1 [false, true, true] rfl [7]

/-! ### Trees of others -/

section Others

variable {prim : Primitives} {mb : MerkleBlock} {txids : List Uint256} {h pos : Nat} {c c' : Cursor}

/-- The pairs that `traverseAndExtract` hashes. -/
def hashedPairs (prim : Primitives) (mb : MerkleBlock) : Nat → Nat → Cursor → List (Uint256 × Uint256)
  | 0, _, _ => []
  | height + 1, pos, c =>
    match mb.matchBits[c.bitsUsed]? with
    | some true =>
      let (left, c₁) := traverseAndExtract prim mb height (pos * 2) { c with bitsUsed := c.bitsUsed + 1 }
      let below := hashedPairs prim mb height (pos * 2) { c with bitsUsed := c.bitsUsed + 1 }
      if pos * 2 + 1 < calcTreeWidth mb.transactions height then
        (left, (traverseAndExtract prim mb height (pos * 2 + 1) c₁).1) ::
          (below ++ hashedPairs prim mb height (pos * 2 + 1) c₁)
      else (left, left) :: below
    | _ => []

theorem useHash_bad (mb : MerkleBlock) (matched : Bool) (bad : c.bad = true) :
    (mb.useHash matched c).2.bad = true := by
  unfold useHash
  split
  · rfl
  · exact bad

/-- A failure is not forgotten. -/
theorem traverseAndExtract_bad (prim : Primitives) (mb : MerkleBlock) (h pos : Nat) (bad : c.bad = true) :
    (traverseAndExtract prim mb h pos c).2.bad = true := by
  induction h generalizing pos c with
  | zero =>
    unfold traverseAndExtract
    split
    · rfl
    · exact useHash_bad mb _ bad
  | succ h ih =>
    unfold traverseAndExtract
    split
    · rfl
    · exact useHash_bad mb _ bad
    · have first := ih (pos * 2) (c := { c with bitsUsed := c.bitsUsed + 1 }) bad
      dsimp only
      split
      · exact ih _ first
      · exact first

/-- Without a failure a hash is used, and noted if it is that of a matched transaction. -/
theorem useHash_good {matched : Bool} {hash : Uint256} (run : mb.useHash matched c = (hash, c'))
    (good : c'.bad = false) : c'.matched = c.matched ++ if matched then [hash] else [] := by
  unfold useHash at run
  split at run
  · obtain ⟨-, rfl⟩ := Prod.mk.inj run
    cases good
  · obtain ⟨rfl, rfl⟩ := Prod.mk.inj run
    cases matched
    · exact (List.append_nil _).symm
    · rfl

/-- **Of a node with its own hash nothing is extracted but leaves below it**, in their order. -/
theorem extract_sound (all : mb.transactions = txids.length) (inside : pos < width txids.length h)
    (wide : ∀ low < h, 1 < width txids.length low)
    (apart : PairsApart prim (hashedPairs prim mb h pos c) (treePairs prim txids.length txids))
    (run : traverseAndExtract prim mb h pos c = (nodeAt prim.pairHash 0 txids h pos, c'))
    (good : c'.bad = false) :
    ∃ found, c'.matched = c.matched ++ found ∧ found.Sublist (leavesUnder txids h pos) := by
  induction h generalizing pos c c' with
  | zero =>
    unfold traverseAndExtract at run
    split at run
    · obtain ⟨-, rfl⟩ := Prod.mk.inj run
      cases good
    · next parent _ =>
      refine ⟨_, useHash_good (c := { c with bitsUsed := c.bitsUsed + 1 }) run good, ?_⟩
      rw [width_zero] at inside
      rw [leavesUnder_leaf 0 inside]
      split
      · exact List.Sublist.refl _
      · exact List.nil_sublist _
  | succ h ih =>
    unfold traverseAndExtract at run
    unfold hashedPairs at apart
    split at run
    · obtain ⟨-, rfl⟩ := Prod.mk.inj run
      cases good
    · exact ⟨_, useHash_good (c := { c with bitsUsed := c.bitsUsed + 1 }) run good, List.nil_sublist _⟩
    · next bit =>
      rw [bit] at apart
      have below : pos * 2 < width txids.length h := by
        rw [width_succ] at inside
        omega
      have lower (low : Nat) (under : low < h) : 1 < width txids.length low := wide low (Nat.lt_succ_of_lt under)
      have node := @mem_treePairs prim h txids.length pos txids (level_lt (wide h h.lt_succ_self))
        (fun low under => wide low (Nat.lt_succ_of_le under)) below
      rw [nodeAt_succ _ _ _ inside] at run
      generalize left_eq : traverseAndExtract prim mb h (pos * 2) { c with bitsUsed := c.bitsUsed + 1 } = both
        at run apart
      obtain ⟨left, c₁⟩ := both
      dsimp only at run apart
      rw [calcTreeWidth_eq, all] at run apart
      rw [leavesUnder_succ]
      by_cases second : pos * 2 + 1 < width txids.length h
      · rw [if_pos second] at node
        rw [if_pos second, if_pos second] at run
        rw [if_pos second] at apart
        generalize right_eq : traverseAndExtract prim mb h (pos * 2 + 1) c₁ = both at run apart
        obtain ⟨right, c₂⟩ := both
        obtain ⟨hash, rfl⟩ := Prod.mk.inj run
        obtain ⟨rfl, rfl⟩ := Prod.mk.inj (apart _ List.mem_cons_self _ node hash)
        have good₁ : c₁.bad = false := by
          refine Bool.eq_false_iff.mpr fun bad => ?_
          have still := traverseAndExtract_bad prim mb h (pos * 2 + 1) bad
          rw [right_eq, good] at still
          cases still
        obtain ⟨found, matched, sub⟩ := ih below lower
          (fun pair member => apart pair (List.mem_cons_of_mem _ (List.mem_append_left _ member))) left_eq good₁
        obtain ⟨found', matched', sub'⟩ := ih second lower
          (fun pair member => apart pair (List.mem_cons_of_mem _ (List.mem_append_right _ member))) right_eq good
        refine ⟨found ++ found', ?_, sub.append sub'⟩
        rw [matched', matched, List.append_assoc]
      · rw [if_neg second] at node
        rw [if_neg second, if_neg second] at run
        rw [if_neg second] at apart
        obtain ⟨hash, rfl⟩ := Prod.mk.inj run
        obtain ⟨rfl, -⟩ := Prod.mk.inj (apart _ List.mem_cons_self _ node hash)
        obtain ⟨found, matched, sub⟩ := ih below lower
          (fun pair member => apart pair (List.mem_cons_of_mem _ member)) left_eq good
        exact ⟨found, matched, sub.trans (List.sublist_append_left _ _)⟩

/-- The pairs that `extractMatches` hashes. -/
def extractPairs (prim : Primitives) (mb : MerkleBlock) : List (Uint256 × Uint256) :=
  hashedPairs prim mb (height mb.transactions) 0 { bitsUsed := 0, hashUsed := 0, matched := [], bad := mb.bad }

/-- A root other than 0 is that of the tree, which was traversed without a failure. -/
theorem extractMatches_root (nonzero : (mb.extractMatches prim).1 ≠ 0) :
    ∃ c, traverseAndExtract prim mb (height mb.transactions) 0
        { bitsUsed := 0, hashUsed := 0, matched := [], bad := mb.bad } = ((mb.extractMatches prim).1, c) ∧
      c.bad = false ∧ (mb.extractMatches prim).2.1 = c.matched := by
  unfold extractMatches at nonzero ⊢
  split at nonzero
  · exact absurd rfl nonzero
  split at nonzero
  · exact absurd rfl nonzero
  split at nonzero
  · exact absurd rfl nonzero
  split at nonzero
  · exact absurd rfl nonzero
  rw [if_neg ‹_›, if_neg ‹_›, if_neg ‹_›, if_neg ‹_›]
  dsimp only at nonzero ⊢
  split at nonzero
  · exact absurd rfl nonzero
  split at nonzero
  · exact absurd rfl nonzero
  split at nonzero
  · exact absurd rfl nonzero
  rw [if_neg ‹_›, if_neg ‹_›, if_neg ‹_›]
  exact ⟨_, rfl, Bool.eq_false_iff.mpr ‹_›, rfl⟩

/-- **If the root of a list of transactions is extracted, and is not 0, then what is extracted are transactions of
the list, in its order and none of them twice.** -/
theorem extractMatches_sound (prim : Primitives) (mb : MerkleBlock) {txids : List Uint256}
    (distinct : txids.Nodup)
    (all : mb.transactions = txids.length)
    (apart : PairsApart prim (extractPairs prim mb) (treePairs prim txids.length txids))
    (root : (mb.extractMatches prim).1 = merkleRoot prim txids.length txids)
    (nonzero : merkleRoot prim txids.length txids ≠ 0) :
    (∀ hash ∈ (mb.extractMatches prim).2.1, hash ∈ txids) ∧ (mb.extractMatches prim).2.1.Sublist txids ∧
      (mb.extractMatches prim).2.1.Nodup := by
  have positive : 0 < txids.length := by
    refine List.length_pos_iff.mpr fun none => nonzero ?_
    rw [none]
    rfl
  have tree : merkleRoot prim txids.length txids = nodeAt prim.pairHash 0 txids (height txids.length) 0 :=
    merkleRoot_eq_nodeAt (height_le _) (height_spec _).2 (height_spec _).1
  obtain ⟨c, run, good, matched⟩ := extractMatches_root (root ▸ nonzero)
  unfold extractPairs at apart
  rw [root, tree, all] at run
  rw [all] at apart
  obtain ⟨found, same, sub⟩ := extract_sound all (width_pos positive _) (height_spec _).2 apart run good
  rw [leavesUnder_root] at sub
  rw [matched, same, List.nil_append]
  exact ⟨fun hash member => sub.subset member, sub, sub.nodup distinct⟩

end Others

open Libcoin.Small in
/-- If the id of the only transaction is 0, then the root is the failure value, which comes with another id. -/
theorem extractMatches_sound_not : ∃ mb : MerkleBlock, ([0] : List Uint256).Nodup ∧
    mb.transactions = [(0 : Uint256)].length ∧
    read { bytes := mb.write, good := true } = some (mb, { bytes := [], good := true }) ∧
    PairsApart pairing (extractPairs pairing mb) (treePairs pairing 1 [0]) ∧
    (mb.extractMatches pairing).1 = merkleRoot pairing 1 [0] ∧ (mb.extractMatches pairing).2.1 = [5] :=
  ⟨{ noHeader with
      transactions := 1, matchBits := true :: List.replicate 15 false, hashes := [5], bad := false
      matchedTxes := [] },
    by decide, rfl, by decide +kernel, nofun, by decide +kernel, by decide +kernel⟩

open Libcoin.Small in
/-- The third of three transactions. -/
theorem extractMatches_sound_three : ∃ mb : MerkleBlock, (mb.extractMatches pairing).2.1 = [3] ∧
    (∀ hash ∈ (mb.extractMatches pairing).2.1, hash ∈ [1, 2, 3]) ∧
    (mb.extractMatches pairing).2.1.Sublist [1, 2, 3] ∧ (mb.extractMatches pairing).2.1.Nodup := by
  refine ⟨(ofMatches pairing threeTxns [false, false, true]).padded, by decide +kernel, ?_⟩
  exact extractMatches_sound pairing _ (by decide) rfl (by decide +kernel) (by decide +kernel) (by decide +kernel)

end MerkleBlock

end Libcoin
