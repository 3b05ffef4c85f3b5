/-
The Merkle trie: a path-compressed binary trie over keys as bitfields, with a hash in every node.

* `Elem` is what `MerkleTrie` asks of its element class. `BitElem` adds what such a class promises of
  `compare`: the place of the highest differing bit, with the order of the keys as its sign.
* `Node.find` is the descent of `FindVisitor`. It ends in an `Iterator`, the path of nodes passed.
* `insert` and `remove` change the node at the end of that path, and hash the path again from there up
  when the trie is authenticated.
* `Iterator.branch` collects the hashes beside a path, `Branch.validate` folds them.

A node that is shared with a copy of the trie is cloned before it is changed, so nodes are values here.
The genitor, the node over the root that the trie never shows, has the end node as its right child.
-/

import Libcoin.Library.HighBit

namespace Libcoin

/-- What the trie calls of its parameter `Elem`. -/
structure Elem (E Key Hash : Type) where
  key : E → Key
  compare : Key → Key → Int
  hash : E → Hash
  hashPair : Hash → Hash → Hash
  /-- The default hash, that of a branch that was not hashed yet. -/
  noHash : Hash

/-- `EndNode::compare`. -/
def endCompare : Nat := 100000

/-- An element class with keys that are bitfields: `compare` is the place of the highest differing bit,
positive when the second key is the greater one. -/
structure BitElem (E Key Hash : Type) extends Elem E Key Hash where
  number : Key → Nat
  width : Nat
  number_injective : Function.Injective number
  number_lt : ∀ key, number key < 2 ^ width
  width_lt : width < endCompare
  compare_eq : ∀ a b, compare a b = HighBit.signedDistance (number a) (number b)

/-- `LeafNode` and `BranchNode`. The key of a branch is one that the branch was made for; its element
may be gone. -/
inductive Node (E Key Hash : Type)
  | leaf (elem : E)
  | branch (left right : Node E Key Hash) (key : Key) (depth : Nat) (hash : Hash)

inductive Side
  | left
  | right
  deriving DecidableEq, Repr

/-- A branch that a path goes through: its two children, its hash, and the child the path takes. -/
structure Step (E Key Hash : Type) where
  left : Node E Key Hash
  right : Node E Key Hash
  hash : Hash
  side : Side

/-- The path of an iterator: the genitor alone, or the nodes under it down to the last one. -/
inductive Iterator (E Key Hash : Type)
  | genitor
  | inside (steps : List (Step E Key Hash)) (back : Node E Key Hash)

/-- `Branch::Type`. -/
inductive HashType
  | root
  | leaf
  | left
  | right
  deriving DecidableEq, Repr

/-- `Branch`: typed hashes from the root to an element. -/
abbrev Branch (Hash : Type) := List (HashType × Hash)

structure MerkleTrie (E Key Hash : Type) where
  root : Option (Node E Key Hash)
  authenticated : Bool

variable {E Key Hash : Type}

namespace Node

section Members

variable (ops : Elem E Key Hash)

def key : Node E Key Hash → Key
  | leaf elem => ops.key elem
  | branch _ _ key _ _ => key

def depth : Node E Key Hash → Nat
  | leaf _ => 0
  | branch _ _ _ depth _ => depth

def hash : Node E Key Hash → Hash
  | leaf elem => ops.hash elem
  | branch _ _ _ _ hash => hash

def compare (node : Node E Key Hash) (key : Key) : Int := ops.compare (node.key ops) key

def rehash : Node E Key Hash → Node E Key Hash
  | leaf elem => leaf elem
  | branch left right key depth _ =>
    branch left right key depth (ops.hashPair (left.hash ops) (right.hash ops))

/-- The loops over a path hash its nodes only in an authenticated trie. -/
def hashed (authenticated : Bool) (node : Node E Key Hash) : Node E Key Hash :=
  if authenticated then node.rehash ops else node

/-- The `HashVisitor`. -/
def rehashAll : Node E Key Hash → Node E Key Hash
  | leaf elem => leaf elem
  | branch left right key depth hash =>
    (branch left.rehashAll right.rehashAll key depth hash).rehash ops

/-- The constructor of `BranchNode`. -/
def newBranch (left right : Node E Key Hash) (depth : Nat) : Node E Key Hash :=
  branch left right (right.key ops) depth ops.noHash

/-- The path stays above a child when the highest differing bit is not below its depth. -/
def descends (node : Node E Key Hash) (key : Key) : Bool :=
  decide ((node.compare ops key).natAbs ≤ node.depth)

end Members

/-- The elements, from left to right. -/
def elems : Node E Key Hash → List E
  | leaf elem => [elem]
  | branch left right _ _ _ => left.elems ++ right.elems

/-- The elements of a trie with this root, or of what is left of a node. -/
def elemsOf (node : Option (Node E Key Hash)) : List E := (node.map elems).getD []

end Node

namespace Iterator

def under (left right : Node E Key Hash) (hash : Hash) (side : Side) :
    Iterator E Key Hash → Iterator E Key Hash
  | genitor => genitor
  | inside steps back => inside ({ left, right, hash, side } :: steps) back

/-- The element that the iterator points at, when it is a leaf. -/
def elem? : Iterator E Key Hash → Option E
  | inside _ (.leaf elem) => some elem
  | _ => none

/-- The entry for one branch of the path: the hash of the child that the path does not take. -/
def entry (ops : Elem E Key Hash) (step : Step E Key Hash) : HashType × Hash :=
  match step.side with
  | .right => (.left, step.left.hash ops)
  | .left => (.right, step.right.hash ops)

/-- The hash of the first node under the genitor. -/
def rootHash (ops : Elem E Key Hash) (steps : List (Step E Key Hash)) (back : Node E Key Hash) : Hash :=
  match steps with
  | [] => back.hash ops
  | step :: _ => step.hash

/-- `branch`, for a path that has a node under the genitor. -/
def branch (ops : Elem E Key Hash) : Iterator E Key Hash → Branch Hash
  | genitor => []
  | inside steps back =>
    (.root, rootHash ops steps back) :: (steps.map (entry ops) ++ [(.leaf, back.hash ops)])

end Iterator

namespace Branch

def root (branch : Branch Hash) : Option Hash := branch.head?.map Prod.snd

/-- The loop of `validate` over the entries before the last one, last first. -/
def fold (ops : Elem E Key Hash) : Hash → List (HashType × Hash) → Hash
  | hash, (.left, other) :: rest => fold ops (ops.hashPair other hash) rest
  | hash, (.right, other) :: rest => fold ops (ops.hashPair hash other) rest
  | hash, _ => hash

/-- `validate`. An empty branch, on which the source reads beyond its vector, is refused. -/
def validateHash [DecidableEq Hash] (ops : Elem E Key Hash) (branch : Branch Hash) (hash : Hash) : Bool :=
  match branch.reverse with
  | [] => false
  | (_, last) :: rest => decide (hash = last) && decide (some (fold ops hash rest) = branch.root)

def validate [DecidableEq Hash] (ops : Elem E Key Hash) (branch : Branch Hash) (elem : E) : Bool :=
  branch.validateHash ops (ops.hash elem)

end Branch

namespace Node

variable (ops : Elem E Key Hash)

/-- The descent of `FindVisitor`. It has no result at a leaf with another key. -/
def find (key : Key) : Node E Key Hash → Option (Iterator E Key Hash)
  | leaf elem => if ops.compare (ops.key elem) key = 0 then some (.inside [] (leaf elem)) else none
  | branch left right own depth hash =>
    if left.descends ops key then (left.find key).map (Iterator.under left right hash .left)
    else if right.descends ops key then (right.find key).map (Iterator.under left right hash .right)
    else some (.inside [] (branch left right own depth hash))

/-- The child that `insert` puts in the place of one that the path does not enter: a new branch over
it and the new leaf, the greater key to the left. -/
def splice (elem : E) (node : Node E Key Hash) : Node E Key Hash :=
  let cmp := node.compare ops (ops.key elem)
  if 0 < cmp then newBranch ops (leaf elem) node cmp.natAbs
  else if cmp < 0 then newBranch ops node (leaf elem) cmp.natAbs
  else leaf elem

/-- What `insert` does at the last node of the path. -/
def insertHere (authenticated : Bool) (elem : E) (left right : Node E Key Hash) (own : Key) (depth : Nat)
    (hash : Hash) : Node E Key Hash :=
  if (left.compare ops (ops.key elem)).natAbs < (right.compare ops (ops.key elem)).natAbs then
    branch ((left.splice ops elem).hashed ops authenticated) right own depth hash
  else branch left ((right.splice ops elem).hashed ops authenticated) own depth hash

/-- `insert` along a path that ends in a branch. -/
def insertAt (authenticated : Bool) (elem : E) : Node E Key Hash → List Side → Node E Key Hash
  | leaf other, _ => leaf other
  | branch left right own depth hash, [] =>
    (insertHere ops authenticated elem left right own depth hash).hashed ops authenticated
  | branch left right own depth hash, .left :: sides =>
    (branch (left.insertAt authenticated elem sides) right own depth hash).hashed ops authenticated
  | branch left right own depth hash, .right :: sides =>
    (branch left (right.insertAt authenticated elem sides) own depth hash).hashed ops authenticated

/-- `remove` along a path that ends in a leaf. The branch over the leaf goes with it: its other child
takes its place, and the path is hashed from there up. -/
def removeAt (authenticated : Bool) : Node E Key Hash → List Side → Option (Node E Key Hash)
  | leaf _, _ => none
  | branch left right own depth hash, [] => some (branch left right own depth hash)
  | branch left right own depth hash, .left :: sides =>
    match left.removeAt authenticated sides with
    | none => some right
    | some left => some ((branch left right own depth hash).hashed ops authenticated)
  | branch left right own depth hash, .right :: sides =>
    match right.removeAt authenticated sides with
    | none => some left
    | some right => some ((branch left right own depth hash).hashed ops authenticated)

end Node

namespace MerkleTrie

variable (ops : Elem E Key Hash)

/-- The constructor: no root, and no hashing. -/
def empty : MerkleTrie E Key Hash := { root := none, authenticated := false }

/-- `find` from the genitor. `none` is `end()`. -/
def find (trie : MerkleTrie E Key Hash) (key : Key) : Option (Iterator E Key Hash) :=
  match trie.root with
  | none => none
  | some root => if root.descends ops key then root.find ops key else some .genitor

/-- `insert`. The path is never empty when there is a root. -/
def insert (trie : MerkleTrie E Key Hash) (elem : E) : Bool × MerkleTrie E Key Hash :=
  match trie.root with
  | none => (true, { trie with root := some (.leaf elem) })
  | some root =>
    match trie.find ops (ops.key elem) with
    | some (.inside _ (.leaf _)) => (false, trie)
    | some (.inside steps (.branch ..)) =>
      (true, { trie with root := some (root.insertAt ops trie.authenticated elem (steps.map Step.side)) })
    | some .genitor =>
      if (root.compare ops (ops.key elem)).natAbs < endCompare then
        (true, { trie with root := some ((root.splice ops elem).hashed ops trie.authenticated) })
      else (true, trie)
    | none => (false, trie)

/-- `remove`. -/
def remove (trie : MerkleTrie E Key Hash) (key : Key) : Bool × MerkleTrie E Key Hash :=
  match trie.root, trie.find ops key with
  | some root, some (.inside steps (.leaf _)) =>
    (true, { trie with root := root.removeAt ops trie.authenticated (steps.map Step.side) })
  | _, _ => (false, trie)

/-- `authenticated(a)`. -/
def setAuthenticated (trie : MerkleTrie E Key Hash) (on : Bool) : MerkleTrie E Key Hash :=
  if trie.authenticated = on then trie
  else { root := if on then trie.root.map (Node.rehashAll ops) else trie.root, authenticated := on }

/-- `root()->hash()`, when there is a root. -/
def rootHash (trie : MerkleTrie E Key Hash) : Option Hash := trie.root.map (Node.hash ops)

def elems (trie : MerkleTrie E Key Hash) : List E := Node.elemsOf trie.root

end MerkleTrie

end Libcoin
