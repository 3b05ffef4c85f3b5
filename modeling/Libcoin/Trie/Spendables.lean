/-
The trie of the spendable coins: `MerkleTrie` over `Unspent`, keyed by `Coin`.

* `Unspent.compare` goes through the nine words of a coin in memory from the last to the first; the
  index is the last word, the hash the eight words before it.
* `compare_eq` makes that the signed distance of coins as numbers, so `Spendables` is an instance of the
  generic trie, whatever the elements are hashed with.
* `spendables_refine` is the refinement of a finite map by any sequence of calls.
-/

import Libcoin.Trie.Refinement
import Libcoin.Ledger.Types
import Mathlib.Tactic.IntervalCases

namespace Libcoin

open HighBit

/-- Word `n` of a coin in memory. -/
def Coin.word (coin : Coin) (n : Nat) : Nat :=
  if n < 8 then coin.hash.val / 2 ^ (32 * n) % 2 ^ 32 else coin.index

/-- The loop of `compare` below word `n`. -/
def Unspent.compareBelow (ka kb : Coin) : Nat → Int
  | 0 => 0
  | n + 1 =>
    let a := ka.word n
    let b := kb.word n
    if b < a then -(Nat.log2 (a ^^^ b) : Int) - 1 - 32 * n
    else if a < b then (Nat.log2 (a ^^^ b) : Int) + 1 + 32 * n
    else compareBelow ka kb n

/-- `Unspent::compare`. -/
def Unspent.compare (ka kb : Coin) : Int := compareBelow ka kb 9

/-- A coin whose index is an `unsigned int`. -/
abbrev CoinKey := { coin : Coin // coin.index < 2 ^ 32 }

/-- An unspent output with such a coin. -/
abbrev Spendable := { unspent : Unspent // unspent.key.index < 2 ^ 32 }

namespace CoinKey

/-- The bits of a coin as a number, the index on top. -/
def number (key : CoinKey) : Nat := key.val.index * 2 ^ 256 + key.val.hash.val

theorem number_injective : Function.Injective number := by
  intro first second same
  have hash_lt := first.val.hash.isLt
  have hash_lt' := second.val.hash.isLt
  unfold number at same
  have index : first.val.index = second.val.index := by omega
  have hash : first.val.hash.val = second.val.hash.val := by omega
  exact Subtype.ext (Coin.toPair_injective (congrArg toLex (Prod.ext (Fin.ext hash) index)))

theorem number_lt (key : CoinKey) : key.number < 2 ^ 288 := by
  have hash_lt := key.val.hash.isLt
  have index_lt := key.property
  unfold number
  omega

/-- The words are those of the number. -/
theorem word_eq (key : CoinKey) {n : Nat} (small : n < 9) :
    key.val.word n = key.number / 2 ^ (32 * n) % 2 ^ 32 := by
  have hash_lt := key.val.hash.isLt
  have index_lt := key.property
  unfold number Coin.word
  interval_cases n <;> simp <;> omega

theorem compareBelow_eq (first second : CoinKey) {n : Nat} (small : n ≤ 9) :
    Unspent.compareBelow first.val second.val n =
      signedDistance (first.number % 2 ^ (32 * n)) (second.number % 2 ^ (32 * n)) := by
  induction n with
  | zero => simp [Unspent.compareBelow, signedDistance, Nat.mod_one]
  | succ n ih =>
    have split : (2 : Nat) ^ (32 * (n + 1)) = 2 ^ (32 * n) * 2 ^ 32 := by
      rw [← Nat.pow_add]
      rfl
    have upper : ∀ a : Nat, a % 2 ^ (32 * (n + 1)) / 2 ^ (32 * n) = a / 2 ^ (32 * n) % 2 ^ 32 := by
      intro a
      rw [split, Nat.mod_mul_right_div_self]
    have lower : ∀ a : Nat, a % 2 ^ (32 * (n + 1)) % 2 ^ (32 * n) = a % 2 ^ (32 * n) := by
      intro a
      rw [split, Nat.mod_mul_right_mod]
    rw [signedDistance_words _ _ (32 * n), upper, upper, lower, lower, ← word_eq first small,
      ← word_eq second small, ← ih (by omega)]
    simp only [Unspent.compareBelow]
    split_ifs with greater less
    · rw [distance_eq_log2 greater.ne']
      push_cast
      ring
    · rw [distance_eq_log2 less.ne]
      push_cast
      ring
    · rfl

/-- Coins compare as numbers, by the highest bit in which they differ. -/
theorem compare_eq (first second : CoinKey) :
    Unspent.compare first.val second.val = signedDistance first.number second.number := by
  unfold Unspent.compare
  rw [compareBelow_eq first second le_rfl, Nat.mod_eq_of_lt first.number_lt,
    Nat.mod_eq_of_lt second.number_lt]

end CoinKey

/-- The element class `Unspent`, over the hash of its serialization and the hash of a pair. -/
def Unspent.elem {Hash : Type} (hash : Spendable → Hash) (hashPair : Hash → Hash → Hash)
    (noHash : Hash) : BitElem Spendable CoinKey Hash where
  key unspent := ⟨unspent.val.key, unspent.property⟩
  compare ka kb := Unspent.compare ka.val kb.val
  hash := hash
  hashPair := hashPair
  noHash := noHash
  number := CoinKey.number
  width := 288
  number_injective := CoinKey.number_injective
  number_lt := CoinKey.number_lt
  width_lt := by decide
  compare_eq := CoinKey.compare_eq

/-- `Spendables`. -/
abbrev Spendables (Hash : Type) := MerkleTrie Spendable CoinKey Hash

namespace Spendables

variable {Hash : Type} (hash : Spendable → Hash) (hashPair : Hash → Hash → Hash) (noHash : Hash)

/-- **The spendable coins refine a finite map.** Every call of any sequence answers what it answers on
the map, `find` agrees with the map that the calls leave, and the trie is ordered. -/
theorem refines_map (calls : List (TrieOp Spendable CoinKey)) :
    let ops := (Unspent.elem hash hashPair noHash).toElem
    let trie := (MerkleTrie.empty.run ops calls).2
    (MerkleTrie.empty.run ops calls).1 = (TrieOp.runOnMap ops ∅ calls).1 ∧
      (∀ key, trie.findElem ops key = (TrieOp.runOnMap ops ∅ calls).2[key]?) ∧
      trie.Ordered (Unspent.elem hash hashPair noHash) := by
  intro ops trie
  have empty : Represents (Unspent.elem hash hashPair noHash) MerkleTrie.empty ∅ := .empty
  obtain ⟨answers, same⟩ := empty.run calls
  exact ⟨answers, same.findElem_eq, same.ordered⟩

/-- Terms for hashes: leaves and pairs never collide. -/
inductive Symbolic
  | none
  | leaf (unspent : Spendable)
  | pair (first second : Symbolic)
  deriving DecidableEq

def symbolic : BitElem Spendable CoinKey Symbolic := Unspent.elem .leaf .pair .none

/-- An output of the transaction with hash 1. -/
def sample (index : Fin 4) : Spendable :=
  ⟨{ key := { hash := 1, index }, output := { value := 5, script := [] }, coin := index + 1, count := 1,
     cnf := 1 }, by have := index.isLt; show (index : Nat) < 2 ^ 32; omega⟩

/-- A stored coin is kept, and a removed one is gone. -/
example : (MerkleTrie.empty.run symbolic.toElem [.insert (sample 1), .insert (sample 2),
    .insert (sample 1), .remove (symbolic.key (sample 2)), .find (symbolic.key (sample 2)),
    .find (symbolic.key (sample 1))]).1 =
    [.changed true, .changed true, .changed false, .changed true, .found none,
      .found (some (sample 1))] := by
  decide

end Spendables

end Libcoin
