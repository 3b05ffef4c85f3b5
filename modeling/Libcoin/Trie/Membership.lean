/-
Proofs of membership in an authenticated trie.

* `Reaches.branch`: the branch of a path starts with the root hash, and its entries fold the hash of the
  last node back into it.
* `membership` is both for every trie that calls lead to.
-/

import Libcoin.Trie.Canonical
import Mathlib.Data.List.Induction

namespace Libcoin

variable {E Key Hash : Type} {ops : Elem E Key Hash}

namespace Branch

/-- The fold over entries of the kinds that go on, and one more. -/
theorem fold_concat (hash : Hash) (entries : List (HashType × Hash)) (last : HashType × Hash) :
    fold ops hash (entries ++ [last]) = fold ops (fold ops hash entries) [last] ∨
      fold ops hash (entries ++ [last]) = fold ops hash entries := by
  induction entries generalizing hash with
  | nil => exact .inl rfl
  | cons entry entries ih =>
    obtain ⟨kind, other⟩ := entry
    cases kind with
    | left => exact ih _
    | right => exact ih _
    | root => exact .inr rfl
    | leaf => exact .inr rfl

/-- `validate` on a branch with this last entry. -/
theorem validateHash_concat [DecidableEq Hash] (entries : Branch Hash) (last : HashType × Hash)
    (hash : Hash) :
    validateHash ops (entries ++ [last]) hash =
      (decide (hash = last.2) &&
        decide (some (fold ops hash entries.reverse) = root (entries ++ [last]))) := by
  unfold validateHash
  rw [List.reverse_concat]

end Branch

/-! ### Completeness -/

namespace Reaches

variable {key : Key} {node back : Node E Key Hash} {steps : List (Step E Key Hash)}

/-- The first hash of the path is that of the node it starts from. -/
theorem rootHash (reaches : Reaches ops key node steps back) :
    Iterator.rootHash ops steps back = node.hash ops := by
  cases reaches <;> rfl

/-- The entries of a path are Left and Right ones, so the fold goes through all of them. -/
theorem fold_entries (reaches : Reaches ops key node steps back) (hashed : node.Hashed ops)
    (rest : List (HashType × Hash)) :
    Branch.fold ops (back.hash ops) ((steps.map (Iterator.entry ops)).reverse ++ rest) =
      Branch.fold ops (node.hash ops) rest := by
  induction reaches generalizing rest with
  | here => rfl
  | stop => rfl
  | left enters reaches ih =>
    rw [List.map_cons, List.reverse_cons, List.append_assoc, ih hashed.1]
    change Branch.fold ops (ops.hashPair _ _) rest = _
    rw [← hashed.2.2]
    rfl
  | right not_left enters reaches ih =>
    rw [List.map_cons, List.reverse_cons, List.append_assoc, ih hashed.2.1]
    change Branch.fold ops (ops.hashPair _ _) rest = _
    rw [← hashed.2.2]
    rfl

/-- The branch of a path into a hashed node leads to its hash. -/
theorem branch [DecidableEq Hash] {e : E} (reaches : Reaches ops key node steps (.leaf e))
    (hashed : node.Hashed ops) :
    (Iterator.branch ops (.inside steps (.leaf e))).root = some (node.hash ops) ∧
      Branch.validate ops (Iterator.branch ops (.inside steps (.leaf e))) e = true := by
  have folded := reaches.fold_entries hashed [(.root, node.hash ops)]
  have split : Iterator.branch ops (.inside steps (.leaf e)) =
      ((.root, node.hash ops) :: steps.map (Iterator.entry ops)) ++ [(.leaf, ops.hash e)] := by
    rw [← reaches.rootHash]
    rfl
  rw [split]
  refine ⟨rfl, ?_⟩
  unfold Branch.validate
  rw [Branch.validateHash_concat, List.reverse_cons]
  change (decide (ops.hash e = ops.hash e) && decide (some (Branch.fold ops ((Node.leaf e).hash ops) _) =
    some (node.hash ops))) = true
  rw [folded]
  simp [Branch.fold]

end Reaches

/-! ### Soundness -/

section Soundness

variable (pairs : Function.Injective2 ops.hashPair) (apart : ∀ e a b, ops.hash e ≠ ops.hashPair a b)

include pairs apart

/-- A hash that entries fold into the hash of a node, starting from that of an element, is the hash of a
leaf under the node. -/
theorem fold_sound (entries : List (HashType × Hash)) {node : Node E Key Hash} (hashed : node.Hashed ops)
    {e : E} (folds : Branch.fold ops (ops.hash e) entries = node.hash ops) :
    ∃ stored ∈ node.elems, ops.hash stored = ops.hash e := by
  induction entries using List.reverseRecOn generalizing node with
  | nil =>
    cases node with
    | leaf stored => exact ⟨stored, List.mem_singleton_self stored, folds.symm⟩
    | branch left right own depth hash => exact absurd (folds.trans hashed.2.2) (apart e _ _)
  | append_singleton entries last ih =>
    rcases @Branch.fold_concat _ _ _ ops (ops.hash e) entries last with whole | stopped
    · rw [whole] at folds
      obtain ⟨kind, other⟩ := last
      cases node with
      | leaf stored =>
        cases kind with
        | root => exact ih hashed folds
        | leaf => exact ih hashed folds
        | left => exact absurd folds.symm (apart stored _ _)
        | right => exact absurd folds.symm (apart stored _ _)
      | branch left right own depth hash =>
        cases kind with
        | root => exact ih hashed folds
        | leaf => exact ih hashed folds
        | left =>
          obtain ⟨stored, member, same⟩ := ih hashed.2.1 (pairs (folds.trans hashed.2.2)).2
          exact ⟨stored, List.mem_append_right _ member, same⟩
        | right =>
          obtain ⟨stored, member, same⟩ := ih hashed.1 (pairs (folds.trans hashed.2.2)).1
          exact ⟨stored, List.mem_append_left _ member, same⟩
    · rw [stopped] at folds
      exact ih hashed folds

theorem validate_sound [DecidableEq Hash] {node : Node E Key Hash} (hashed : node.Hashed ops)
    {branch : Branch Hash} {e : E} (root : branch.root = some (node.hash ops))
    (valid : branch.validate ops e = true) : ∃ stored ∈ node.elems, ops.hash stored = ops.hash e := by
  unfold Branch.validate Branch.validateHash at valid
  split at valid
  · cases valid
  · rename_i kind last rest reversed
    rw [Bool.and_eq_true, decide_eq_true_iff, decide_eq_true_iff, root] at valid
    exact fold_sound pairs apart rest hashed (Option.some_injective _ valid.2)

end Soundness

namespace MerkleTrie

variable {bits : BitElem E Key Hash}

/-- **Proofs of membership are complete and sound.** In an authenticated trie the branch of every stored
element leads to the root hash and is valid; and a valid branch to the root hash is about the hash of a
stored element. -/
theorem membership [DecidableEq Hash] (calls : List (TrieOp E Key))
    (on : (empty.run bits.toElem calls).2.authenticated = true) :
    (∀ e ∈ (empty.run bits.toElem calls).2.elems,
      ∃ iterator, (empty.run bits.toElem calls).2.find bits.toElem (bits.key e) = some iterator ∧
        (iterator.branch bits.toElem).root = (empty.run bits.toElem calls).2.rootHash bits.toElem ∧
        (iterator.branch bits.toElem).validate bits.toElem e = true) ∧
      (Function.Injective2 bits.hashPair → (∀ e a b, bits.hash e ≠ bits.hashPair a b) →
        ∀ (branch : Branch Hash) (e : E),
          branch.root = (empty.run bits.toElem calls).2.rootHash bits.toElem →
          branch.validate bits.toElem e = true →
          ∃ stored ∈ (empty.run bits.toElem calls).2.elems, bits.hash stored = bits.hash e) := by
  have ordered : (empty.run bits.toElem calls).2.Ordered bits := ordered_empty.run calls
  have current : (empty.run bits.toElem calls).2.UpToDate bits.toElem := upToDate_empty.run calls
  generalize (empty.run bits.toElem calls).2 = trie at on ordered current
  obtain ⟨root, authenticated⟩ := trie
  cases root with
  | none =>
    refine ⟨nofun, fun _ _ branch e root valid => ?_⟩
    cases branch with
    | nil => cases valid
    | cons => cases root
  | some root =>
    have root_ordered := ordered root rfl
    have root_hashed := current on root rfl
    constructor
    · intro e member
      have enters := root_ordered.descends member
      obtain ⟨steps, back, reaches⟩ := Reaches.exists_of_descends enters
      cases reaches.of_mem root_ordered member
      obtain ⟨is_root, valid⟩ := reaches.branch root_hashed
      exact ⟨.inside steps (.leaf e), by rw [find]; simp only [if_pos enters, reaches.find], is_root, valid⟩
    · intro pairs apart branch e is_root valid
      exact validate_sound pairs apart root_hashed is_root valid

open Spendables in
/-- Two coins: the first one is found with a valid branch, and a branch that is valid for it is about a
stored coin. -/
theorem membership_sample :
    (∃ iterator, (empty.run symbolic.toElem [.authenticated true, .insert (sample 0),
        .insert (sample 1)]).2.find symbolic.toElem (symbolic.key (sample 0)) = some iterator ∧
      (iterator.branch symbolic.toElem).root = some (.pair (.leaf (sample 1)) (.leaf (sample 0))) ∧
      (iterator.branch symbolic.toElem).validate symbolic.toElem (sample 0) = true) ∧
    ∃ stored ∈ (empty.run symbolic.toElem [.authenticated true, .insert (sample 0),
        .insert (sample 1)]).2.elems, symbolic.hash stored = symbolic.hash (sample 0) := by
  obtain ⟨complete, sound⟩ := @membership _ _ _ symbolic _
    [.authenticated true, .insert (sample 0), .insert (sample 1)] (by decide)
  refine ⟨complete (sample 0) (by decide), sound ?_ nofun [(.root, .pair (.leaf (sample 1)) (.leaf (sample 0))),
    (.left, .leaf (sample 1)), (.leaf, .leaf (sample 0))] (sample 0) (by decide) (by decide)⟩
  intro a a' b b' same
  cases same
  exact ⟨rfl, rfl⟩

end MerkleTrie

end Libcoin
