/-
The height in the coinbase of a block template, when the block is appended.

* `accept_prev`: `append` looks up the block before, and its height.
* `enforceVersion_pushed`: the check of the height for a coinbase that begins with it.
-/

import Libcoin.BlockChain.BlockTemplate
import Libcoin.BlockChain.Runs
import Libcoin.Tree.Retarget
import Libcoin.Tree.PopBack

namespace Libcoin

open Exec BlockTree

namespace BlockTree

/-- The height of a block does not change when other blocks become known. -/
theorem depth_append {known newer : List (BlockRef Uint256)} (grown : Grown (newer ++ known)) {b : BlockRef Uint256}
    (member : b ∈ known) : depth (newer ++ known) b.hash = depth known b.hash := by
  have distinct := grown.hashes_nodup
  clear grown
  induction newer with
  | nil => rfl
  | cons ref newer ih =>
    have fresh := List.nodup_cons.mp distinct
    have inside : b.hash ∈ hashes (newer ++ known) := List.mem_map_of_mem (List.mem_append_right newer member)
    have different : ref.hash ≠ b.hash := fun same => fresh.1 (show ref.hash ∈ _ from same ▸ inside)
    exact (depth_cons_of_ne different (newer ++ known)).trans (ih fresh.2)

end BlockTree

namespace BlockChain

section Appended

variable {cfg : Config} {clock : Clock} {s s' t t' u : BlockChain} {blk prev : BlockRef Uint256} {payees : List Script}
  {fractions feeFractions : List UInt32} {block solved : Block} {known newer : List (BlockRef Uint256)}

/-- A template has the count of the block before it in its coinbase. -/
theorem template_coinbase (made : getBlockTemplate cfg clock blk payees fractions feeFractions s = .ok block) :
    block.prevBlock = blk.hash ∧ ∃ count outputs txns, s.tree.count blk.hash = .ok count ∧
      block.transactions = templateCoinbase count outputs :: txns := by
  unfold getBlockTemplate at made
  split at made
  · cases made
  split at made
  · cases made
  split at made
  · cases made
  split at made
  · cases made
  · obtain ⟨count, counted, made⟩ := bind_eq_ok.mp made
    obtain ⟨outputs, -, made⟩ := bind_eq_ok.mp made
    obtain rfl := Except.ok.inj made
    exact ⟨rfl, count, outputs, _, counted, rfl⟩

/-- `append` looks up the block before, and its height. -/
theorem accept_prev {prevHeight : Int} (run : accept cfg block s = .ok (prev, prevHeight) s') :
    s.tree.find block.prevBlock = .ok (some prev) ∧
      ∃ height, s.tree.heightOf prev.hash = .ok height ∧ prevHeight = height.natAbs := by
  unfold accept at run
  obtain ⟨_, _, work, run⟩ := bind_ok.mp run
  obtain ⟨-, rfl⟩ := failIf_ok.mp work
  obtain ⟨_, _, look, run⟩ := bind_ok.mp run
  obtain ⟨-, rfl⟩ := readTree_ok.mp look
  obtain ⟨_, _, new, run⟩ := bind_ok.mp run
  obtain ⟨-, rfl⟩ := failIf_ok.mp new
  rw [bind_get] at run
  obtain ⟨_, _, look, run⟩ := bind_ok.mp run
  obtain ⟨-, rfl⟩ := ask_ok.mp look
  obtain ⟨_, _, valid, run⟩ := bind_ok.mp run
  obtain ⟨-, rfl⟩ := failIf_ok.mp valid
  obtain ⟨_, mid, recorded, run⟩ := bind_ok.mp run
  have same : mid.tree = s.tree := (recordInvalid_keeps (fun _ _ => rfl) block).ok recorded
  obtain ⟨found, _, look, run⟩ := bind_ok.mp run
  obtain ⟨find, rfl⟩ := readTree_ok.mp look
  obtain ⟨_, _, look, run⟩ := bind_ok.mp run
  obtain ⟨-, rfl⟩ := readTree_ok.mp look
  obtain ⟨_, _, version, run⟩ := bind_ok.mp run
  obtain ⟨-, rfl⟩ := failIf_ok.mp version
  cases found with
  | none => exact (throw_ok.mp run).elim
  | some ref =>
    obtain ⟨_, mid', target, run⟩ := bind_ok.mp run
    have same' : mid'.tree = mid.tree := (checkTarget_keeps block ref).ok target
    obtain ⟨_, _, look, run⟩ := bind_ok.mp run
    obtain ⟨-, rfl⟩ := readTree_ok.mp look
    obtain ⟨_, _, late, run⟩ := bind_ok.mp run
    obtain ⟨-, rfl⟩ := failIf_ok.mp late
    obtain ⟨height, _, look, run⟩ := bind_ok.mp run
    obtain ⟨heightOf, rfl⟩ := readTree_ok.mp look
    obtain ⟨result, rfl⟩ := pure_ok.mp run
    obtain ⟨rfl, rfl⟩ := Prod.mk.inj result
    rw [same] at find
    rw [same', same] at heightOf
    exact ⟨find, height, heightOf, rfl⟩

/-- The check for a coinbase that begins with the height. -/
theorem enforceVersion_pushed {version prevHeight : Int} (upgraded : 2 ≤ solved.version)
    (enforced : getMinEnforcedBlockVersion cfg u.tree = .ok version) (int : IsInt (prevHeight + 1)) {pushes : Script}
    (signature : solved.coinbaseSignature = .ok (Script.pushInt (prevHeight + 1) ++ pushes)) :
    enforceVersion cfg solved prevHeight u = .ok () u ↔ version < 2 ∨ ¬IsSmallNumber (prevHeight + 1) := by
  have height := Block.getHeight_of_signature signature
  rw [← scriptHeight_pushInt int pushes]
  unfold enforceVersion
  rw [bind_ok]
  constructor
  · rintro ⟨_, _, look, run⟩
    obtain ⟨read, rfl⟩ := readTree_ok.mp look
    obtain rfl := Except.ok.inj (enforced.symm.trans read)
    by_cases old : version < 2
    · exact .inl old
    · rw [if_pos ⟨by omega, upgraded⟩] at run
      obtain ⟨_, _, look, run⟩ := bind_ok.mp run
      obtain ⟨read, rfl⟩ := ask_ok.mp look
      obtain rfl := Except.ok.inj (height.symm.trans read)
      have equal := of_decide_eq_false (failIf_ok.mp run).1
      exact .inr (not_not.mp equal)
  · intro passes
    refine ⟨version, u, readTree_ok.mpr ⟨enforced, rfl⟩, ?_⟩
    by_cases old : version < 2
    · rw [if_neg (by omega)]
      rfl
    · rw [if_pos ⟨by omega, upgraded⟩, bind_ok]
      have equal := passes.resolve_left old
      exact ⟨_, u, ask_ok.mpr ⟨height, rfl⟩, failIf_ok.mpr ⟨decide_eq_false (not_not.mpr equal), rfl⟩⟩

/-- **The height is read back, and passes the checks, unless it is pushed by an opcode of its own.** -/
theorem height_exact (block : Block) :
    (∀ (h : Int) (pushes : Script), 0 ≤ h → IsInt h →
      block.coinbaseSignature = .ok (Script.pushInt h ++ pushes) →
      (block.getHeight = .ok h ↔ ¬IsSmallNumber h)) ∧
    (∀ h : Int, IsInt h → block.checkHeightInCoinbase h = .ok true →
      (block.getHeight = .ok h ↔ ¬IsSmallNumber h)) ∧
    ∀ (cfg : Config) (clock : Clock) (known newer : List (BlockRef Uint256)) (s t t' u : BlockChain)
      (blk prev : BlockRef Uint256) (payees : List Script) (fractions feeFractions : List UInt32) (solved : Block)
      (prevHeight version : Int), Reached known s.tree → blk ∈ known → Reached (newer ++ known) t.tree →
      getBlockTemplate cfg clock blk payees fractions feeFractions s = .ok block →
      solved.transactions = block.transactions → solved.prevBlock = block.prevBlock → 2 ≤ solved.version →
      accept cfg solved t = .ok (prev, prevHeight) t' → IsInt (prevHeight + 1) →
      getMinEnforcedBlockVersion cfg u.tree = .ok version →
      (enforceVersion cfg solved prevHeight u = .ok () u ↔ version < 2 ∨ ¬IsSmallNumber (prevHeight + 1)) := by
  refine ⟨fun h pushes _ int signature => Block.getHeight_pushInt int signature, fun h int check => ?_, ?_⟩
  · obtain ⟨pushes, signature⟩ := Block.checkHeightInCoinbase_ok check
    exact Block.getHeight_pushInt int signature
  · intro cfg clock known newer s t t' u blk prev payees fractions feeFractions solved prevHeight version reached
      member reached' made transactions on upgraded accepted int enforced
    obtain ⟨grown, rep, -⟩ := reached.kept
    obtain ⟨grown', rep', -⟩ := reached'.kept
    obtain ⟨onto, count, outputs, txns, counted, coinbase⟩ := template_coinbase made
    obtain ⟨found, height', heightOf', rfl⟩ := accept_prev accepted
    have member' : blk ∈ newer ++ known := List.mem_append_right newer member
    obtain rfl : blk = prev := by
      rw [on, onto, rep'.find_known grown' member'] at found
      exact Option.some.inj (Except.ok.inj found)
    obtain ⟨height, heightOf, size⟩ := heightOf_known rep member
    obtain ⟨height'', heightOf'', size'⟩ := heightOf_known rep' member'
    obtain rfl := Except.ok.inj (heightOf'.symm.trans heightOf'')
    have same : count = (height'.natAbs : Int) + 1 := by
      unfold SparseTree.count at counted
      rw [heightOf] at counted
      obtain rfl := Except.ok.inj counted
      rw [size, size', depth_append grown' member]
    have signature : solved.coinbaseSignature =
        .ok (Script.pushInt ((height'.natAbs : Int) + 1) ++ 32 :: List.replicate 32 0) := by
      unfold Block.coinbaseSignature
      rw [transactions, coinbase, same]
      rfl
    exact enforceVersion_pushed upgraded enforced int signature

open Libcoin.Small in
/-- The height 1 is read as zero. -/
theorem height_fails :
    ¬ ∀ (block : Block) (h : Int) (pushes : Script), 0 ≤ h → IsInt h →
      block.coinbaseSignature = .ok (Script.pushInt h ++ pushes) → block.getHeight = .ok h := by
  intro claim
  have one := claim (mined 2 1 [templateCoinbase 1 []]) 1 _ (by decide) (by decide) rfl
  exact absurd one (by decide)

end Appended

open Libcoin.Small in
/-- Height 17 is read back, and the first template passes where nothing is enforced. -/
theorem height_exact_seventeen :
    (mined 2 1 [templateCoinbase 17 []]).getHeight = .ok 17 ∧
    ∃ (s : BlockChain) (block : Block), created 1 0 = .ok s ∧
      getBlockTemplate (config 1 0) clock (refOf (config 1 0) (mined 1 0 [coinbase 1 [50]]) 0) [[]] [] [] s = .ok block ∧
      enforceVersion (config 1 0) block 0 s = .ok () s := by
  refine ⟨((height_exact _).1 17 _ (by decide) (by decide) rfl).mpr (by decide), ?_⟩
  have run : (do
      let s ← (created 1 0).toOption
      let block ← (getBlockTemplate (config 1 0) clock (refOf (config 1 0) (mined 1 0 [coinbase 1 [50]]) 0) [[]] [] []
        s).toOption
      return (decide (2 ≤ block.version), succeeds (accept (config 1 0) block s) fun result _ => decide (result.2 = 0),
        (getMinEnforcedBlockVersion (config 1 0) s.tree).toOption)) = some (true, true, some 1) := by decide +kernel
  obtain ⟨s, done, run⟩ := Option.bind_eq_some_iff.mp run
  obtain ⟨block, made, run⟩ := Option.bind_eq_some_iff.mp run
  obtain ⟨upgraded, run⟩ := Prod.mk.inj (Option.some.inj run)
  obtain ⟨accepted, enforced⟩ := Prod.mk.inj run
  have created := toOption_eq_some.mp done
  have made := toOption_eq_some.mp made
  obtain ⟨⟨prev, prevHeight⟩, t', accepted, low⟩ := of_succeeds accepted
  obtain rfl : prevHeight = 0 := of_decide_eq_true low
  obtain ⟨tree, start, blk, ledger, locator, result, assigned, -, -, -, -, -, -, same⟩ := create_ok created
  have reached : Reached [refOf (config 1 0) (mined 1 0 [coinbase 1 [50]]) 0] s.tree := by
    rw [same]
    exact .assign (show Linked [refOf (config 1 0) (mined 1 0 [coinbase 1 [50]]) 0] from
      ⟨by decide, by decide, by decide⟩) assigned
  have passes := (height_exact block).2.2 (config 1 0) clock [refOf (config 1 0) (mined 1 0 [coinbase 1 [50]]) 0] [] s s
    t' s _ prev [[]] [] [] block 0 1 reached List.mem_cons_self reached made rfl rfl (of_decide_eq_true upgraded) accepted
    (by decide) (toOption_eq_some.mp enforced)
  exact ⟨s, block, created, made, passes.mpr (.inl (by decide))⟩

end BlockChain

end Libcoin
