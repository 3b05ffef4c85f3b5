/-
`OP_CHECKMULTISIG`.

* `MultiSigArgs` is what it takes from the stack: the number of the keys, the keys, the number of the signatures, the
  signatures, and one value more.
* `evalCheckMultiSig_args` and `evalCheckMultiSig_refused` say what it does with them and without them.

The keys count as operations.
-/

import Libcoin.Library.Greedy
import Libcoin.Script.TransactionEvaluator

namespace Libcoin

open Evaluator

namespace TxEvaluator

/-- The values that are taken from a stack, and the rest of it. -/
structure MultiSigArgs (stack keys sigs rest : List Data) : Prop where
  few : keys.length ≤ 20
  fewer : sigs.length ≤ keys.length
  given : ∃ keysCount sigsCount extra, castToBigNum keysCount = some (keys.length : Int) ∧
    castToBigNum sigsCount = some (sigs.length : Int) ∧
      stack = keysCount :: (keys ++ sigsCount :: (sigs ++ extra :: rest))

/-- So many values are taken. -/
theorem MultiSigArgs.rest_eq {stack keys sigs rest : List Data} (args : MultiSigArgs stack keys sigs rest) :
    stack.drop (keys.length + sigs.length + 3) = rest ∧ stack.length = keys.length + sigs.length + 3 + rest.length := by
  obtain ⟨keysCount, sigsCount, extra, -, -, rfl⟩ := args.given
  constructor
  · have split : keysCount :: (keys ++ sigsCount :: (sigs ++ extra :: rest)) =
        (keysCount :: (keys ++ sigsCount :: (sigs ++ [extra]))) ++ rest := by simp
    rw [split]
    refine List.drop_left' ?_
    simp
    omega
  · simp
    omega

section Signatures

variable {checkSig : Data → Data → Script → Bool} {hashers : Hashers} {script current : Script} {verify : Bool}
  {keys sigs rest : List Data} {s : TxEvaluator}

/-- The script without the signatures. -/
def withoutSigs (sigs : List Data) (scriptCode : Script) : Script :=
  sigs.foldl (fun scriptCode vchSig => Script.findAndDelete (Script.pushData vchSig) scriptCode) scriptCode

/-- The loop over signatures and keys looks for each signature among the keys that are left. -/
theorem matchSigs_eq_greedy (scriptCode : Script) (sigs keys : List Data) :
    matchSigs checkSig scriptCode sigs keys = greedy (fun sig key => checkSig sig key scriptCode) sigs keys := by
  induction keys generalizing sigs with
  | nil => cases sigs <;> rfl
  | cons key keys ih =>
    cases sigs with
    | nil => rfl
    | cons sig sigs =>
      rw [matchSigs, greedy]
      generalize (if checkSig sig key scriptCode then sigs else sig :: sigs) = left
      split
      · -- more signatures than keys are left
        rename_i fewer
        refine (Bool.eq_false_iff.mpr fun found => ?_).symm
        exact absurd (greedy_length found) (not_le.mpr fewer)
      · exact ih _

/-- What is done with the values, within the limit of the operations. -/
theorem evalCheckMultiSig_args (args : MultiSigArgs s.stack keys sigs rest) (room : s.opCount + keys.length ≤ 201) :
    evalCheckMultiSig checkSig verify script s =
      (code script s.own.separator).elim (undefinedCode { s with opCount := s.opCount + keys.length })
        fun scriptCode => leave verify (matchSigs checkSig (withoutSigs sigs scriptCode) sigs keys) rest
          { s with opCount := s.opCount + keys.length } := by
  obtain ⟨keysCount, sigsCount, extra, counted, counted', given⟩ := args.given
  have few := args.few
  have fewer := args.fewer
  have taken : (keys ++ sigsCount :: (sigs ++ extra :: rest)).take keys.length = keys := List.take_left' rfl
  have left : (keys ++ sigsCount :: (sigs ++ extra :: rest)).drop keys.length = sigsCount :: (sigs ++ extra :: rest) :=
    List.drop_left' rfl
  have taken' : (sigs ++ extra :: rest).take sigs.length = sigs := List.take_left' rfl
  have left' : (sigs ++ extra :: rest).drop sigs.length = extra :: rest := List.drop_left' rfl
  unfold evalCheckMultiSig
  rw [given]
  dsimp only
  rw [counted]
  dsimp only
  rw [if_neg (by omega), Int.toNat_natCast, if_neg (by omega), left]
  dsimp only
  rw [counted']
  dsimp only
  rw [if_neg (by omega), Int.toNat_natCast, left', taken, taken']
  dsimp only
  cases code script s.own.separator <;> rfl

/-- Without the values, or beyond the limit, the evaluation fails. -/
theorem evalCheckMultiSig_refused
    (missing : ∀ keys sigs rest, MultiSigArgs s.stack keys sigs rest → 201 < s.opCount + keys.length) :
    ∃ count, evalCheckMultiSig checkSig verify script s = .done false { s with opCount := count } := by
  unfold evalCheckMultiSig
  split
  · exact ⟨s.opCount, rfl⟩
  · rename_i keysCount afterKeysCount given
    split
    · exact ⟨s.opCount, rfl⟩
    · rename_i nKeysCount counted
      split
      · exact ⟨s.opCount, rfl⟩
      · rename_i inRange
        dsimp only
        split
        · exact ⟨_, rfl⟩
        · rename_i room
          split
          · exact ⟨_, rfl⟩
          · rename_i sigsCount afterSigsCount left
            split
            · exact ⟨_, rfl⟩
            · rename_i nSigsCount counted'
              split
              · exact ⟨_, rfl⟩
              · rename_i inRange'
                split
                · exact ⟨_, rfl⟩
                · rename_i extra rest left'
                  -- all the values are there
                  have long := congrArg List.length left
                  have long' := congrArg List.length left'
                  rw [List.length_drop, List.length_cons] at long long'
                  have size : (afterKeysCount.take nKeysCount.toNat).length = nKeysCount.toNat := by
                    rw [List.length_take]
                    omega
                  have size' : (afterSigsCount.take nSigsCount.toNat).length = nSigsCount.toNat := by
                    rw [List.length_take]
                    omega
                  have beyond := missing (afterKeysCount.take nKeysCount.toNat)
                    (afterSigsCount.take nSigsCount.toNat) rest
                    ⟨by omega, by omega, keysCount, sigsCount, extra, by rw [counted, size]; congr 1; omega,
                      by rw [counted', size']; congr 1; omega, by
                        rw [given, ← left', List.take_append_drop, ← left, List.take_append_drop]⟩
                  omega

/-- **`OP_CHECKMULTISIG` is true exactly when the signatures have keys in their order.** It takes its values from the
stack, and fails without them or when the keys are too many operations. -/
theorem eval_multiSig_iff (checkSig : Data → Data → Script → Bool) (hashers : Hashers) (script current : Script)
    (s : TxEvaluator) :
    (∀ keys sigs rest scriptCode, MultiSigArgs s.stack keys sigs rest → s.opCount + keys.length ≤ 201 →
      code script s.own.separator = some scriptCode →
        s.stack.length = keys.length + sigs.length + 3 + rest.length ∧
          s.stack.drop (keys.length + sigs.length + 3) = rest ∧
            ∃ result, eval checkSig hashers script current 174 s =
                .next { s with stack := boolBytes result :: rest, opCount := s.opCount + keys.length } ∧
              (result = true ↔ ∃ place : Fin sigs.length → Fin keys.length, StrictMono place ∧
                ∀ i, checkSig (sigs.get i) (keys.get (place i)) (withoutSigs sigs scriptCode) = true)) ∧
    ((∀ keys sigs rest, MultiSigArgs s.stack keys sigs rest → 201 < s.opCount + keys.length) →
      ∃ s', eval checkSig hashers script current 174 s = .done false s') := by
  have checked : eval checkSig hashers script current 174 s = evalCheckMultiSig checkSig false script s := rfl
  rw [checked]
  constructor
  · intro keys sigs rest scriptCode args room known
    have turn := @evalCheckMultiSig_args checkSig script false keys sigs rest s args room
    rw [known] at turn
    refine ⟨args.rest_eq.2, args.rest_eq.1, _, turn, ?_⟩
    rw [matchSigs_eq_greedy, greedy_iff_strictMono]
  · intro missing
    obtain ⟨count, refused⟩ := @evalCheckMultiSig_refused checkSig script false s missing
    exact ⟨_, refused⟩

end Signatures

/-- The signature of the second one of two keys. -/
theorem eval_multiSig_second :
    eval (fun vchSig vchPubKey _ => decide (vchSig = vchPubKey)) Small.hashers [] [] 174
        { new with stack := [[2], [7], [8], [1], [8], [], [5]] } =
      .next { new with stack := [[1], [5]], opCount := 2 } := by
  obtain ⟨-, -, result, turn, found⟩ := (eval_multiSig_iff
    (fun vchSig vchPubKey _ => decide (vchSig = vchPubKey)) Small.hashers [] []
    { new with stack := [[2], [7], [8], [1], [8], [], [5]] }).1 [[7], [8]] [[8]] [[5]] []
    ⟨by decide, by decide, [2], [1], [], by decide, by decide, rfl⟩ (by decide) rfl
  have mono : StrictMono fun _ : Fin 1 => (1 : Fin 2) := Subsingleton.strictMono _
  obtain rfl := found.mpr ⟨fun _ => (1 : Fin 2), mono, by decide⟩
  exact turn

/-- One key of which no signature is asked, after 199 operations and after 200. -/
theorem eval_multiSig_limit :
    MultiSigArgs [[1], [], [], []] [[]] [] [] ∧
      eval (fun _ _ _ => true) Small.hashers [] [] 174 { new with stack := [[1], [], [], []], opCount := 201 } =
        .done false { new with stack := [[1], [], [], []], opCount := 202 } ∧
      (run (fun _ _ _ => true) Small.hashers (List.replicate 199 97 ++ [0, 0, 0, 81, 174]) new).1 = true ∧
      (run (fun _ _ _ => true) Small.hashers (List.replicate 200 97 ++ [0, 0, 0, 81, 174]) new).1 = false :=
  ⟨⟨by decide, by decide, [1], [], [], by decide, by decide, rfl⟩, rfl, by decide +kernel, by decide +kernel⟩

end TxEvaluator

end Libcoin
