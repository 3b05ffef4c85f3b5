/-
`Transaction::getSignatureHash`: what a signature commits to.

* `signatureTxn` is the copy of the transaction that is hashed: scripts, outputs and sequences are blanked, and
  inputs removed, as the type says. `none` is the error value.
* `signatureTxn_eq` gives its parts: the outputs, and the inputs, of which one is `signed`.
* `Commits` is what equal hashes and equal transactions have to do with each other, for each type.

A type is taken modulo 32, so that other bits than `SIGHASH_ANYONECANPAY` matter to the hash itself only.
-/

import Libcoin.Ledger.Serialization
import Libcoin.Script.Evaluator

namespace Libcoin

namespace Script

/-- The loop of `findAndDelete`, from the beginning of an instruction. -/
def deleteFrom (b : Script) : Nat → Script → Script
  | 0, script => script
  | turns + 1, script =>
    if b.isPrefixOf script then deleteFrom b turns (script.drop b.length)
    else
      match getOp script with
      | none => script
      | some (_, _, rest) => script.take (script.length - rest.length) ++ deleteFrom b turns rest

/-- `findAndDelete`. -/
def findAndDelete (b script : Script) : Script := if b.isEmpty then script else deleteFrom b script.length script

theorem deleteFrom_length (b : Script) (turns : Nat) (script : Script) :
    (deleteFrom b turns script).length ≤ script.length := by
  induction turns generalizing script with
  | zero => exact le_rfl
  | succ turns ih =>
    unfold deleteFrom
    split
    · refine (ih _).trans ?_
      rw [List.length_drop]
      exact Nat.sub_le _ _
    · cases read : getOp script with
      | none => exact le_rfl
      | some instruction =>
        obtain ⟨opcode, value, rest⟩ := instruction
        have shorter := getOp_shorter read
        have fewer := ih rest
        dsimp only
        rw [List.length_append, List.length_take]
        omega

/-- A script does not get longer. -/
theorem findAndDelete_length (b script : Script) : (findAndDelete b script).length ≤ script.length := by
  unfold findAndDelete
  split
  · exact le_rfl
  · exact deleteFrom_length b script.length script

end Script

namespace Transaction

/-! ### The types -/

/-- `(type & 0x1f) == SIGHASH_NONE`. -/
def isNone (type : Int) : Bool := decide (type % 32 = 2)

/-- `(type & 0x1f) == SIGHASH_SINGLE`. -/
def isSingle (type : Int) : Bool := decide (type % 32 = 3)

/-- `type & SIGHASH_ANYONECANPAY`. -/
def anyoneCanPay (type : Int) : Bool := decide (type / 128 % 2 = 1)

/-! ### The transaction that is hashed -/

/-- The scripts of the inputs are blanked, but for that of the input that is signed. -/
def blankScripts (scriptCode : Script) (n : Nat) (inputs : List Input) : List Input :=
  (inputs.map fun input => { input with signature := [] }).modify n fun input =>
    { input with signature := scriptCode }

/-- The sequences of the others are set to 0. -/
def freeSequences (n : Nat) (inputs : List Input) : List Input :=
  inputs.mapIdx fun i input => if i ≠ n then { input with sequence := 0 } else input

/-- `Output::setNull`. -/
def nullOutput : Output := { value := -1, script := [] }

/-- The outputs up to the one with the index, and those before it set to null. -/
def singleOutput (n : Nat) (outputs : List Output) : List Output :=
  (outputs.take (n + 1)).mapIdx fun i output => if i < n then nullOutput else output

/-- The inputs are only the one that is signed. -/
def onlyInput (n : Nat) (inputs : List Input) : List Input :=
  match inputs[n]? with
  | none => inputs
  | some input => (inputs.set 0 input).take 1

/-- The copy of the transaction that is hashed. -/
def signatureTxn (txn : Transaction) (scriptCode : Script) (n : Nat) (type : Int) : Option Transaction :=
  if txn.inputs.length ≤ n then none
  else
    let scriptCode := Script.findAndDelete [171] scriptCode -- `OP_CODESEPARATOR`
    let copy := { txn with inputs := blankScripts scriptCode n txn.inputs }
    let blanked :=
      if isNone type then some { copy with outputs := [], inputs := freeSequences n copy.inputs }
      else if isSingle type then
        if copy.outputs.length ≤ n then none
        else some { copy with outputs := singleOutput n copy.outputs, inputs := freeSequences n copy.inputs }
      else some copy
    blanked.map fun copy => if anyoneCanPay type then { copy with inputs := onlyInput n copy.inputs } else copy

/-- `getSignatureHash`, for a hash function. -/
def getSignatureHash (hash : Data → Uint256) (txn : Transaction) (scriptCode : Script) (n : Nat) (type : Int) :
    Uint256 :=
  match txn.signatureTxn scriptCode n type with
  | none => 1
  | some copy => hash (writeTransaction copy ++ writeInt 4 type)

/-! ### Its parts -/

section Parts

variable {txn txn' : Transaction} {scriptCode : Script} {n n' : Nat} {type : Int} {inputs inputs' : List Input}
  {outputs outputs' : List Output}

/-- What an input is but for its script. -/
def core (input : Input) : Coin × Nat := (input.prevout, input.sequence)

/-- The input that is signed. -/
def signed (scriptCode : Script) (input : Input) : Input := { input with signature := scriptCode }

/-- An input of the copy. -/
def sealedInput (free : Bool) (scriptCode : Script) (n i : Nat) (input : Input) : Input :=
  if i = n then signed scriptCode input
  else { input with signature := [], sequence := if free then 0 else input.sequence }

/-- The inputs of the copy, before those of others are removed. -/
def sealedInputs (free : Bool) (scriptCode : Script) (n : Nat) (inputs : List Input) : List Input :=
  inputs.mapIdx (sealedInput free scriptCode n)

theorem blankScripts_eq (scriptCode : Script) (n : Nat) (inputs : List Input) :
    blankScripts scriptCode n inputs = sealedInputs false scriptCode n inputs := by
  refine List.ext_getElem? fun i => ?_
  unfold blankScripts sealedInputs
  rw [List.getElem?_modify, List.getElem?_map, List.getElem?_mapIdx]
  cases inputs[i]? with
  | none => rfl
  | some input =>
    unfold sealedInput
    by_cases own : i = n
    · simp [own, signed]
    · simp [own, Ne.symm own]

theorem freeSequences_eq (scriptCode : Script) (n : Nat) (inputs : List Input) :
    freeSequences n (sealedInputs false scriptCode n inputs) = sealedInputs true scriptCode n inputs := by
  unfold freeSequences sealedInputs
  rw [List.mapIdx_mapIdx]
  congr 1
  funext i input
  unfold sealedInput
  by_cases own : i = n
  · simp [own]
  · simp [own]

/-- Only the input that is signed is left, wherever it was. -/
theorem onlyInput_eq {free : Bool} {input : Input} (at_ : inputs[n]? = some input) :
    onlyInput n (sealedInputs free scriptCode n inputs) = [signed scriptCode input] := by
  have sealed : (sealedInputs free scriptCode n inputs)[n]? = some (signed scriptCode input) := by
    unfold sealedInputs
    rw [List.getElem?_mapIdx, at_]
    exact congrArg some (if_pos rfl)
  unfold onlyInput
  rw [sealed]
  cases inputs with
  | nil => cases at_
  | cons first inputs =>
    unfold sealedInputs
    rw [List.mapIdx_cons]
    rfl

/-- The outputs of the copy. -/
def outputsOf (type : Int) (n : Nat) (outputs : List Output) : Option (List Output) :=
  if isNone type then some []
  else if isSingle type then if outputs.length ≤ n then none else some (singleOutput n outputs)
  else some outputs

/-- The inputs of the copy. -/
def inputsOf (type : Int) (scriptCode : Script) (n : Nat) (inputs : List Input) : List Input :=
  if anyoneCanPay type then (inputs[n]?).toList.map (signed scriptCode)
  else sealedInputs (isNone type || isSingle type) scriptCode n inputs

/-- **The parts of the copy.** -/
theorem signatureTxn_eq (scriptCode : Script) (type : Int) (valid : n < txn.inputs.length) :
    txn.signatureTxn scriptCode n type = (outputsOf type n txn.outputs).map fun outputs =>
      { txn with
        inputs := inputsOf type (Script.findAndDelete [171] scriptCode) n txn.inputs, outputs := outputs } := by
  have at_ := List.getElem?_eq_getElem valid
  unfold signatureTxn outputsOf inputsOf
  rw [if_neg (Nat.not_le.mpr valid), at_]
  dsimp only
  rw [blankScripts_eq, freeSequences_eq]
  cases isNone type <;> cases isSingle type <;> cases anyoneCanPay type <;>
    simp [onlyInput_eq at_] <;> split <;> simp [onlyInput_eq at_]

/-! ### What does not matter -/

/-- Inputs that are the same but for their scripts, and those of others but for their sequences. -/
theorem sealedInputs_congr {free : Bool} (prevouts : inputs.map Input.prevout = inputs'.map Input.prevout)
    (sequence : (inputs[n]?).map Input.sequence = (inputs'[n]?).map Input.sequence)
    (sequences : free = false → inputs.map Input.sequence = inputs'.map Input.sequence) :
    sealedInputs free scriptCode n inputs = sealedInputs free scriptCode n inputs' := by
  refine List.ext_getElem? fun i => ?_
  have prevout := congrArg (·[i]?) prevouts
  have others (fixed : free = false) := congrArg (·[i]?) (sequences fixed)
  simp only [List.getElem?_map] at prevout others
  unfold sealedInputs
  rw [List.getElem?_mapIdx, List.getElem?_mapIdx]
  cases at_ : inputs[i]? with
  | none =>
    rw [at_] at prevout
    rw [Option.map_eq_none_iff.mp prevout.symm]
  | some input =>
    rw [at_] at prevout others
    obtain ⟨input', at_', coin⟩ := Option.map_eq_some_iff.mp prevout.symm
    rw [at_'] at others ⊢
    obtain ⟨spent, signature, number⟩ := input
    obtain ⟨spent', signature', number'⟩ := input'
    obtain rfl : spent' = spent := coin
    refine congrArg some ?_
    unfold sealedInput signed
    by_cases own : i = n
    · rw [own] at at_ at_'
      rw [at_, at_'] at sequence
      rw [if_pos own, if_pos own, show number = number' from Option.some.inj sequence]
    · rw [if_neg own, if_neg own]
      cases free with
      | false => rw [show number = number' from Option.some.inj (others rfl)]
      | true => rfl

/-- The outputs before the one with the index do not matter, nor do those after it. -/
theorem singleOutput_congr {output : Output} (at_ : outputs[n]? = some output)
    (at_' : outputs'[n]? = some output) :
    singleOutput n outputs = singleOutput n outputs' := by
  obtain ⟨inside, rfl⟩ := List.getElem?_eq_some_iff.mp at_
  obtain ⟨inside', same⟩ := List.getElem?_eq_some_iff.mp at_'
  refine List.ext_getElem ?_ fun i one two => ?_
  · unfold singleOutput
    rw [List.length_mapIdx, List.length_mapIdx, List.length_take, List.length_take]
    omega
  · unfold singleOutput at one two ⊢
    rw [List.length_mapIdx, List.length_take] at one two
    rw [List.getElem_mapIdx, List.getElem_mapIdx, List.getElem_take, List.getElem_take]
    by_cases before : i < n
    · rw [if_pos before, if_pos before]
    · obtain rfl : i = n := by omega
      rw [if_neg before, if_neg before, same]

/-! ### What matters -/

/-- The inputs are the same but for their scripts. -/
theorem core_of_sealedInputs
    (same : sealedInputs false scriptCode n inputs = sealedInputs false scriptCode n inputs') :
    inputs.map core = inputs'.map core := by
  have kept (inputs : List Input) : (sealedInputs false scriptCode n inputs).map core = inputs.map core := by
    refine List.ext_getElem? fun i => ?_
    unfold sealedInputs
    rw [List.getElem?_map, List.getElem?_mapIdx, List.getElem?_map, Option.map_map]
    congr 1
    funext input
    unfold sealedInput
    simp only [Function.comp_apply]
    split <;> rfl
  rw [← kept inputs, same, kept]

/-- The input that is signed is the same but for its script. -/
theorem core_of_inputsOf (same : inputsOf type scriptCode n inputs = inputsOf type scriptCode n inputs') :
    (inputs[n]?).map core = (inputs'[n]?).map core := by
  have signed_eq : (inputs[n]?).map (signed scriptCode) = (inputs'[n]?).map (signed scriptCode) := by
    unfold inputsOf at same
    split at same
    · have heads := congrArg List.head? same
      rwa [List.head?_map, List.head?_map, Option.head?_toList, Option.head?_toList] at heads
    · have at_ := congrArg (·[n]?) same
      unfold sealedInputs at at_
      simp only [List.getElem?_mapIdx] at at_
      have own (free : Bool) : sealedInput free scriptCode n n = signed scriptCode :=
        funext fun input => if_pos rfl
      rwa [own] at at_
  have cores := congrArg (Option.map core) signed_eq
  rwa [Option.map_map, Option.map_map] at cores

/-- The output with the index is the same. -/
theorem getElem?_of_singleOutput (inside : n < outputs.length) (inside' : n < outputs'.length)
    (same : singleOutput n outputs = singleOutput n outputs') : outputs[n]? = outputs'[n]? := by
  have kept {outputs : List Output} (inside : n < outputs.length) :
    (singleOutput n outputs)[n]? = outputs[n]? := by
    unfold singleOutput
    rw [List.getElem?_mapIdx, List.getElem?_take_of_lt (Nat.lt_succ_self n)]
    simp
  rw [← kept inside, same, kept inside']

end Parts

/-! ### Commitments -/

section Commits

variable {hash : Data → Uint256} {txn txn' copy : Transaction} {scriptCode : Script} {n n' : Nat} {type : Int}

/-- Outputs that are the same as far as the type commits to them. -/
def SameOutputs (type : Int) (n : Nat) (outputs outputs' : List Output) : Prop :=
  if isNone type then True else if isSingle type then outputs[n]? = outputs'[n]? else outputs = outputs'

/-- Transactions that are the same but for outputs, scripts and the sequences of other inputs. -/
structure SameFrame (n : Nat) (txn txn' : Transaction) : Prop where
  version : txn.version = txn'.version
  lockTime : txn.lockTime = txn'.lockTime
  prevouts : txn.inputs.map Input.prevout = txn'.inputs.map Input.prevout
  sequence : (txn.inputs[n]?).map Input.sequence = (txn'.inputs[n]?).map Input.sequence

/-- The hash of what is hashed for one transaction is not that of the other one. -/
def HashApart (hash : Data → Uint256) (scriptCode : Script) (n : Nat) (type : Int)
    (txn txn' : Transaction) : Prop :=
  ∀ copy ∈ txn.signatureTxn scriptCode n type, ∀ copy' ∈ txn'.signatureTxn scriptCode n type,
    hash (writeTransaction copy ++ writeInt 4 type) = hash (writeTransaction copy' ++ writeInt 4 type) →
      writeTransaction copy ++ writeInt 4 type = writeTransaction copy' ++ writeInt 4 type

/-- Outputs that are the same for the type have the same copy. -/
theorem outputsOf_congr {outputs outputs' : List Output} (same : SameOutputs type n outputs outputs') :
    outputsOf type n outputs = outputsOf type n outputs' := by
  unfold SameOutputs at same
  unfold outputsOf
  cases none : isNone type with
  | true => rfl
  | false =>
    rw [none, if_neg Bool.false_ne_true] at same
    rw [if_neg Bool.false_ne_true, if_neg Bool.false_ne_true]
    cases single : isSingle type with
    | false =>
      rw [single, if_neg Bool.false_ne_true] at same
      rw [same]
    | true =>
      rw [single, if_pos rfl] at same
      rw [if_pos rfl, if_pos rfl]
      by_cases outside : outputs.length ≤ n
      · have outside' := List.getElem?_eq_none_iff.mp (same.symm.trans (List.getElem?_eq_none outside))
        rw [if_pos outside, if_pos outside']
      · have at_ := List.getElem?_eq_getElem (Nat.lt_of_not_le outside)
        obtain ⟨inside', -⟩ := List.getElem?_eq_some_iff.mp (same.symm.trans at_)
        rw [if_neg outside, if_neg (Nat.not_le.mpr inside'), singleOutput_congr at_ (same.symm.trans at_)]

/-- The input that is signed is the same but for its script. -/
theorem map_signed {input input' : Option Input} (same : input.map core = input'.map core) :
    input.map (signed scriptCode) = input'.map (signed scriptCode) := by
  have parts : signed scriptCode = (fun core =>
    { prevout := core.1, signature := scriptCode, sequence := core.2 }) ∘
      core := rfl
  rw [parts, ← Option.map_map, same, Option.map_map]

/-- Transactions with the same copies have the same hash. -/
theorem getSignatureHash_congr (valid : n < txn.inputs.length) (valid' : n' < txn'.inputs.length)
    (version : txn.version = txn'.version) (lockTime : txn.lockTime = txn'.lockTime)
    (inputs : ∀ scriptCode, inputsOf type scriptCode n txn.inputs = inputsOf type scriptCode n' txn'.inputs)
    (outputs : outputsOf type n txn.outputs = outputsOf type n' txn'.outputs) :
    txn.getSignatureHash hash scriptCode n type = txn'.getSignatureHash hash scriptCode n' type := by
  have copies : txn.signatureTxn scriptCode n type = txn'.signatureTxn scriptCode n' type := by
    rw [signatureTxn_eq scriptCode type valid, signatureTxn_eq scriptCode type valid', outputs, inputs, version,
      lockTime]
  unfold getSignatureHash
  rw [copies]

/-- A transaction in the same frame has as many inputs, and the same input that is signed. -/
theorem SameFrame.signedInput (frame : SameFrame n txn txn') :
    (txn.inputs[n]?).map core = (txn'.inputs[n]?).map core := by
  have prevout := congrArg (·[n]?) frame.prevouts
  have sequence := frame.sequence
  simp only [List.getElem?_map] at prevout
  cases at_ : txn.inputs[n]? with
  | none =>
    rw [at_] at prevout
    rw [Option.map_eq_none_iff.mp prevout.symm]
  | some input =>
    rw [at_] at prevout sequence
    obtain ⟨input', at_', coin⟩ := Option.map_eq_some_iff.mp prevout.symm
    rw [at_'] at sequence ⊢
    exact congrArg some (Prod.ext coin.symm (Option.some.inj sequence))

/-- Transactions in the same frame have the same hash, if the sequences of others are free. -/
theorem SameFrame.hash_eq (frame : SameFrame n txn txn') (valid : n < txn.inputs.length)
    (free : isNone type = true ∨ isSingle type = true) (outputs : SameOutputs type n txn.outputs txn'.outputs) :
    txn.getSignatureHash hash scriptCode n type = txn'.getSignatureHash hash scriptCode n type := by
  have long : txn.inputs.length = txn'.inputs.length := by
    have lengths := congrArg List.length frame.prevouts
    rwa [List.length_map, List.length_map] at lengths
  refine getSignatureHash_congr valid (long ▸ valid) frame.version frame.lockTime (fun scriptCode => ?_)
    (outputsOf_congr outputs)
  unfold inputsOf
  split
  · rw [← Option.toList_map, ← Option.toList_map, map_signed frame.signedInput]
  · have freed : (isNone type || isSingle type) = true := Bool.or_eq_true_iff.mpr free
    rw [freed]
    exact sealedInputs_congr frame.prevouts frame.sequence fun fixed => absurd fixed.symm Bool.false_ne_true

theorem inputsOf_typed {inputs : List Input} (fits : ScriptFits scriptCode)
    (typed : ∀ input ∈ inputs, input.Typed) :
    (inputsOf type scriptCode n inputs).length ≤ inputs.length ∧
      ∀ input ∈ inputsOf type scriptCode n inputs, input.Typed := by
  have signed_typed {input : Input} (typed : input.Typed) : (signed scriptCode input).Typed :=
    { typed with signature := fits }
  unfold inputsOf
  split
  · cases at_ : inputs[n]? with
    | none => exact ⟨Nat.zero_le _, nofun⟩
    | some input =>
      obtain ⟨inside, -⟩ := List.getElem?_eq_some_iff.mp at_
      refine ⟨Nat.succ_le_of_lt (Nat.zero_lt_of_lt inside), fun own member => ?_⟩
      obtain rfl := List.mem_singleton.mp member
      exact signed_typed (typed input (List.mem_of_getElem? at_))
  · unfold sealedInputs
    refine ⟨(List.length_mapIdx ..).le, fun own member => ?_⟩
    obtain ⟨i, inside, rfl⟩ := List.mem_mapIdx.mp member
    have typed := typed _ (List.getElem_mem inside)
    unfold sealedInput
    split
    · exact signed_typed typed
    · refine { prevout := typed.prevout, signature := Nat.zero_le _, sequence := ?_ }
      split
      · exact (by decide : 0 < 256 ^ 4)
      · exact typed.sequence

theorem outputsOf_typed {outputs copied : List Output} (typed : ∀ output ∈ outputs, output.Typed)
    (of : outputsOf type n outputs = some copied) :
    copied.length ≤ outputs.length ∧ ∀ output ∈ copied, output.Typed := by
  unfold outputsOf at of
  split at of
  · obtain rfl := Option.some.inj of
    exact ⟨Nat.zero_le _, nofun⟩
  · split at of
    · split at of
      · cases of
      · obtain rfl := Option.some.inj of
        unfold singleOutput
        refine ⟨by rw [List.length_mapIdx, List.length_take]; exact Nat.min_le_right _ _, fun output member => ?_⟩
        obtain ⟨i, inside, rfl⟩ := List.mem_mapIdx.mp member
        split
        · exact { value := show FitsSigned 8 (-1) by decide, script := Nat.zero_le _ }
        · exact typed _ (List.mem_of_mem_take (List.getElem_mem inside))
    · obtain rfl := Option.some.inj of
      exact ⟨le_rfl, typed⟩

/-- The copy is a transaction that can be written. -/
theorem signatureTxn_typed (typed : txn.Typed) (fits : ScriptFits scriptCode)
    (made : copy ∈ txn.signatureTxn scriptCode n type) : copy.Typed := by
  have valid : n < txn.inputs.length := by
    by_contra outside
    unfold signatureTxn at made
    rw [if_pos (Nat.le_of_not_lt outside)] at made
    cases made
  rw [signatureTxn_eq scriptCode type valid, Option.mem_def] at made
  obtain ⟨outputs, of, rfl⟩ := Option.map_eq_some_iff.mp made
  have code : ScriptFits (Script.findAndDelete [171] scriptCode) := (Script.findAndDelete_length _ _).trans fits
  have inputs : (inputsOf type (Script.findAndDelete [171] scriptCode) n txn.inputs).length ≤ txn.inputs.length ∧
      ∀ input ∈ inputsOf type (Script.findAndDelete [171] scriptCode) n txn.inputs, input.Typed :=
    inputsOf_typed code typed.inputs
  have outputs := outputsOf_typed typed.outputs of
  exact
    { version := typed.version, lockTime := typed.lockTime
      few_inputs := inputs.1.trans typed.few_inputs, inputs := inputs.2
      few_outputs := outputs.1.trans typed.few_outputs, outputs := outputs.2 }

/-- **Equal hashes have equal copies.** -/
theorem copies_of_getSignatureHash (typed : txn.Typed) (typed' : txn'.Typed) (fits : ScriptFits scriptCode)
    (apart : HashApart hash scriptCode n type txn txn') {copy copy' : Transaction}
    (made : txn.signatureTxn scriptCode n type = some copy)
    (made' : txn'.signatureTxn scriptCode n type = some copy')
    (same : txn.getSignatureHash hash scriptCode n type = txn'.getSignatureHash hash scriptCode n type) :
    copy = copy' := by
  unfold getSignatureHash at same
  rw [made, made'] at same
  have fits₁ := signatureTxn_typed typed fits made
  have fits₂ := signatureTxn_typed typed' fits made'
  exact (readTransaction_back.unique fits₁ fits₂ (apart copy made copy' made' same)).1

/-- Equal hashes have copies with equal parts, if neither of them is the error value. -/
theorem parts_of_getSignatureHash (typed : txn.Typed) (typed' : txn'.Typed) (fits : ScriptFits scriptCode)
    (valid : n < txn.inputs.length) (valid' : n < txn'.inputs.length)
    (apart : HashApart hash scriptCode n type txn txn') {outputs outputs' : List Output}
    (of : outputsOf type n txn.outputs = some outputs) (of' : outputsOf type n txn'.outputs = some outputs')
    (same : txn.getSignatureHash hash scriptCode n type = txn'.getSignatureHash hash scriptCode n type) :
    txn.version = txn'.version ∧ txn.lockTime = txn'.lockTime ∧ outputs = outputs' ∧
      ∃ scriptCode, inputsOf type scriptCode n txn.inputs = inputsOf type scriptCode n txn'.inputs := by
  have made := signatureTxn_eq scriptCode type valid
  have made' := signatureTxn_eq scriptCode type valid'
  rw [of, Option.map_some] at made
  rw [of', Option.map_some] at made'
  obtain ⟨version, inputs, outputs, lockTime⟩ :=
    Transaction.mk.inj (copies_of_getSignatureHash typed typed' fits apart made made' same)
  exact ⟨version, lockTime, outputs, _, inputs⟩

/-- What the signature hash of an input commits to, of two transactions. -/
structure Commits (hash : Data → Uint256) (scriptCode : Script) (n : Nat) (type : Int) (txn txn' : Transaction) :
    Prop where
  scripts : txn.version = txn'.version → txn.lockTime = txn'.lockTime →
    txn.inputs.map core = txn'.inputs.map core →
    txn.outputs = txn'.outputs →
    txn.getSignatureHash hash scriptCode n type = txn'.getSignatureHash hash scriptCode n type
  all : isNone type = false → isSingle type = false →
    txn.getSignatureHash hash scriptCode n type = txn'.getSignatureHash hash scriptCode n type →
    txn.version = txn'.version ∧ txn.lockTime = txn'.lockTime ∧ txn.outputs = txn'.outputs ∧
      (anyoneCanPay type = false → txn.inputs.map core = txn'.inputs.map core)
  none : isNone type = true → SameFrame n txn txn' →
    txn.getSignatureHash hash scriptCode n type = txn'.getSignatureHash hash scriptCode n type
  single : isSingle type = true → n < txn.outputs.length → n < txn'.outputs.length →
    (SameFrame n txn txn' → txn.outputs[n]? = txn'.outputs[n]? →
      txn.getSignatureHash hash scriptCode n type = txn'.getSignatureHash hash scriptCode n type) ∧
    (txn.outputs[n]? ≠ txn'.outputs[n]? →
      txn.getSignatureHash hash scriptCode n type ≠ txn'.getSignatureHash hash scriptCode n type)
  anyone : anyoneCanPay type = true → ∀ n', (isSingle type = true → n' = n) →
    (txn.inputs[n]?).map core = (txn'.inputs[n']?).map core → txn.version = txn'.version →
    txn.lockTime = txn'.lockTime → SameOutputs type n txn.outputs txn'.outputs →
    txn.getSignatureHash hash scriptCode n type = txn'.getSignatureHash hash scriptCode n' type
  signedInput : anyoneCanPay type = true →
    (isSingle type = true → n < txn.outputs.length ∧ n < txn'.outputs.length) →
    (txn.inputs[n]?).map core ≠ (txn'.inputs[n]?).map core →
    txn.getSignatureHash hash scriptCode n type ≠ txn'.getSignatureHash hash scriptCode n type

/-- The copy has outputs, but for an index beyond them. -/
theorem outputsOf_defined (type : Int) {outputs : List Output}
    (inside : isSingle type = true → n < outputs.length) :
    ∃ copied, outputsOf type n outputs = some copied := by
  unfold outputsOf
  split
  · exact ⟨_, rfl⟩
  · split
    · exact ⟨_, if_neg (Nat.not_le.mpr (inside ‹_›))⟩
    · exact ⟨_, rfl⟩

/-- **What a signature commits to**: for every type, what can be changed without a change of the hash, and what
can not. -/
theorem getSignatureHash_commits (hash : Data → Uint256) {scriptCode : Script} (fits : ScriptFits scriptCode)
    (type : Int) {txn txn' : Transaction} (typed : txn.Typed) (typed' : txn'.Typed) {n : Nat}
    (valid : n < txn.inputs.length) (valid' : n < txn'.inputs.length)
    (apart : HashApart hash scriptCode n type txn txn') : Commits hash scriptCode n type txn txn' where
  scripts version lockTime inputs outputs := by
    have prevouts := congrArg (List.map Prod.fst) inputs
    have sequences := congrArg (List.map Prod.snd) inputs
    have own := congrArg (·[n]?) inputs
    rw [List.map_map, List.map_map] at prevouts sequences
    simp only [List.getElem?_map] at own
    have sequence := congrArg (Option.map Prod.snd) own
    rw [Option.map_map, Option.map_map] at sequence
    refine getSignatureHash_congr valid valid' version lockTime (fun code => ?_) (by rw [outputs])
    unfold inputsOf
    split
    · rw [← Option.toList_map, ← Option.toList_map, map_signed own]
    · exact sealedInputs_congr prevouts sequence fun _ => sequences
  all notNone notSingle same := by
    have whole (outputs : List Output) : outputsOf type n outputs = some outputs := by
      unfold outputsOf
      rw [notNone, notSingle]
      rfl
    obtain ⟨version, lockTime, outputs, code, inputs⟩ :=
      parts_of_getSignatureHash typed typed' fits valid valid' apart (whole _) (whole _) same
    refine ⟨version, lockTime, outputs, fun others => ?_⟩
    unfold inputsOf at inputs
    rw [others, notNone, notSingle] at inputs
    exact core_of_sealedInputs inputs
  none is frame := frame.hash_eq valid (.inl is) (by unfold SameOutputs; rw [is]; trivial)
  single is inside inside' := by
    have notNone : isNone type = false := by
      have value := of_decide_eq_true is
      exact decide_eq_false (by omega)
    refine ⟨fun frame output => frame.hash_eq valid (.inr is) ?_, fun differ same => differ ?_⟩
    · unfold SameOutputs
      rw [notNone, is]
      exact output
    · have of {outputs : List Output} (inside : n < outputs.length) :
          outputsOf type n outputs = some (singleOutput n outputs) := by
        unfold outputsOf
        rw [notNone, is]
        exact if_neg (Nat.not_le.mpr inside)
      obtain ⟨-, -, outputs, -⟩ :=
        parts_of_getSignatureHash typed typed' fits valid valid' apart (of inside) (of inside') same
      exact getElem?_of_singleOutput inside inside' outputs
  anyone is n' index signed version lockTime outputs := by
    have inside : n' < txn'.inputs.length := by
      by_contra outside
      rw [List.getElem?_eq_none (Nat.le_of_not_lt outside), List.getElem?_eq_getElem valid] at signed
      cases signed
    refine getSignatureHash_congr valid inside version lockTime (fun code => ?_) ?_
    · unfold inputsOf
      rw [is, if_pos rfl, if_pos rfl, ← Option.toList_map, ← Option.toList_map, map_signed signed]
    · have same := outputsOf_congr outputs
      cases single : isSingle type with
      | true => rw [index single, same]
      | false =>
        rw [same]
        unfold outputsOf
        rw [single]
        rfl
  signedInput is inside differ same := by
    obtain ⟨outputs, of⟩ := outputsOf_defined type fun single => (inside single).1
    obtain ⟨outputs', of'⟩ := outputsOf_defined type fun single => (inside single).2
    obtain ⟨-, -, -, code, inputs⟩ :=
      parts_of_getSignatureHash typed typed' fits valid valid' apart of of' same
    exact differ (core_of_inputsOf inputs)

end Commits

end Transaction

namespace Small

/-- Bytes in base 3, so that those are told apart that differ in one place. -/
def digest (bytes : Data) : Uint256 := bytes.foldl (fun sum byte => sum * 3 + Fin.ofNat _ byte.toNat) 0

/-- A transaction with one input. -/
def spendCoin (index : Nat) (outputs : List Output) : Transaction :=
  { noTxn with inputs := [{ prevout := { hash := 5, index := index }, signature := [1], sequence := 7 }]
               outputs := outputs }

theorem spendCoin_typed {index : Nat} {outputs : List Output} (small : index < 256 ^ 4)
    (few : outputs.length ≤ maxVarint) (typed : ∀ output ∈ outputs, output.Typed) :
    (spendCoin index outputs).Typed where
  version := show FitsSigned 4 1 by decide
  few_inputs := show 1 ≤ maxVarint by decide
  inputs input member := by
    obtain rfl := List.mem_singleton.mp member
    exact { prevout := small, signature := show 1 ≤ maxVarint by decide, sequence := show 7 < 256 ^ 4 by decide }
  few_outputs := few
  outputs := typed
  lockTime := show FitsUnsigned 4 0 by decide

end Small

namespace Transaction

open Libcoin.Small in
/-- An input without an output at its index, with `SIGHASH_SINGLE` and `SIGHASH_ANYONECANPAY`: what it spends does
not matter. -/
theorem getSignatureHash_error : HashApart digest [] 0 0x83 (spendCoin 0 []) (spendCoin 1 []) ∧
    anyoneCanPay 0x83 = true ∧ ((spendCoin 0 []).inputs[0]?).map core ≠ ((spendCoin 1 []).inputs[0]?).map core ∧
    (spendCoin 0 []).getSignatureHash digest [] 0 0x83 = (spendCoin 1 []).getSignatureHash digest [] 0 0x83 :=
  ⟨nofun, by decide, by decide, by decide⟩

open Libcoin.Small in
/-- Two transactions that spend other coins, with an output. -/
theorem getSignatureHash_commits_spendCoin :
    Commits digest [172] 0 0x83 (spendCoin 0 [{ value := 9, script := [] }])
      (spendCoin 1 [{ value := 9, script := [] }]) := by
  have output : ∀ output ∈ [{ value := 9, script := [] : Output }], output.Typed := fun output member =>
    List.mem_singleton.mp member ▸ ⟨show FitsSigned 8 9 by decide, Nat.zero_le _⟩
  have fits : ScriptFits [172] := show 1 ≤ maxVarint by decide
  refine getSignatureHash_commits digest fits 0x83
    (spendCoin_typed (by decide) (by decide) output) (spendCoin_typed (by decide) (by decide) output) (by decide)
    (by decide) ?_
  intro copy made copy' made' same
  obtain rfl := Option.some.inj made
  obtain rfl := Option.some.inj made'
  revert same
  decide +kernel

end Transaction

end Libcoin
