/-
`TransactionEvaluator` and `Transaction::verify`.

* `TxMembers` are the members of the subclass. An iterator into the script of an earlier evaluation is `before`,
  and its use leaves the result undefined.
* `eval_cases` says what a turn of the subclass is. `run_known`, `run_own`, `run_true` and `run_base` follow from
  it for a whole evaluation.
* `verify` runs one evaluator over the signature script, the output script, and the script that was hashed.

The check of a signature by a key is a parameter.
-/

import Libcoin.Script.NameRules
import Libcoin.Script.SignatureHash

namespace Libcoin

open Evaluator

namespace Script

/-- `isPushOnly`. -/
def isPushOnly (script : Script) : Bool :=
  (ops script).all fun op => match op with
    | none => false
    | some (opcode, _) => decide (opcode ≤ 96)

/-- `isPayToScriptHash`. -/
def isPayToScriptHash (script : Script) : Bool :=
  decide (script.length = 23 ∧ script.getD 0 0 = 169 ∧ script.getD 1 0 = 0x14 ∧ script.getD 22 0 = 135)

end Script

/-! ### The subclass -/

/-- `_code_separator` and `_codehash`: no place, one in the script, or one in a script before. -/
inductive Separator
  | none
  | here (rest : Script)
  | before
  deriving DecidableEq, Repr

/-- The members of `TransactionEvaluator` that change, and whether an iterator of another script was used. -/
structure TxMembers where
  separator : Separator
  undefined : Bool
  deriving DecidableEq, Repr

abbrev TxEvaluator := Evaluator TxMembers

namespace TxEvaluator

def new : TxEvaluator := Evaluator.new { separator := .none, undefined := false }

/-- The script from the most recent separator. -/
def code (script : Script) : Separator → Option Script
  | .none => some script
  | .here rest => some rest
  | .before => none

/-- An iterator of another script is used. -/
def undefinedCode (s : TxEvaluator) : Turn TxMembers :=
    .done false { s with own := { s.own with undefined := true } }

/-- The result of a check, which is left on the stack or verified. -/
def leave (verify result : Bool) (stack : List Data) (s : TxEvaluator) : Turn TxMembers :=
  if !verify then .next { s with stack := boolBytes result :: stack }
  else if result then .next { s with stack := stack }
  else .done false { s with stack := boolBytes result :: stack }

/-- What `operator()` sets. A place in the script before is not one in this script. -/
def restart (s : TxEvaluator) : TxEvaluator :=
  let separator := if s.own.separator = .none then .none else .before
  { s with opCount := 0, own := { s.own with separator := separator } }

section Signatures

variable (checkSig : Data → Data → Script → Bool)

/-- `OP_CHECKSIG` and `OP_CHECKSIGVERIFY`. -/
def evalCheckSig (verify : Bool) (script : Script) (s : TxEvaluator) : Turn TxMembers :=
  match s.stack with
  | vchPubKey :: vchSig :: rest =>
    match code script s.own.separator with
    | none => undefinedCode s
    | some scriptCode =>
      let scriptCode := Script.findAndDelete (Script.pushData vchSig) scriptCode
      leave verify (checkSig vchSig vchPubKey scriptCode) rest s
  | _ => .done false s

/-- The loop of `OP_CHECKMULTISIG` over signatures and keys. -/
def matchSigs (scriptCode : Script) : List Data → List Data → Bool
  | [], _ => true
  | _ :: _, [] => false
  | vchSig :: sigs, vchPubKey :: keys =>
    let left := if checkSig vchSig vchPubKey scriptCode then sigs else vchSig :: sigs
    if keys.length < left.length then false else matchSigs scriptCode left keys

/-- `OP_CHECKMULTISIG` and `OP_CHECKMULTISIGVERIFY`. -/
def evalCheckMultiSig (verify : Bool) (script : Script) (s : TxEvaluator) : Turn TxMembers :=
  match s.stack with
  | [] => .done false s
  | keysCount :: afterKeysCount =>
    match castToBigNum keysCount with
    | none => .done false s
    | some nKeysCount =>
      if nKeysCount < 0 ∨ 20 < nKeysCount then .done false s
      else
        let s := { s with opCount := s.opCount + nKeysCount.toNat }
        if 201 < s.opCount then .done false s
        else
          let keys := afterKeysCount.take nKeysCount.toNat
          match afterKeysCount.drop nKeysCount.toNat with
          | [] => .done false s
          | sigsCount :: afterSigsCount =>
            match castToBigNum sigsCount with
            | none => .done false s
            | some nSigsCount =>
              if nSigsCount < 0 ∨ nKeysCount < nSigsCount then .done false s
              else
                let sigs := afterSigsCount.take nSigsCount.toNat
                -- one value more is taken from the stack
                match afterSigsCount.drop nSigsCount.toNat with
                | [] => .done false s
                | _ :: rest =>
                  match code script s.own.separator with
                  | none => undefinedCode s
                  | some scriptCode =>
                    let scriptCode := sigs.foldl
                      (fun scriptCode vchSig =>
                        Script.findAndDelete (Script.pushData vchSig) scriptCode) scriptCode
                    leave verify (matchSigs checkSig scriptCode sigs keys) rest s

/-- `eval`, for an opcode of the script with so much of it left. -/
def eval (hashers : Hashers) (script current : Script) (opcode : Nat) (s : TxEvaluator) : Turn TxMembers :=
  match Evaluator.eval hashers opcode s with
  | .done result s => .done result s
  | .next s =>
    if opcode = 171 then .next { s with own := { s.own with separator := .here current } }
    else if opcode = 172 ∨ opcode = 173 then evalCheckSig checkSig (decide (opcode = 173)) script s
    else if opcode = 174 ∨ opcode = 175 then evalCheckMultiSig checkSig (decide (opcode = 175)) script s
    else .next s

/-- `operator()`. -/
def run (hashers : Hashers) (script : Script) (s : TxEvaluator) : Bool × TxEvaluator :=
  if 10000 < script.length then (false, s.restart)
  else loopAt (eval checkSig hashers script) (Script.opsAt script) s.restart

end Signatures

/-! ### What the subclass changes -/

section Turns

variable {checkSig : Data → Data → Script → Bool} {hashers : Hashers} {script current : Script} {opcode : Nat}
  {verify result : Bool} {stack : List Data} {s s' : TxEvaluator} {turn : Turn TxMembers}

/-- What the opcodes of signatures do: they refuse, or have no script to check, or take values from the stack and
leave the result. -/
inductive CheckTurn (script : Script) (s : TxEvaluator) : Turn TxMembers → Prop
  | refused (count : Nat) : CheckTurn script s (.done false { s with opCount := count })
  | undefined (count : Nat) (unknown : code script s.own.separator = none) :
      CheckTurn script s (undefinedCode { s with opCount := count })
  | left (count : Nat) (verify result : Bool) (rest : List Data) (taken : ∀ value ∈ rest, value ∈ s.stack) :
      CheckTurn script s (leave verify result rest { s with opCount := count })

theorem evalCheckSig_turn : CheckTurn script s (evalCheckSig checkSig verify script s) := by
  unfold evalCheckSig
  split
  · rename_i vchPubKey vchSig rest given
    split
    · rename_i unknown
      exact .undefined s.opCount unknown
    · refine .left s.opCount verify _ rest fun value inside => ?_
      rw [given]
      exact List.mem_cons_of_mem _ (List.mem_cons_of_mem _ inside)
  · exact .refused s.opCount

theorem evalCheckMultiSig_turn : CheckTurn script s (evalCheckMultiSig checkSig verify script s) := by
  unfold evalCheckMultiSig
  split
  · exact .refused s.opCount
  · rename_i keysCount afterKeysCount given
    split
    · exact .refused s.opCount
    · rename_i nKeysCount _
      split
      · exact .refused s.opCount
      · dsimp only
        split
        · exact .refused _
        · split
          · exact .refused _
          · rename_i sigsCount afterSigsCount keysTaken
            split
            · exact .refused _
            · rename_i nSigsCount _
              split
              · exact .refused _
              · split
                · exact .refused _
                · rename_i extra rest sigsTaken
                  split
                  · rename_i unknown
                    exact .undefined _ unknown
                  · refine .left _ verify _ rest fun value inside => ?_
                    have afterSigs : value ∈ afterSigsCount :=
                      List.mem_of_mem_drop (sigsTaken ▸ List.mem_cons_of_mem _ inside)
                    have afterKeys : value ∈ afterKeysCount :=
                      List.mem_of_mem_drop (keysTaken ▸ List.mem_cons_of_mem _ afterSigs)
                    rw [given]
                    exact List.mem_cons_of_mem _ afterKeys

/-- The second stack is left alone, and on the first one only the result of the check is new. -/
theorem CheckTurn.next (checked : CheckTurn script s turn) (next : turn = .next s') :
    s'.altStack = s.altStack ∧ ∀ value ∈ s'.stack, value ∈ s.stack ∨ ∃ result, value = boolBytes result := by
  cases checked with
  | refused => cases next
  | undefined => cases next
  | left count verify result rest taken =>
    unfold leave at next
    split at next
    · cases next
      refine ⟨rfl, fun value inside => ?_⟩
      rcases List.mem_cons.mp inside with rfl | inside
      · exact .inr ⟨result, rfl⟩
      · exact .inl (taken value inside)
    · split at next
      · cases next
        exact ⟨rfl, fun value inside => .inl (taken value inside)⟩
      · cases next

theorem CheckTurn.not_true (checked : CheckTurn script s turn) : turn ≠ .done true s' := by
  cases checked with
  | refused => nofun
  | undefined => nofun
  | left =>
    unfold leave
    split
    · nofun
    · split <;> nofun

/-- Where the place of the separator is known, the members of the subclass stay. -/
theorem CheckTurn.own (checked : CheckTurn script s turn) (known : s.own.separator ≠ .before) :
    turn.state.own = s.own := by
  cases checked with
  | refused => rfl
  | undefined count unknown =>
    cases place : s.own.separator with
    | none => rw [place] at unknown; cases unknown
    | here => rw [place] at unknown; cases unknown
    | before => exact absurd place known
  | left =>
    unfold leave
    split
    · rfl
    · split <;> rfl

/-- What a turn of `eval` is: one that ends in the base class, a separator, a check, or one of the base class. -/
theorem eval_cases (turned : eval checkSig hashers script current opcode s = turn) :
    turn = .done false s ∨ ∃ s₁, evalNext hashers opcode s = some s₁ ∧
      (turn = .next { s₁ with own := { s₁.own with separator := .here current } } ∧ opcode = 171 ∨
        CheckTurn script s₁ turn ∨ turn = .next s₁) := by
  unfold eval Evaluator.eval at turned
  cases base : evalNext hashers opcode s with
  | none =>
    rw [base] at turned
    exact .inl turned.symm
  | some s₁ =>
    rw [base] at turned
    refine .inr ⟨s₁, rfl, ?_⟩
    dsimp only at turned
    split at turned
    · rename_i separator
      exact .inl ⟨turned.symm, separator⟩
    · split at turned
      · exact .inr (.inl (turned ▸ evalCheckSig_turn))
      · split at turned
        · exact .inr (.inl (turned ▸ evalCheckMultiSig_turn))
        · exact .inr (.inr turned.symm)

theorem eval_not_true : eval checkSig hashers script current opcode s ≠ .done true s' := by
  intro ended
  rcases eval_cases ended with refused | ⟨s₁, -, ⟨separated, -⟩ | checked | same⟩
  · cases refused
  · cases separated
  · exact checked.not_true rfl
  · cases same

/-- No long value comes from short ones. -/
theorem eval_short (next : eval checkSig hashers script current opcode s = .next s') (short : Short s.stack)
    (alt : Short s.altStack) (few : s.stack.length ≤ 1000) (low : opcode < 256) :
    Short s'.stack ∧ Short s'.altStack := by
  rcases eval_cases next with refused | ⟨s₁, base, ⟨separated, -⟩ | checked | same⟩
  · cases refused
  · have moved := evalNext_short base short alt few low
    cases separated
    exact moved
  · obtain ⟨short, alt⟩ := evalNext_short base short alt few low
    obtain ⟨sameAlt, values⟩ := checked.next rfl
    refine ⟨fun value inside => ?_, sameAlt ▸ alt⟩
    rcases values value inside with before | ⟨result, rfl⟩
    · exact short value before
    · exact boolBytes_short result
  · cases same
    exact evalNext_short base short alt few low

/-- The members of the subclass change at a separator alone, where its place is known. -/
theorem eval_own (known : s.own.separator ≠ .before) :
    (eval checkSig hashers script current opcode s).state.own = s.own ∨
      opcode = 171 ∧
        (eval checkSig hashers script current opcode s).state.own =
          { s.own with separator := .here current } := by
  generalize turned : eval checkSig hashers script current opcode s = turn
  rcases eval_cases turned with refused | ⟨s₁, base, ⟨separated, opcode_⟩ | checked | same⟩
  · exact .inl (refused ▸ rfl)
  · refine .inr ⟨opcode_, ?_⟩
    rw [separated, ← (evalNext_keeps base).1]
    rfl
  · have own := (evalNext_keeps base).1
    exact .inl ((checked.own (own ▸ known)).trans own)
  · exact .inl (same ▸ (evalNext_keeps base).1)

/-- Without the opcodes of the subclass, `eval` is that of the base class. -/
theorem eval_base (plain : opcode < 171 ∨ 175 < opcode) :
    eval checkSig hashers script current opcode = Evaluator.eval hashers opcode := by
  funext s
  unfold eval
  cases Evaluator.eval hashers opcode s with
  | done result s => rfl
  | next s =>
    dsimp only
    rw [if_neg (by omega), if_neg (by omega), if_neg (by omega)]

end Turns

/-! ### Evaluations -/

section Runs

variable {checkSig : Data → Data → Script → Bool} {hashers : Hashers} {script : Script} {s s' : TxEvaluator}

theorem ops_of_opsAt {op : Option (Nat × Data)} {current : Script}
    (inside : (op, current) ∈ Script.opsAt script) :
    op ∈ Script.ops script :=
  Script.opsAt_fst script ▸ List.mem_map_of_mem inside

/-- The place of the separator is known, and none of another script was used. -/
def Known (s : TxEvaluator) : Prop := s.own.separator ≠ .before ∧ s.own.undefined = false

/-- An evaluation without a place from before uses none. -/
theorem run_known (fresh : s.own.separator = .none) (defined : s.own.undefined = false) :
    Known (run checkSig hashers script s).2 := by
  have start : Known s.restart := by
    unfold Known restart
    rw [fresh]
    exact ⟨nofun, defined⟩
  unfold run
  split
  · exact start
  · refine @loopAt_keeps _ _ Known (fun _ _ keep => keep) (fun _ _ keep => keep) _ ?_ s.restart start
    intro opcode value current _ s keep
    unfold Known
    rcases @eval_own checkSig hashers script current opcode s keep.1 with own | ⟨-, own⟩
    · rwa [own]
    · rw [own]
      exact ⟨nofun, keep.2⟩

/-- A script without separators leaves the members of the subclass alone. -/
theorem run_own (fresh : s.own.separator = .none) (plain : ∀ value, some (171, value) ∉ Script.ops script) :
    (run checkSig hashers script s).2.own = s.own := by
  have start : s.restart.own = s.own := by
    unfold restart
    rw [fresh]
    exact congrArg (TxMembers.mk · s.own.undefined) fresh.symm
  unfold run
  split
  · exact start
  · refine @loopAt_keeps _ _ (fun s' => s'.own = s.own) (fun _ _ keep => keep) (fun _ _ keep => keep) _ ?_ _ start
    intro opcode value current inside s₁ keep
    have known : s₁.own.separator ≠ .before := by
      rw [keep, fresh]
      nofun
    rcases @eval_own checkSig hashers script current opcode s₁ known with own | ⟨separator, -⟩
    · exact own.trans keep
    · exact absurd (separator ▸ ops_of_opsAt inside) (plain value)

/-- Two stacks within the limits. -/
structure Bounded (s : TxEvaluator) : Prop where
  stack : Short s.stack
  altStack : Short s.altStack
  room : s.stack.length + s.altStack.length ≤ 1000

theorem new_bounded : Bounded new := ⟨short_nil, short_nil, by decide⟩

/-- An evaluation that succeeds stays within the limits, and closes its branches. -/
theorem run_true (bounded : Bounded s) (done : run checkSig hashers script s = (true, s')) :
    Bounded s' ∧ s'.execStack = [] := by
  unfold run at done
  split at done
  · cases done
  · refine loopAt_true (fun _ _ keep => ⟨keep.stack, keep.altStack, keep.room⟩) (fun _ _ _ _ =>
      eval_not_true) _ ?_
      _ _ (show Bounded s.restart from ⟨bounded.stack, bounded.altStack, bounded.room⟩) done
    intro opcode value current inside size s s' keep turn room
    unfold instruction at turn
    split at turn
    · cases turn
      exact ⟨.cons size keep.stack, keep.altStack, room⟩
    · split at turn
      · have few := (Nat.le_add_right _ _).trans keep.room
        have short := eval_short turn keep.stack keep.altStack few (ops_lt (ops_of_opsAt inside))
        exact ⟨short.1, short.2, room⟩
      · cases turn
        exact keep

/-- A script without the opcodes of the subclass is evaluated as the base class does. -/
theorem run_base (plain : ∀ opcode value, some (opcode, value) ∈ Script.ops script → opcode < 171 ∨ 175 < opcode)
    (small : script.length ≤ 10000) :
    run checkSig hashers script s = loop (Evaluator.eval hashers) (Script.ops script) s.restart := by
  unfold run
  rw [if_neg (by omega), ← Script.opsAt_fst]
  refine loopAt_eq_loop _ _ (fun opcode value current inside => ?_) _
  exact eval_base (plain opcode value (ops_of_opsAt inside))

end Runs

end TxEvaluator

namespace Transaction

/-- The hash of what is signed, and `Key::verify` with the constructor of the key. -/
structure Signing where
  hash : Data → Uint256
  keyVerify : Data → Uint256 → Data → Bool

/-- `checkSig`. -/
def checkSig (signing : Signing) (txn : Transaction) (n : Nat) (type : Int) (vchSig vchPubKey : Data)
    (scriptCode : Script) : Bool :=
  match vchSig.getLast? with
  | none => false
  | some last =>
    if type ≠ 0 ∧ type ≠ last.toNat then false
    else
      signing.keyVerify vchPubKey (txn.getSignatureHash signing.hash scriptCode n
        (last.toNat : Int)) vchSig.dropLast

section Verify

variable (hashers : Hashers) (checkSig : Data → Data → Script → Bool)

/-- The result of an evaluation: its stack, if it succeeds and leaves one. -/
def result (evaluated : Bool × TxEvaluator) : Option Bool :=
  if evaluated.2.own.undefined then none
  else if !evaluated.1 || evaluated.2.stack.isEmpty then some false
  else some (castToBool (evaluated.2.stack.headD []))

/-- `verify` after the signature script has left a stack. -/
def verifyOutput (pushOnly : Bool) (script : Script) (strictPayToScriptHash : Bool) (s : TxEvaluator) :
    Option Bool := do
  let evaluated := TxEvaluator.run checkSig hashers script s
  let accepted ← result evaluated
  if !accepted then return false
  else if strictPayToScriptHash && script.isPayToScriptHash then
    if !pushOnly then return false
    else
      result (TxEvaluator.run checkSig hashers (s.stack.headD []) { evaluated.2 with stack := s.stack.tail })
  else return true

/-- `verify`, for the two scripts. -/
def verifyScripts (scriptSig script : Script) (strictPayToScriptHash : Bool) : Option Bool :=
  let (succeeded, s) := TxEvaluator.run checkSig hashers scriptSig TxEvaluator.new
  if s.own.undefined then none
  else if !succeeded || s.stack.isEmpty then some false
  else verifyOutput hashers checkSig scriptSig.isPushOnly script strictPayToScriptHash s

end Verify

/-- `verify` of one input. -/
def verify (hashers : Hashers) (signing : Signing) (txn : Transaction) (n : Nat) (script : Script) (type : Int)
    (strictPayToScriptHash : Bool) : Option Bool := do
  let input ← txn.inputs[n]?
  verifyScripts hashers (checkSig signing txn n type) input.signature script strictPayToScriptHash

end Transaction

end Libcoin
