/-
Which script the checks of signatures sign.

* `Evaluation` are the evaluations that `verify` makes, with the instructions that the evaluations before it passed.
  `verifyScripts_none_iff` says that these are the ones that `verify` depends on.
* `lastSeparator` is the last `OP_CODESEPARATOR` on the way to a point of one of them.
* `scriptCode_iff` is what follows for a check. The members are not reset between the scripts of a spend.
-/

import Libcoin.Script.Isolation
import Libcoin.Script.MultiSig
import Libcoin.Script.Passes
import Libcoin.Script.Solver

namespace Libcoin

open Evaluator

namespace TxEvaluator

/-! ### The last separator -/

section Points

variable {checkSig : Data → Data → Script → Bool} {hashers : Hashers} {script current : Script}
  {start s s' : TxEvaluator} {path : List (Passed TxMembers)} {rest : List (Option (Nat × Data) × Script)}
  {opcode : Nat} {value : Data} {turn : Turn TxMembers}

/-- A check leaves the members of the subclass alone. -/
theorem CheckTurn.next_own (checked : CheckTurn script s turn) (next : turn = .next s') : s'.own = s.own := by
  cases checked with
  | refused => cases next
  | undefined => cases next
  | left =>
    unfold leave at next
    split at next
    · cases next
      rfl
    · split at next
      · cases next
        rfl
      · cases next

/-- An `OP_CODESEPARATOR` that was executed. -/
def isSeparator (passed : Passed TxMembers) : Bool := decide (passed.opcode = 171) && passed.before.exec

/-- The members of the subclass change at an `OP_CODESEPARATOR` that is executed. -/
theorem pass_own (passed : pass (eval checkSig hashers script) opcode value current s = .next s') :
    s'.own = if isSeparator ⟨opcode, current, s, s'⟩ then { s.own with separator := .here current } else s.own := by
  obtain ⟨-, -, -, turn, -⟩ := pass_next.mp passed
  unfold isSeparator instruction at *
  dsimp only
  rw [counted_exec] at turn
  split at turn
  · rename_i pushed
    have low : opcode ≤ 78 := of_decide_eq_true (Bool.and_eq_true_iff.mp pushed).2
    cases turn
    rw [decide_eq_false (by omega), Bool.false_and, if_neg Bool.false_ne_true]
    exact counted_own opcode s
  · split at turn
    · rename_i evaluated
      by_cases separator : opcode = 171
      · subst separator
        have exec : s.exec = true := by
          rcases Bool.or_eq_true_iff.mp evaluated with exec | conditional
          · exact exec
          · exact absurd (of_decide_eq_true conditional) (by decide)
        have here : eval checkSig hashers script current 171 (counted 171 s) =
            .next { counted 171 s with own := { (counted 171 s).own with separator := .here current } } := rfl
        rw [here] at turn
        cases turn
        rw [exec]
        rfl
      · rw [decide_eq_false separator, Bool.false_and, if_neg Bool.false_ne_true, ← counted_own opcode s]
        rcases eval_cases turn with refused | ⟨s₁, base, ⟨-, other⟩ | checked | same⟩
        · cases refused
        · exact absurd other separator
        · rw [checked.next_own rfl, (evalNext_keeps base).1]
        · cases same
          rw [(evalNext_keeps base).1]
    · rename_i skipped
      cases turn
      rw [Bool.eq_false_iff.mpr fun exec => skipped (Bool.or_eq_true_iff.mpr (.inl exec)), Bool.and_false,
        if_neg Bool.false_ne_true]
      exact counted_own opcode s

/-- The rest of the script after the last `OP_CODESEPARATOR` that was executed. -/
def lastSeparator (path : List (Passed TxMembers)) : Option Script :=
  ((path.filter isSeparator).getLast?).map Passed.current

theorem lastSeparator_append (path : List (Passed TxMembers)) (passed : Passed TxMembers) :
    lastSeparator (path ++ [passed]) = if isSeparator passed then some passed.current else lastSeparator path := by
  unfold lastSeparator
  rw [List.filter_append, List.filter_cons, List.filter_nil]
  split
  · rw [List.getLast?_concat]
    rfl
  · rw [List.append_nil]

/-- The separator is the last one of this script, or what the script started with. -/
theorem At.separator (point : At checkSig hashers script start path rest s) :
    s.own.separator = ((lastSeparator path).map Separator.here).getD start.restart.own.separator := by
  obtain ⟨-, reached⟩ := point
  induction reached with
  | start => rfl
  | pass _ passed ih =>
    rw [pass_own passed, lastSeparator_append]
    split
    · rfl
    · exact ih

/-- Up to a point no iterator of another script was used, where none was used before. -/
theorem At.undefined (point : At checkSig hashers script start path rest s) :
    s.own.undefined = start.own.undefined := by
  obtain ⟨-, reached⟩ := point
  induction reached with
  | start => rfl
  | pass _ passed ih =>
    rw [pass_own passed]
    split <;> exact ih

theorem restart_separator : start.restart.own.separator = .none ↔ start.own.separator = .none := by
  show (if start.own.separator = .none then Separator.none else .before) = .none ↔ _
  split
  · exact iff_of_true rfl ‹_›
  · exact iff_of_false nofun ‹_›

/-- No separator is left after a script only where there was none before and the script executed none. -/
theorem At.separator_none (point : At checkSig hashers script start path rest s) :
    s.own.separator = .none ↔ lastSeparator path = none ∧ start.own.separator = .none := by
  rw [point.separator, ← restart_separator]
  cases lastSeparator path with
  | none => exact (and_iff_right rfl).symm
  | some code => exact iff_of_false nofun fun both => nomatch both.1

/-- The script code of a check is that of the running script exactly where a separator is of this script, or there was
none before. -/
theorem At.code_eq (point : At checkSig hashers script start path rest s) :
    code script s.own.separator = some ((lastSeparator path).getD script) ↔
      start.own.separator = .none ∨ lastSeparator path ≠ none := by
  rw [point.separator]
  cases last : lastSeparator path with
  | some here => exact iff_of_true rfl (.inr nofun)
  | none =>
    rw [← restart_separator, or_iff_left fun filled => filled rfl]
    show code script start.restart.own.separator = some script ↔ _
    unfold restart
    dsimp only
    split
    · exact iff_of_true rfl rfl
    · exact iff_of_false nofun nofun

/-- A check of signatures gets as far as the script code: `OP_CHECKSIG` and `OP_CHECKSIGVERIFY` with two values,
`OP_CHECKMULTISIG` and `OP_CHECKMULTISIGVERIFY` with theirs. -/
def MakesCode (opcode : Nat) (s : TxEvaluator) : Prop :=
  (opcode = 172 ∨ opcode = 173) ∧ 2 ≤ s.stack.length ∨
    (opcode = 174 ∨ opcode = 175) ∧
      ∃ keys sigs rest, MultiSigArgs s.stack keys sigs rest ∧ s.opCount + keys.length ≤ 201

/-- The check is evaluated, and gets as far as the script code. -/
def Checks (opcode : Nat) (s : TxEvaluator) : Prop :=
  s.exec = true ∧ s.opCount < 201 ∧ MakesCode opcode (counted opcode s)

theorem leave_own (verify result : Bool) (stack : List Data) (s : TxEvaluator) :
    (leave verify result stack s).state.own = s.own := by
  unfold leave
  split
  · rfl
  · split <;> rfl

theorem evalCheckSig_undefined {verify : Bool} (defined : s.own.undefined = false) :
    (evalCheckSig checkSig verify script s).state.own.undefined = true ↔
      code script s.own.separator = none ∧ 2 ≤ s.stack.length := by
  have same {turn : Turn TxMembers} (own : turn.state.own = s.own) : ¬turn.state.own.undefined = true := by
    rw [own, defined]
    exact Bool.false_ne_true
  unfold evalCheckSig
  split
  · rename_i vchPubKey vchSig rest given
    rw [given, and_iff_left (show 2 ≤ (vchPubKey :: vchSig :: rest).length from Nat.le_add_left 2 _)]
    cases code script s.own.separator with
    | none => exact iff_of_true rfl rfl
    | some scriptCode => exact iff_of_false (same (leave_own _ _ _ s)) nofun
  · rename_i fewer
    refine iff_of_false (same rfl) fun both => ?_
    obtain ⟨-, two⟩ := both
    cases stack : s.stack with
    | nil =>
      rw [stack] at two
      exact absurd two (by decide)
    | cons vchPubKey rest =>
      cases rest with
      | nil =>
        rw [stack, List.length_singleton] at two
        exact absurd two (by decide)
      | cons vchSig rest => exact fewer vchPubKey vchSig rest stack

theorem evalCheckMultiSig_undefined {verify : Bool} (defined : s.own.undefined = false) :
    (evalCheckMultiSig checkSig verify script s).state.own.undefined = true ↔
      code script s.own.separator = none ∧
        ∃ keys sigs rest, MultiSigArgs s.stack keys sigs rest ∧ s.opCount + keys.length ≤ 201 := by
  have same {turn : Turn TxMembers} (own : turn.state.own = s.own) : ¬turn.state.own.undefined = true := by
    rw [own, defined]
    exact Bool.false_ne_true
  by_cases given : ∃ keys sigs rest, MultiSigArgs s.stack keys sigs rest ∧ s.opCount + keys.length ≤ 201
  · rw [and_iff_left given]
    obtain ⟨keys, sigs, rest, args, room⟩ := given
    rw [evalCheckMultiSig_args args room]
    cases code script s.own.separator with
    | none => exact iff_of_true rfl rfl
    | some scriptCode => exact iff_of_false (same (leave_own _ _ _ { s with opCount := _ })) nofun
  · obtain ⟨count, refused⟩ := @evalCheckMultiSig_refused checkSig script verify s fun keys sigs rest args =>
      Nat.lt_of_not_le fun room => given ⟨keys, sigs, rest, args, room⟩
    rw [refused]
    exact iff_of_false (same rfl) fun both => given both.2

/-- An iterator of another script is used at a check that makes its script code with one. -/
theorem eval_undefined (defined : s.own.undefined = false) :
    (eval checkSig hashers script current opcode s).state.own.undefined = true ↔
      code script s.own.separator = none ∧ MakesCode opcode s := by
  have checks (base : evalNext hashers opcode s = some s) (high : opcode ≠ 171) :
      eval checkSig hashers script current opcode s =
        if opcode = 172 ∨ opcode = 173 then evalCheckSig checkSig (decide (opcode = 173)) script s
        else if opcode = 174 ∨ opcode = 175 then evalCheckMultiSig checkSig (decide (opcode = 175)) script s
        else .next s := by
    unfold eval Evaluator.eval
    rw [base]
    exact if_neg high
  unfold MakesCode
  by_cases single : opcode = 172 ∨ opcode = 173
  · have other : ¬(opcode = 174 ∨ opcode = 175) := by omega
    have base : evalNext hashers opcode s = some s := by
      rcases single with rfl | rfl <;> rfl
    rw [checks base (by omega), if_pos single, evalCheckSig_undefined defined]
    tauto
  · by_cases multi : opcode = 174 ∨ opcode = 175
    · have base : evalNext hashers opcode s = some s := by
        rcases multi with rfl | rfl <;> rfl
      rw [checks base (by omega), if_neg single, if_pos multi, evalCheckMultiSig_undefined defined]
      tauto
    · refine iff_of_false (fun undefined_ => ?_) (by tauto)
      unfold eval Evaluator.eval at undefined_
      cases base : evalNext hashers opcode s with
      | none =>
        rw [base] at undefined_
        exact absurd (defined.symm.trans undefined_) Bool.false_ne_true
      | some s₁ =>
        have own := congrArg TxMembers.undefined (evalNext_keeps base).1
        rw [base] at undefined_
        dsimp only at undefined_
        rw [if_neg single, if_neg multi] at undefined_
        split at undefined_ <;>
          exact absurd ((own.trans defined).symm.trans undefined_) Bool.false_ne_true

/-- The same for a turn of `operator()`. -/
theorem pass_undefined (defined : s.own.undefined = false) (short : value.length ≤ maxElementSize) :
    (pass (eval checkSig hashers script) opcode value current s).state.own.undefined = true ↔
      code script s.own.separator = none ∧ Checks opcode s := by
  have defined' : (counted opcode s).own.undefined = false := by rw [counted_own, defined]
  have same {turn : Turn TxMembers} (own : turn.state.own = s.own) : ¬turn.state.own.undefined = true := by
    rw [own, defined]
    exact Bool.false_ne_true
  have high (makes : MakesCode opcode (counted opcode s)) : opcode ∈ [172, 173, 174, 175] := by
    rcases makes with ⟨kind, -⟩ | ⟨kind, -⟩ <;> rcases kind with rfl | rfl <;> decide
  unfold Checks Evaluator.pass
  rw [if_neg (Nat.not_lt.mpr short)]
  split
  · rename_i many
    refine iff_of_false (same (counted_own opcode s)) fun both => ?_
    rw [counted_opCount, if_pos many.1] at many
    omega
  · rename_i few
    split
    · rename_i off
      refine iff_of_false (same (counted_own opcode s)) fun both => ?_
      have listed := high both.2.2.2
      simp only [List.mem_cons, List.not_mem_nil, or_false] at listed
      rcases listed with rfl | rfl | rfl | rfl <;> exact absurd off (by decide)
    · have turned : (instruction (eval checkSig hashers script current) opcode value
          (counted opcode s)).state.own.undefined = true ↔
            code script s.own.separator = none ∧ s.exec = true ∧ s.opCount < 201 ∧
              MakesCode opcode (counted opcode s) := by
        unfold instruction
        rw [counted_exec]
        split
        · rename_i pushed
          have low : opcode ≤ 78 := of_decide_eq_true (Bool.and_eq_true_iff.mp pushed).2
          refine iff_of_false (same (counted_own opcode s)) fun both => ?_
          have listed := high both.2.2.2
          simp only [List.mem_cons, List.not_mem_nil, or_false] at listed
          omega
        · split
          · rename_i evaluated
            rw [eval_undefined defined', counted_own]
            refine and_congr_right fun _ => ⟨fun makes => ?_, fun checks => checks.2.2⟩
            have listed := high makes
            simp only [List.mem_cons, List.not_mem_nil, or_false] at listed
            rw [counted_opCount, if_pos (by omega)] at few
            refine ⟨?_, by omega, makes⟩
            rcases Bool.or_eq_true_iff.mp evaluated with exec | conditional
            · exact exec
            · have conditional := of_decide_eq_true conditional
              omega
          · rename_i skipped
            refine iff_of_false (same (counted_own opcode s)) fun both => skipped ?_
            exact Bool.or_eq_true_iff.mpr (.inl both.2.1)
      cases turn : instruction (eval checkSig hashers script current) opcode value (counted opcode s) with
      | done result s₂ =>
        rw [turn] at turned
        exact turned
      | next s₂ =>
        rw [turn] at turned
        dsimp only
        split <;> exact turned

/-- An evaluation that uses an iterator of another script does so at a check. -/
theorem loopAt_undefined {ops : List (Option (Nat × Data) × Script)} (defined : s.own.undefined = false)
    (used : (loopAt (eval checkSig hashers script) ops s).2.own.undefined = true) :
    ∃ path opcode value current rest s', Reaches (eval checkSig hashers script) ops s path
      ((some (opcode, value), current) :: rest) s' ∧ code script s'.own.separator = none ∧ Checks opcode s' := by
  have undefined_ {s' : TxEvaluator} (same : s' = s) : ¬s'.own.undefined = true := by
    rw [same, defined]
    exact Bool.false_ne_true
  induction ops generalizing s with
  | nil => exact absurd used (undefined_ rfl)
  | cons op ops ih =>
    obtain ⟨instruction?, current⟩ := op
    cases instruction? with
    | none => exact absurd used (undefined_ rfl)
    | some op =>
      obtain ⟨opcode, value⟩ := op
      by_cases short : value.length ≤ maxElementSize
      · have turned := @pass_undefined checkSig hashers script current s opcode value defined short
        by_cases here : code script s.own.separator = none ∧ Checks opcode s
        · exact ⟨[], opcode, value, current, ops, s, .start, here⟩
        · cases passed : pass (eval checkSig hashers script) opcode value current s with
          | done result s₁ =>
            rw [loopAt_done passed] at used
            rw [passed] at turned
            exact absurd (turned.mp used) here
          | next s₁ =>
            rw [loopAt_next passed] at used
            rw [passed] at turned
            have defined₁ : s₁.own.undefined = false := Bool.eq_false_iff.mpr fun now => here (turned.mp now)
            obtain ⟨path, opcode, value, current, rest, s', reached, unknown⟩ := ih defined₁ used fun same => by
              rw [same, defined₁]
              exact Bool.false_ne_true
            exact ⟨_, opcode, value, current, rest, s', .cons passed reached, unknown⟩
      · rw [loopAt, if_pos (Nat.lt_of_not_le short)] at used
        exact absurd used (undefined_ rfl)

/-- The same for `operator()`. -/
theorem run_undefined (defined : start.own.undefined = false) :
    (run checkSig hashers script start).2.own.undefined = true ↔
      ∃ path opcode value current rest s,
        At checkSig hashers script start path ((some (opcode, value), current) :: rest) s ∧ Checks opcode s ∧
          code script s.own.separator = none := by
  constructor
  · intro used
    unfold run at used
    split at used
    · exact absurd (defined.symm.trans used) Bool.false_ne_true
    · rename_i small
      obtain ⟨path, opcode, value, current, rest, s, reached, unknown, checks⟩ :=
        loopAt_undefined (show start.restart.own.undefined = false from defined) used
      exact ⟨path, opcode, value, current, rest, s, ⟨Nat.not_lt.mp small, reached⟩, checks, unknown⟩
  · rintro ⟨path, opcode, value, current, rest, s, point, checks, unknown⟩
    have member := (point.reached.suffix.subset List.mem_cons_self : (some (opcode, value), current) ∈ _)
    have short : value.length ≤ maxElementSize := by
      have high : 78 < opcode := by
        obtain ⟨-, -, ⟨kind, -⟩ | ⟨kind, -⟩⟩ := checks <;> omega
      have missing := @Script.of_mem_ops script opcode value (fun opcode value => 78 < opcode → value = [])
        (fun _ _ _ _ read => (getOp_cases read).1) (ops_of_opsAt member) high
      rw [missing]
      exact Nat.zero_le _
    have used := (@pass_undefined checkSig hashers script current s opcode value (point.undefined.trans defined)
      short).mpr ⟨unknown, checks⟩
    rw [point.run_eq]
    cases passed : pass (eval checkSig hashers script) opcode value current s with
    | done result s₁ =>
      rw [passed] at used
      rw [loopAt_done passed]
      exact used
    | next s₁ =>
      have same : s₁.own.undefined = s.own.undefined := by
        rw [pass_own passed]
        split <;> rfl
      rw [passed] at used
      exact absurd (used.symm.trans (same.trans (point.undefined.trans defined))) (by decide)

end Points

/-! ### The evaluations of a spend -/

/-- `verify` evaluates a script with the evaluator that the scripts before it have left. -/
inductive Evaluation (checkSig : Data → Data → Script → Bool) (hashers : Hashers) (scriptSig script : Script)
    (strict : Bool) : List (List (Passed TxMembers)) → Script → TxEvaluator → Prop
  | signature : Evaluation checkSig hashers scriptSig script strict [] scriptSig new
  | output {path s} (point : At checkSig hashers scriptSig new path [] s)
      (done : run checkSig hashers scriptSig new = (true, s)) (nonempty : s.stack ≠ []) :
      Evaluation checkSig hashers scriptSig script strict [path] script s
  | redeem {path path' s s'} (point : At checkSig hashers scriptSig new path [] s)
      (done : run checkSig hashers scriptSig new = (true, s)) (nonempty : s.stack ≠ [])
      (point' : At checkSig hashers script s path' [] s') (done' : run checkSig hashers script s = (true, s'))
      (accepted : Transaction.result (true, s') = some true) (hashed : strict && script.isPayToScriptHash)
      (pushOnly : scriptSig.isPushOnly) :
      Evaluation checkSig hashers scriptSig script strict [path, path'] (s.stack.headD [])
        { s' with stack := s.stack.tail }

section Spends

variable {checkSig : Data → Data → Script → Bool} {hashers : Hashers} {scriptSig script running current : Script}
  {strict : Bool} {earlier : List (List (Passed TxMembers))} {start s : TxEvaluator} {path : List (Passed TxMembers)}
  {rest : List (Option (Nat × Data) × Script)} {opcode : Nat} {value : Data}

/-- The evaluator has no place of a separator exactly where no script before has executed one. -/
theorem Evaluation.separator_none
    (evaluation : Evaluation checkSig hashers scriptSig script strict earlier running start) :
    start.own.separator = .none ↔ ∀ path ∈ earlier, lastSeparator path = none := by
  cases evaluation with
  | signature => exact iff_of_true rfl nofun
  | output point =>
    rw [List.forall_mem_singleton, point.separator_none]
    exact and_iff_left rfl
  | redeem point _ _ point' =>
    rw [List.forall_mem_cons, List.forall_mem_singleton,
      point'.separator_none.trans (and_congr_right' point.separator_none)]
    constructor
    · rintro ⟨second, first, -⟩
      exact ⟨first, second⟩
    · rintro ⟨first, second⟩
      exact ⟨second, first, rfl⟩

/-- No script before has used an iterator of another one. -/
theorem Evaluation.defined
    (evaluation : Evaluation checkSig hashers scriptSig script strict earlier running start) :
    start.own.undefined = false := by
  cases evaluation with
  | signature => rfl
  | output point => exact point.undefined
  | redeem point _ _ point' => exact point'.undefined.trans point.undefined

theorem result_eq_none {evaluated : Bool × TxEvaluator} :
    Transaction.result evaluated = none ↔ evaluated.2.own.undefined = true := by
  unfold Transaction.result
  split
  · exact iff_of_true rfl ‹_›
  · split
    · exact iff_of_false nofun ‹_›
    · exact iff_of_false nofun ‹_›

/-- What is accepted has succeeded. -/
theorem result_true {evaluated : Bool × TxEvaluator} (accepted : Transaction.result evaluated = some true) :
    evaluated.1 = true := by
  unfold Transaction.result at accepted
  split at accepted
  · cases accepted
  · split at accepted
    · cases accepted
    · rename_i failed
      cases succeeded : evaluated.1 with
      | true => rfl
      | false => exact absurd (by rw [succeeded]; rfl) failed

/-- `verify` has no defined result exactly when one of its evaluations has none. -/
theorem verifyScripts_undefined : Transaction.verifyScripts hashers checkSig scriptSig script strict = none ↔
    ∃ earlier running start, Evaluation checkSig hashers scriptSig script strict earlier running start ∧
      (run checkSig hashers running start).2.own.undefined = true := by
  have defined : (run checkSig hashers scriptSig new).2.own.undefined = false := (run_known rfl rfl).2
  have unfolded {s : TxEvaluator} (done : run checkSig hashers scriptSig new = (true, s)) (nonempty : s.stack ≠ []) :
      Transaction.verifyScripts hashers checkSig scriptSig script strict =
        Transaction.verifyOutput hashers checkSig scriptSig.isPushOnly script strict s := by
    rw [done] at defined
    unfold Transaction.verifyScripts
    rw [done]
    dsimp only
    rw [defined, List.isEmpty_eq_false_iff.mpr nonempty]
    rfl
  constructor
  · intro missing
    cases evaluated : run checkSig hashers scriptSig new with
    | mk succeeded s =>
      cases succeeded with
      | false =>
        rw [evaluated] at defined
        unfold Transaction.verifyScripts at missing
        rw [evaluated] at missing
        dsimp only at missing
        rw [defined] at missing
        cases missing
      | true =>
        by_cases nonempty : s.stack = []
        · rw [evaluated] at defined
          unfold Transaction.verifyScripts at missing
          rw [evaluated] at missing
          dsimp only at missing
          rw [defined, nonempty] at missing
          cases missing
        · obtain ⟨path, point⟩ := run_end evaluated
          rw [unfolded evaluated nonempty] at missing
          unfold Transaction.verifyOutput at missing
          dsimp only at missing
          cases first : Transaction.result (run checkSig hashers script s) with
          | none => exact ⟨[path], script, s, .output point evaluated nonempty, result_eq_none.mp first⟩
          | some accepted =>
            rw [first, Option.bind_eq_bind, Option.bind_some] at missing
            cases accepted with
            | false => cases missing
            | true =>
              cases hashed : strict && script.isPayToScriptHash with
              | false =>
                rw [hashed] at missing
                cases missing
              | true =>
                cases pushOnly : scriptSig.isPushOnly with
                | false =>
                  rw [hashed, pushOnly] at missing
                  cases missing
                | true =>
                  rw [hashed, pushOnly] at missing
                  have succeeded : run checkSig hashers script s = (true, (run checkSig hashers script s).2) :=
                    Prod.ext (result_true first) rfl
                  obtain ⟨path', point'⟩ := run_end succeeded
                  rw [succeeded] at first
                  exact ⟨[path, path'], _, _,
                    .redeem point evaluated nonempty point' succeeded first hashed pushOnly, result_eq_none.mp missing⟩
  · rintro ⟨earlier, running, start, evaluation, used⟩
    cases evaluation with
    | signature => exact absurd (defined.symm.trans used) Bool.false_ne_true
    | output point done nonempty =>
      rw [unfolded done nonempty]
      unfold Transaction.verifyOutput
      dsimp only
      rw [result_eq_none.mpr used]
      rfl
    | redeem point done nonempty point' done' accepted hashed pushOnly =>
      rw [unfolded done nonempty]
      unfold Transaction.verifyOutput
      dsimp only
      rw [done', accepted, hashed, pushOnly]
      exact result_eq_none.mpr used

/-- **`verify` has no defined result exactly when one of its evaluations comes to a check with the place of a separator
in another script.** -/
theorem verifyScripts_none_iff : Transaction.verifyScripts hashers checkSig scriptSig script strict = none ↔
    ∃ earlier running start, Evaluation checkSig hashers scriptSig script strict earlier running start ∧
      ∃ path opcode value current rest s,
        At checkSig hashers running start path ((some (opcode, value), current) :: rest) s ∧ Checks opcode s ∧
          code running s.own.separator = none := by
  rw [verifyScripts_undefined]
  exact exists_congr fun earlier => exists_congr fun running => exists_congr fun start =>
    and_congr_right fun evaluation => run_undefined evaluation.defined

/-- **The script code of a check is the part of the running script after its last separator exactly when no script
before has executed a separator, or the running script has executed one.** -/
theorem scriptCode_iff (evaluation : Evaluation checkSig hashers scriptSig script strict earlier running start)
    (point : At checkSig hashers running start path ((some (opcode, value), current) :: rest) s)
    (_ : Checks opcode s) :
    code running s.own.separator = some ((lastSeparator path).getD running) ↔
      (∀ path ∈ earlier, lastSeparator path = none) ∨ lastSeparator path ≠ none := by
  rw [← evaluation.separator_none]
  exact point.code_eq

end Spends

/-- What is left after a separator and two empty values. -/
def separated (rest : Script) : TxEvaluator :=
  { new with stack := [[], []], opCount := 1, own := { separator := .here rest, undefined := false } }

/-- A separator in the signature script, and a check after a separator of its own. -/
theorem scriptCode_own :
    ∃ earlier start path s, Evaluation (fun _ _ _ => true) Small.hashers [171, 0, 0] [171, 172] false earlier
        [171, 172] start ∧
      At (fun _ _ _ => true) Small.hashers [171, 172] start path [(some (172, []), [])] s ∧ Checks 172 s ∧
        code [171, 172] s.own.separator = some ((lastSeparator path).getD [171, 172]) ∧
          lastSeparator path = some [172] := by
  have done : run (fun _ _ _ => true) Small.hashers [171, 0, 0] new = (true, separated [0, 0]) := rfl
  obtain ⟨path, point⟩ := run_end done
  have evaluation := @Evaluation.output (fun _ _ _ => true) Small.hashers [171, 0, 0] [171, 172] false path _ point
    done (by decide)
  have passed : pass (eval (fun _ _ _ => true) Small.hashers [171, 172]) 171 [] [172] (separated [0, 0]).restart =
    .next (separated [172]) := rfl
  have checked : At (fun _ _ _ => true) Small.hashers [171, 172] (separated [0, 0]) _ [(some (172, []), [])]
    (separated [172]) := ⟨by decide, .pass .start passed⟩
  have checks : Checks 172 (separated [172]) := ⟨rfl, by decide, .inl ⟨.inl rfl, by decide⟩⟩
  exact ⟨_, _, _, _, evaluation, checked, checks, (scriptCode_iff evaluation checked checks).mpr (.inr nofun), rfl⟩

/-- The same signature script, and a check without a separator: its script code would begin in the signature script. -/
theorem scriptCode_stale :
    ∃ earlier start s, Evaluation (fun _ _ _ => true) Small.hashers [171, 0, 0] [172] false earlier [172] start ∧
      At (fun _ _ _ => true) Small.hashers [172] start [] [(some (172, []), [])] s ∧ Checks 172 s ∧
        code [172] s.own.separator ≠ some ((lastSeparator []).getD [172]) ∧
          Transaction.verifyScripts Small.hashers (fun _ _ _ => true) [171, 0, 0] [172] false = none := by
  have done : run (fun _ _ _ => true) Small.hashers [171, 0, 0] new = (true, separated [0, 0]) := rfl
  obtain ⟨path, point⟩ := run_end done
  exact ⟨_, _, _, .output point done (by decide), ⟨by decide, .start⟩, ⟨rfl, by decide, .inl ⟨.inl rfl, by decide⟩⟩,
    nofun, rfl⟩

end TxEvaluator

end Libcoin
