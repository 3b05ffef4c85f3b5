/-
What `NameOperation::output` accepts, for scripts of any kind.

* `Primitives.withNames` puts the functions of `NameScripts` in the place of the parameters that `NameOperation`
  calls.
* `reading` is the first name operation in some dropped values, with the values before it.
* `SafeOutput` is the condition on an output script. `legal_of_safe`: under it nothing but a first update of a
  reserved name and an update of an input's name is accepted, whatever the inputs are.
-/

import Libcoin.Script.NameScripts
import Libcoin.Ledger.Names

namespace Libcoin

open Evaluator Script

section Rules

variable {hashers : Hashers}

/-! ### How much a script drops -/

theorem getOp_lt {script rest : Script} {opcode : Nat} {value : Data}
    (read : getOp script = some (opcode, value, rest)) : opcode < 256 := by
  cases script with
  | nil => cases read
  | cons byte pc =>
    have low := byte.toNat_lt
    have same (size : Nat) (pc : Script) (given : operand byte.toNat size pc = some (opcode, value, rest)) :
        opcode = byte.toNat := by
      unfold operand at given
      split at given
      · cases given
      · cases given
        rfl
    unfold getOp at read
    dsimp only at read
    split at read
    · cases read
      omega
    · split at read
      · rw [same _ _ read]
        omega
      · split at read
        · cases read
        · rw [same _ _ read]
          omega

theorem ops_lt {script : Script} {opcode : Nat} {value : Data} (inside : some (opcode, value) ∈ ops script) :
    opcode < 256 :=
  of_mem_ops (fun _ _ _ _ read => getOp_lt read) inside

/-- One call of the drop evaluator: it drops at most two values, none of them long. -/
theorem dropEval_bounds {opcode : Nat} (low : opcode < 256) {s : Evaluator (List Data)} (short : Short s.stack)
    (alt : Short s.altStack) (own : Short s.own) (few : s.stack.length ≤ 1000) :
    Short (dropEval hashers opcode s).state.own ∧
      (dropEval hashers opcode s).state.own.length ≤ s.own.length + (if 96 < opcode then 2 else 0) ∧
      ∀ s', dropEval hashers opcode s = .next s' →
        Short s'.stack ∧ Short s'.altStack ∧ s'.opCount = s.opCount := by
  have both {first second : List Data} (left : Short first) (right : Short second) : Short (first ++ second) :=
    fun value inside => (List.mem_append.mp inside).elim (left value) (right value)
  unfold dropEval
  split
  · rename_i pair
    subst pair
    split
    · rename_i x2 x1 rest stack
      have short := stack ▸ short
      refine ⟨both own (.cons short.head (.cons short.tail.head short_nil)), ?_, ?_⟩
      · simp [Turn.state]
      · rintro s' ⟨⟩
        exact ⟨short.tail.tail, alt, rfl⟩
    · exact ⟨own, Nat.le_add_right _ _, nofun⟩
  · split
    · rename_i single
      subst single
      split
      · rename_i x rest stack
        have short := stack ▸ short
        have last : (x :: rest).getLastD [] ∈ x :: rest := by
          rw [List.getLastD_eq_getLast?, List.getLast?_eq_some_getLast (List.cons_ne_nil _ _)]
          exact List.getLast_mem _
        refine ⟨both own (.cons (short _ last) short_nil), ?_, ?_⟩
        · simp [Turn.state]
        · rintro s' ⟨⟩
          exact ⟨short.tail, alt, rfl⟩
      · exact ⟨own, Nat.le_add_right _ _, nofun⟩
    · unfold Evaluator.eval
      split
      · rename_i s' next
        obtain ⟨same, count⟩ := evalNext_keeps next
        refine ⟨?_, ?_, ?_⟩
        · show Short s'.own
          rw [same]
          exact own
        · show s'.own.length ≤ _
          rw [same]
          exact Nat.le_add_right _ _
        · rintro s'' ⟨⟩
          have kept := evalNext_short next short alt few low
          exact ⟨kept.1, kept.2, count⟩
      · exact ⟨own, Nat.le_add_right _ _, nofun⟩

/-- A run of the drop evaluator: two values for each of the opcodes that are left. -/
theorem dropLoop_bounds (instructions : List (Option (Nat × Data)))
    (low : ∀ opcode value, some (opcode, value) ∈ instructions → opcode < 256) (s : Evaluator (List Data))
    (short : Short s.stack) (alt : Short s.altStack) (own : Short s.own)
    (few : s.stack.length + s.altStack.length ≤ 1000) (count : s.opCount ≤ 201) :
    Short (loop (dropEval hashers) instructions s).2.own ∧
      (loop (dropEval hashers) instructions s).2.own.length ≤ s.own.length + 2 * (201 - s.opCount) := by
  induction instructions generalizing s with
  | nil => exact ⟨own, Nat.le_add_right _ _⟩
  | cons instruction rest ih =>
    cases instruction with
    | none => exact ⟨own, Nat.le_add_right _ _⟩
    | some instruction =>
      obtain ⟨opcode, value⟩ := instruction
      have further := ih fun opcode value inside => low opcode value (List.mem_cons_of_mem _ inside)
      rw [loop]
      split
      · exact ⟨own, Nat.le_add_right _ _⟩
      · rename_i size
        dsimp only
        obtain ⟨s₁, counted⟩ : ∃ s₁, s₁ = if 96 < opcode then { s with opCount := s.opCount + 1 } else s :=
          ⟨_, rfl⟩
        have members : s₁.stack = s.stack ∧ s₁.altStack = s.altStack ∧ s₁.own = s.own ∧
            s₁.opCount = s.opCount + if 96 < opcode then 1 else 0 := by
          subst counted
          split <;> exact ⟨rfl, rfl, rfl, rfl⟩
        obtain ⟨sameStack, sameAlt, sameOwn, sameCount⟩ := members
        rw [← counted]
        split
        · rw [sameOwn]
          exact ⟨own, Nat.le_add_right _ _⟩
        · rename_i within
          split
          · rw [sameOwn]
            exact ⟨own, Nat.le_add_right _ _⟩
          · rw [← sameStack] at short
            rw [← sameAlt] at alt
            rw [← sameOwn] at own
            have few₁ : s₁.stack.length ≤ 1000 := by
              rw [sameStack]
              omega
            obtain ⟨ownNext, most, next⟩ := @dropEval_bounds hashers opcode
              (low opcode value List.mem_cons_self) s₁ short alt own few₁
            -- a push, a call or nothing
            have turned : Short (Evaluator.instruction (dropEval hashers) opcode value s₁).state.own ∧
                (Evaluator.instruction (dropEval hashers) opcode value s₁).state.own.length ≤
                  s₁.own.length + (if 96 < opcode then 2 else 0) ∧
                ∀ s', Evaluator.instruction (dropEval hashers) opcode value s₁ = .next s' →
                  Short s'.stack ∧ Short s'.altStack ∧ s'.opCount = s₁.opCount := by
              unfold Evaluator.instruction
              split
              · refine ⟨own, Nat.le_add_right _ _, ?_⟩
                rintro s' ⟨⟩
                exact ⟨.cons (Nat.not_lt.mp size) short, alt, rfl⟩
              · split
                · exact ⟨ownNext, most, next⟩
                · refine ⟨own, Nat.le_add_right _ _, ?_⟩
                  rintro s' ⟨⟩
                  exact ⟨short, alt, rfl⟩
            obtain ⟨ownNext, most, next⟩ := turned
            have room : (if 96 < opcode then 2 else 0) = 2 * if 96 < opcode then 1 else 0 := by split <;> rfl
            rw [sameOwn, room] at most
            have within : s₁.opCount ≤ 201 := by
              rw [sameCount] at within ⊢
              split at within <;> split <;> omega
            cases turn : Evaluator.instruction (dropEval hashers) opcode value s₁ with
            | done result s' =>
              rw [turn] at ownNext most
              refine ⟨ownNext, ?_⟩
              show s'.own.length ≤ _
              have most : s'.own.length ≤ _ := most
              omega
            | next s' =>
              rw [turn] at ownNext most
              have most : s'.own.length ≤ _ := most
              obtain ⟨shortNext, altNext, countNext⟩ := next s' turn
              dsimp only
              split
              · refine ⟨ownNext, ?_⟩
                show s'.own.length ≤ _
                omega
              · have rest := further s' shortNext altNext ownNext (by omega) (by omega)
                exact ⟨rest.1, rest.2.trans (by omega)⟩

/-- A script drops at most 402 values, and none that is too long. -/
theorem droppedValues_bounds (script : Script) :
    Short (droppedValues hashers script) ∧ (droppedValues hashers script).length ≤ 402 := by
  unfold droppedValues Evaluator.run
  split
  · exact ⟨short_nil, Nat.zero_le _⟩
  · have bounds := @dropLoop_bounds hashers (ops script) (fun opcode value inside => ops_lt inside)
      { Evaluator.new [] with opCount := 0 } short_nil short_nil short_nil (by decide) (by decide)
    exact ⟨bounds.1, bounds.2.trans (by decide)⟩

/-! ### The first operation -/

/-- The first name operation in some dropped values: its number, the values on the stack before it, the last one
first, and the values after it. -/
inductive Reading
  | none (args : List Data)
  | op (number : Nat) (args rest : List Data)
  deriving DecidableEq, Repr

/-- Reads values on a stack. -/
def reading : List Data → List Data → Reading
  | [], args => .none args
  | value :: values, args =>
    if isSmall value then
      if (value.headD 0).toNat ≤ 3 then .op (value.headD 0).toNat args values else reading values args
    else reading values (value :: args)

/-- The loop after a turn. -/
def proceed (hashers : Hashers) (turn : Turn NameMembers) (rest : List Data) : Bool × NameEvaluator :=
  match turn with
  | .done result s => (result, s)
  | .next s => if 1000 < s.stack.length + s.altStack.length then (false, s) else nameLoop hashers rest s

/-- The loop runs to the first name operation. -/
theorem nameLoop_reading {values : List Data} (short : Short values) (s : NameEvaluator) (args base : List Data)
    (on : s.stack = args ++ base) (room : s.stack.length + s.altStack.length + values.length ≤ 1000) :
    nameLoop hashers values s =
      match reading values args with
      | .none args => (true, { s with stack := args ++ base })
      | .op number args rest => proceed hashers (nameEval hashers (80 + number)
        { s with stack := args ++ base }) rest := by
  induction values generalizing s args with
  | nil =>
    have same : { s with stack := args ++ base } = s := by rw [← on]
    exact congrArg (Prod.mk true) same.symm
  | cons value values ih =>
    have same : { s with stack := args ++ base } = s := by rw [← on]
    have size := short.head
    rw [List.length_cons] at room
    rw [reading]
    cases small : isSmall value with
    | true =>
      have turned : nameTurn hashers value s = nameEval hashers (80 + (value.headD 0).toNat) s := by
        unfold nameTurn
        rw [small]
        rfl
      rw [if_pos rfl]
      by_cases low : (value.headD 0).toNat ≤ 3
      · rw [if_pos low, nameLoop, if_neg (Nat.not_lt.mpr size), turned]
        dsimp only
        rw [same]
        rfl
      · rw [if_neg low]
        have skipped : nameEval hashers (80 + (value.headD 0).toNat) s = .next s := by
          unfold nameEval
          split <;> first | omega | rfl
        rw [nameLoop_next size (turned.trans skipped) (by omega)]
        exact ih short.tail s args on (by omega)
    | false =>
      have turn : nameTurn hashers value s = .next { s with stack := value :: s.stack } := by
        unfold nameTurn
        rw [small]
        rfl
      have later := ih short.tail { s with stack := value :: s.stack } (value :: args)
        (congrArg (value :: ·) on) (by
          show s.stack.length + 1 + s.altStack.length + values.length ≤ 1000
          omega)
      rw [if_neg Bool.false_ne_true, nameLoop_next size turn
        (show s.stack.length + 1 + s.altStack.length ≤ 1000 by omega)]
      exact later

/-- What is read are values that are not small, and the number of an operation. -/
theorem reading_op {values args args' rest : List Data} {number : Nat}
    (read : reading values args = .op number args' rest) :
    (number = 1 ∨ number = 2 ∨ number = 3) ∧
      (∀ arg ∈ args', arg ∈ args ∨ arg ∈ values ∧ isSmall arg = false) ∧
        args'.length ≤ args.length + values.length := by
  induction values generalizing args with
  | nil => cases read
  | cons value values ih =>
    rw [reading] at read
    rw [List.length_cons]
    split at read
    · rename_i small
      split at read
      · cases read
        have bounds := small_bounds small
        exact ⟨by omega, fun arg inside => .inl inside, by omega⟩
      · obtain ⟨known, all, few⟩ := ih read
        refine ⟨known, fun arg inside => (all arg inside).imp_right fun later => ?_, by omega⟩
        exact ⟨List.mem_cons_of_mem _ later.1, later.2⟩
    · rename_i large
      obtain ⟨known, all, few⟩ := ih read
      rw [List.length_cons] at few
      refine ⟨known, fun arg inside => ?_, by omega⟩
      rcases all arg inside with before | later
      · rcases List.mem_cons.mp before with rfl | before
        · exact .inr ⟨List.mem_cons_self, Bool.not_eq_true _ ▸ large⟩
        · exact .inl before
      · exact .inr ⟨List.mem_cons_of_mem _ later.1, later.2⟩

/-! ### The functions in place -/

/-- What `NameOperation` asks its evaluator. -/
def NameEvaluator.report (s : NameEvaluator) : NameScript :=
  { isNameScript := s.wasNameScript, isNameNew := s.wasNameNew, isFirstUpdate := s.wasFirstUpdate, name := s.name
    value := s.value }

/-- The evaluation of a script that must succeed and leave something. -/
def evalNonempty (hashers : Hashers) (script : Script) (s : NameEvaluator) : Option NameEvaluator :=
  let (result, s) := Evaluator.run (nameEval hashers) script s
  if !result || s.stack.isEmpty then none else some s

/-- The evaluation in `NameOperation::output`. -/
def evalNameOutput (hashers : Hashers) (ignoreRules : Bool) (nameIn nameOut : Script) : Option NameScript := do
  let s := NameEvaluator.new ignoreRules
  let s ← if nameIn.isEmpty then some s else evalNonempty hashers nameIn s
  let s ← evalNonempty hashers nameOut s
  return s.report

/-- The functions of this library, with the evaluators in place. -/
def Primitives.withNames (prim : Primitives) (hashers : Hashers) : Primitives :=
  { prim with
    getDropped := Script.getDropped hashers
    evalInput := fun ignoreRules script =>
      NameEvaluator.report (Evaluator.run (nameEval hashers) script (NameEvaluator.new ignoreRules)).2
    evalOutput := evalNameOutput hashers }

/-- `input` for one coin after the other. -/
def NameOperation.inputs (prim : Primitives) (op : NameOperation) :
    List (Output × Int) → Except Fault NameOperation
  | [] => .ok op
  | (coin, count) :: coins => do
    let (op, _) ← op.input prim coin count
    op.inputs prim coins

end Rules

/-! ### Legal transitions -/

section Legal

variable (hashers : Hashers)

/-- The script is a name script with its arguments: that is the first operation in what it drops. -/
def NameForm.Of (form : NameForm) (script : Script) : Prop :=
  ∃ rest, reading (droppedValues hashers script) [] = .op form.number form.args rest

/-- The script is a first update or an update of a name: evaluated by itself it leaves the name and a value. -/
def Updates (name : Data) (script : Script) : Prop :=
  ∃ (s : NameEvaluator) (value : Data),
    Evaluator.run (nameEval hashers) (Script.getDropped hashers script) (NameEvaluator.new false) = (true, s) ∧
      s.wasNameScript = true ∧ s.stack = [name, value]

/-- A first update of a name that an input reserved, or an update of the name of an input. -/
def LegalTransition (coins : List Output) (script : Script) : Prop :=
  (∃ name rand value, (NameForm.firstUpdate name rand value).Of hashers script ∧
    ∃ coin ∈ coins, (NameForm.nameNew (hashers.hash160 (rand ++ name))).Of hashers coin.script) ∨
  (∃ name value, (NameForm.update name value).Of hashers script ∧ ∃ coin ∈ coins,
    Updates hashers name coin.script)

/-- The first operation finds enough values of its own to be compared with those of an input. -/
def Reading.Complete : Reading → Prop
  | .none _ => False
  | .op number args _ =>
    (number = 2 → 3 ≤ args.length) ∧
      (number = 3 → args.length = 2 ∨ 4 ≤ args.length ∨ args.length = 3 ∧ args.head? ≠ args.getLast?)

/-- An output script that drops nothing, or too much to be evaluated, or a complete name operation. -/
def SafeOutput (script : Script) : Prop :=
  droppedValues hashers script = [] ∨ 10000 < (Script.getDropped hashers script).length ∨
    (reading (droppedValues hashers script) []).Complete

end Legal

section Accepted

variable {hashers : Hashers} {s s' : NameEvaluator}

/-! ### What is accepted -/

/-- A turn that goes on, or ends the evaluation with success, leaves two values at least. -/
def LeavesPair (turn : Turn NameMembers) : Prop :=
  (∀ s', turn = .done true s' → 2 ≤ s'.stack.length) ∧ ∀ s', turn = .next s' → 2 ≤ s'.stack.length

theorem evalFirstUpdate_pair (s : NameEvaluator) : LeavesPair (s.evalFirstUpdate hashers) := by
  unfold NameEvaluator.evalFirstUpdate
  split
  · exact ⟨nofun, by rintro s' ⟨⟩; exact le_rfl⟩
  · rename_i stack
    have four : s.stack.length = 4 := congrArg List.length stack
    split
    · exact ⟨by rintro s' ⟨⟩; exact Nat.le_succ 2, nofun⟩
    · split
      · refine ⟨?_, nofun⟩
        rintro s' ⟨⟩
        show 2 ≤ s.stack.length
        omega
      · exact ⟨nofun, nofun⟩
  · exact ⟨nofun, nofun⟩

theorem evalUpdate_pair (s : NameEvaluator) : LeavesPair s.evalUpdate := by
  unfold NameEvaluator.evalUpdate
  split
  · rename_i stack
    have two : s.stack.length = 2 := congrArg List.length stack
    exact ⟨nofun, by rintro s' ⟨⟩; exact two.ge⟩
  · split
    · exact ⟨nofun, nofun⟩
    · exact ⟨by rintro s' ⟨⟩; exact le_rfl, nofun⟩
  · exact ⟨nofun, nofun⟩

/-- Two values or more do not become fewer than two, unless the evaluation fails. -/
theorem nameEval_pair {opcode : Nat} (pair : 2 ≤ s.stack.length) : LeavesPair (nameEval hashers opcode s) := by
  unfold nameEval
  split
  · unfold NameEvaluator.evalNew
    split
    · rename_i stack
      have one : s.stack.length = 1 := congrArg List.length stack
      omega
    · exact ⟨nofun, nofun⟩
  · exact evalFirstUpdate_pair s.named
  · exact evalUpdate_pair s.named
  · exact ⟨nofun, by rintro s' ⟨⟩; exact pair⟩

theorem nameLoop_pair (values : List Data) (pair : 2 ≤ s.stack.length)
    (accepted : nameLoop hashers values s = (true, s')) : 2 ≤ s'.stack.length := by
  induction values generalizing s with
  | nil =>
    obtain rfl := (Prod.mk.inj accepted).2
    exact pair
  | cons value values ih =>
    have turned : LeavesPair (nameTurn hashers value s) := by
      unfold nameTurn
      split
      · exact nameEval_pair pair
      · refine ⟨nofun, ?_⟩
        rintro s' ⟨⟩
        exact pair.trans (Nat.le_succ _)
    rw [nameLoop] at accepted
    split at accepted
    · cases (Prod.mk.inj accepted).1
    · cases turn : nameTurn hashers value s with
      | done result s₁ =>
        rw [turn] at accepted
        obtain ⟨rfl, rfl⟩ := Prod.mk.inj accepted
        exact turned.1 _ turn
      | next s₁ =>
        rw [turn] at accepted
        dsimp only at accepted
        split at accepted
        · cases (Prod.mk.inj accepted).1
        · exact ih (turned.2 _ turn) accepted

theorem proceed_pair {turn : Turn NameMembers} {rest : List Data} (pair : LeavesPair turn)
    (accepted : proceed hashers turn rest = (true, s')) : 2 ≤ s'.stack.length := by
  unfold proceed at accepted
  split at accepted
  · obtain ⟨rfl, rfl⟩ := Prod.mk.inj accepted
    exact pair.1 _ rfl
  · split at accepted
    · cases (Prod.mk.inj accepted).1
    · exact nameLoop_pair rest (pair.2 _ rfl) accepted

/-- Whatever an input's script leaves, one value alone is the hash of a name that is reserved. -/
theorem nameLoop_alone {values : List Data} (short : Short values) (few : values.length ≤ 402)
    (accepted : nameLoop hashers values (NameEvaluator.new false) = (true, s)) (named : s.wasNameScript = true)
    (one : s.stack.length = 1) :
    ∃ hash rest, hash.length = 20 ∧ s.stack = [hash] ∧ reading values [] = .op 1 [hash] rest := by
  rw [nameLoop_reading short (NameEvaluator.new false) [] [] rfl
    (show 0 + 0 + values.length ≤ 1000 by omega)] at accepted
  cases read : reading values [] with
  | none args =>
    rw [read] at accepted
    obtain rfl := (Prod.mk.inj accepted).2
    cases named
  | op number args rest =>
    rw [read] at accepted
    dsimp only at accepted
    rw [List.append_nil] at accepted
    obtain ⟨known, -, -⟩ := reading_op read
    rcases known with rfl | rfl | rfl
    · match args, accepted with
      | [hash], accepted =>
        have turned := Prod.mk.inj accepted
        refine ⟨hash, rest, of_decide_eq_true turned.1, ?_, rfl⟩
        rw [← turned.2]
        rfl
      | [], accepted => cases (Prod.mk.inj accepted).1
      | _ :: _ :: _, accepted => cases (Prod.mk.inj accepted).1
    · have two := proceed_pair (evalFirstUpdate_pair _) accepted
      omega
    · have two := proceed_pair (evalUpdate_pair _) accepted
      omega

/-- The turn of a first operation, on the values that an input left. -/
theorem complete_legal {args base rest : List Data} {number : Nat} (known : number = 1 ∨ number = 2 ∨ number = 3)
    (complete : (Reading.op number args rest).Complete) (on : s.stack = args ++ base) (input : base ≠ [])
    (rules : s.own.ignoreRules = false)
    (accepted : proceed hashers (nameEval hashers (80 + number) s) rest = (true, s'))
    (many : s'.stack.length ≠ 1) :
    (∃ name rand value hash, number = 2 ∧ args = [name, rand, value] ∧ base = [hash] ∧
      toUint160 hash = hashers.hash160 (rand ++ name)) ∨
    ∃ name value old, number = 3 ∧ args = [name, value] ∧ base = [name, old] := by
  have least := List.length_pos_iff.mpr input
  have size : s.stack.length = args.length + base.length := by rw [on, List.length_append]
  rcases known with rfl | rfl | rfl
  · have turned : proceed hashers s.named.evalNew rest = (true, s') := accepted
    unfold NameEvaluator.evalNew at turned
    split at turned
    · rename_i stack
      have turned := Prod.mk.inj turned
      rw [← turned.2] at many
      exact absurd (congrArg List.length stack) many
    · cases (Prod.mk.inj turned).1
  · have three := complete.1 rfl
    have turned : proceed hashers (s.named.evalFirstUpdate hashers) rest = (true, s') := accepted
    unfold NameEvaluator.evalFirstUpdate at turned
    split at turned
    · rename_i stack
      have long : s.stack.length = 3 := congrArg List.length stack
      omega
    · rename_i name rand value hash stack
      have stack : args ++ base = [name, rand, value, hash] := on.symm.trans stack
      have long := congrArg List.length stack
      rw [List.length_append] at long
      have split : args = [name, rand, value] ∧ base = [hash] := by
        have exactly : args.length = [name, rand, value].length := by
          simp only [List.length_cons, List.length_nil] at long ⊢
          omega
        exact List.append_inj (show args ++ base = [name, rand, value] ++ [hash] from stack) exactly
      split at turned
      · rename_i same
        exact .inl ⟨name, rand, value, hash, rfl, split.1, split.2, same⟩
      · rw [if_neg (by rw [show s.named.own.ignoreRules = s.own.ignoreRules from rfl, rules]; decide)] at turned
        cases (Prod.mk.inj turned).1
    · cases (Prod.mk.inj turned).1
  · have enough := complete.2 rfl
    have turned : proceed hashers s.named.evalUpdate rest = (true, s') := accepted
    unfold NameEvaluator.evalUpdate at turned
    split at turned
    · rename_i stack
      have long : s.stack.length = 2 := congrArg List.length stack
      omega
    · rename_i name2 value2 name1 value1 stack
      have stack : args ++ base = [name2, value2, name1, value1] := on.symm.trans stack
      have long := congrArg List.length stack
      rw [List.length_append] at long
      simp only [List.length_cons, List.length_nil] at long
      split at turned
      · cases (Prod.mk.inj turned).1
      · rename_i agree
        have same : name2 = name1 := by
          by_contra different
          exact agree ⟨different, by rw [show s.named.own.ignoreRules = s.own.ignoreRules from rfl, rules]; rfl⟩
        rcases enough with two | four | ⟨three, apart⟩
        · have split := List.append_inj (show args ++ base = [name2, value2] ++ [name1, value1] from stack) two
          exact .inr ⟨name2, value2, value1, rfl, split.1, same ▸ split.2⟩
        · omega
        · have split := List.append_inj (show args ++ base = [name2, value2, name1] ++ [value1] from stack) three
          rw [split.1, same] at apart
          exact absurd rfl apart
    · cases (Prod.mk.inj turned).1

/-- What no name operation changes. -/
structure Alike (s s' : NameEvaluator) : Prop where
  execStack : s'.execStack = s.execStack
  altStack : s'.altStack = s.altStack
  ignoreRules : s'.own.ignoreRules = s.own.ignoreRules

theorem Alike.trans {s s' s'' : NameEvaluator} (first : Alike s s') (second : Alike s' s'') : Alike s s'' :=
  ⟨second.execStack.trans first.execStack, second.altStack.trans first.altStack,
    second.ignoreRules.trans first.ignoreRules⟩

theorem nameEval_alike (opcode : Nat) (s : NameEvaluator) : Alike s (nameEval hashers opcode s).state := by
  unfold nameEval
  split
  · unfold NameEvaluator.evalNew
    split <;> exact ⟨rfl, rfl, rfl⟩
  · unfold NameEvaluator.evalFirstUpdate
    split
    · exact ⟨rfl, rfl, rfl⟩
    · split
      · exact ⟨rfl, rfl, rfl⟩
      · split <;> exact ⟨rfl, rfl, rfl⟩
    · exact ⟨rfl, rfl, rfl⟩
  · unfold NameEvaluator.evalUpdate
    split
    · exact ⟨rfl, rfl, rfl⟩
    · split <;> exact ⟨rfl, rfl, rfl⟩
    · exact ⟨rfl, rfl, rfl⟩
  · exact ⟨rfl, rfl, rfl⟩

theorem nameLoop_alike (values : List Data) (s : NameEvaluator) : Alike s (nameLoop hashers values s).2 := by
  induction values generalizing s with
  | nil => exact ⟨rfl, rfl, rfl⟩
  | cons value values ih =>
    have turned : Alike s (nameTurn hashers value s).state := by
      unfold nameTurn
      split
      · exact nameEval_alike _ s
      · exact ⟨rfl, rfl, rfl⟩
    rw [nameLoop]
    split
    · exact ⟨rfl, rfl, rfl⟩
    · cases turn : nameTurn hashers value s with
      | done result s₁ =>
        rw [turn] at turned
        exact turned
      | next s₁ =>
        rw [turn] at turned
        dsimp only
        split
        · exact turned
        · exact turned.trans (ih s₁)

/-- An evaluation that succeeds is the loop over the dropped values. -/
theorem run_getDropped {script : Script} {s s' : NameEvaluator} (idle : s.execStack = []) :
    Evaluator.run (nameEval hashers) (Script.getDropped hashers script) s = (true, s') ↔
      (Script.getDropped hashers script).length ≤ 10000 ∧
        nameLoop hashers (droppedValues hashers script) { s with opCount := 0 } = (true, s') := by
  have short := (@droppedValues_bounds hashers script).1
  by_cases fits : (Script.getDropped hashers script).length ≤ 10000
  · have run := @run_dropped hashers _ fits (fun value inside => (short value inside).trans_lt (by decide)) _ idle
    exact (Eq.congr_left run).trans ⟨fun done => ⟨fits, done⟩, fun both => both.2⟩
  · refine iff_of_false ?_ fun both => fits both.1
    unfold Evaluator.run
    rw [if_pos (Nat.not_le.mp fits)]
    exact fun done => absurd (Prod.mk.inj done).1 Bool.false_ne_true

/-! ### Inputs and outputs -/

variable {prim : Primitives} {op op' : NameOperation}

/-- After the inputs, the script that is kept is what a name script among them drops. -/
theorem inputs_kept (coins : List (Output × Int)) (done : op.inputs (prim.withNames hashers) coins = .ok op') :
    op'.ignoreRules = op.ignoreRules ∧ op'.nameOut = op.nameOut ∧
      (op'.nameIn = op.nameIn ∨ ∃ coin ∈ coins.map Prod.fst, op'.nameIn = Script.getDropped hashers coin.script ∧
        NameEvaluator.wasNameScript (Evaluator.run (nameEval hashers) op'.nameIn
          (NameEvaluator.new op.ignoreRules)).2 = true) := by
  induction coins generalizing op with
  | nil =>
    obtain rfl := Except.ok.inj done
    exact ⟨rfl, rfl, .inl rfl⟩
  | cons entry coins ih =>
    obtain ⟨coin, count⟩ := entry
    obtain ⟨⟨op₁, named⟩, first, later⟩ := Exec.bind_eq_ok.mp done
    obtain ⟨rules, out, kept⟩ := ih later
    have step : op₁.ignoreRules = op.ignoreRules ∧ op₁.nameOut = op.nameOut ∧
        (op₁.nameIn = op.nameIn ∨ op₁.nameIn = Script.getDropped hashers coin.script ∧
          NameEvaluator.wasNameScript (Evaluator.run (nameEval hashers) op₁.nameIn
            (NameEvaluator.new op.ignoreRules)).2 = true) := by
      unfold NameOperation.input at first
      dsimp only at first
      split at first
      · cases first
        exact ⟨rfl, rfl, .inl rfl⟩
      · split at first
        · cases first
          exact ⟨rfl, rfl, .inl rfl⟩
        · rename_i script
          split at first
          · cases first
          · obtain ⟨rfl, rfl⟩ := Prod.mk.inj (Except.ok.inj first)
            have flag : ((prim.withNames hashers).evalInput op.ignoreRules
                ((prim.withNames hashers).getDropped coin.script)).isNameScript = true := by
              simpa using script
            split <;> exact ⟨rfl, rfl, .inr ⟨rfl, flag⟩⟩
    obtain ⟨rules₁, out₁, kept₁⟩ := step
    refine ⟨rules.trans rules₁, out.trans out₁, ?_⟩
    rw [rules₁] at kept
    rcases kept with same | ⟨other, inside, kept⟩
    · rcases kept₁ with same₁ | ⟨dropped, flag⟩
      · exact .inl (same.trans same₁)
      · exact .inr ⟨coin, List.mem_cons_self, same.trans dropped, by rw [same]; exact flag⟩
    · exact .inr ⟨other, List.mem_cons_of_mem _ inside, kept⟩

theorem evalNonempty_eq {script : Script} {s s' : NameEvaluator} :
    evalNonempty hashers script s = some s' ↔
      Evaluator.run (nameEval hashers) script s = (true, s') ∧ s'.stack ≠ [] := by
  unfold evalNonempty
  generalize Evaluator.run (nameEval hashers) script s = pair
  obtain ⟨result, s₁⟩ := pair
  cases result with
  | false => simp
  | true =>
    cases stack : s₁.stack with
    | nil =>
      simp only [stack, List.isEmpty_nil, Bool.not_true, Bool.or_true, if_true, reduceCtorEq, false_iff, not_and,
        Prod.mk.injEq, true_and, not_not]
      rintro rfl
      exact stack
    | cons value rest =>
      simp only [stack, List.isEmpty_cons, Bool.not_true, Bool.or_self, Bool.false_eq_true, if_false,
        Option.some.injEq,
        Prod.mk.injEq, true_and]
      constructor
      · rintro rfl
        exact ⟨rfl, by rw [stack]; exact List.cons_ne_nil _ _⟩
      · exact fun both => both.1

/-- The evaluation of `output`, with both scripts on one stack. -/
theorem evalNameOutput_eq {ignoreRules : Bool} {nameIn nameOut : Script} (given : nameIn ≠ [])
    {eval : NameScript} :
    evalNameOutput hashers ignoreRules nameIn nameOut = some eval ↔
      ∃ s s' : NameEvaluator,
        Evaluator.run (nameEval hashers) nameIn (NameEvaluator.new ignoreRules) = (true, s) ∧ s.stack ≠ [] ∧
        Evaluator.run (nameEval hashers) nameOut s = (true, s') ∧ s'.stack ≠ [] ∧
        NameEvaluator.report s' = eval := by
  unfold evalNameOutput
  dsimp only
  rw [if_neg (by simpa using given)]
  constructor
  · intro done
    obtain ⟨s, first, done⟩ := Option.bind_eq_some_iff.mp done
    obtain ⟨s', second, done⟩ := Option.bind_eq_some_iff.mp done
    obtain ⟨run, some⟩ := evalNonempty_eq.mp first
    obtain ⟨run', some'⟩ := evalNonempty_eq.mp second
    exact ⟨s, s', run, some, run', some', Option.some.inj done⟩
  · rintro ⟨s, s', run, some, run', some', rfl⟩
    rw [evalNonempty_eq.mpr ⟨run, some⟩]
    show (do let s ← evalNonempty hashers nameOut s; return NameEvaluator.report s) = _
    rw [evalNonempty_eq.mpr ⟨run', some'⟩]
    rfl

/-- When `output` returns true. -/
theorem output_true_iff {out : Output} (fresh : op.nameOut = []) :
    (∃ op', op.output (prim.withNames hashers) out = .ok (op', true)) ↔
      out.script ≠ opReturn ∧ Script.getDropped hashers out.script ≠ [] ∧ op.nameIn ≠ [] ∧
        ∃ s s' : NameEvaluator,
          Evaluator.run (nameEval hashers) op.nameIn (NameEvaluator.new op.ignoreRules) = (true, s) ∧
          s.stack ≠ [] ∧
          Evaluator.run (nameEval hashers) (Script.getDropped hashers out.script) s = (true, s') ∧
          s'.stack ≠ [] ∧ s'.own.nameScript = true ∧ s'.stack.length ≠ 1 := by
  unfold NameOperation.output
  by_cases pays : out.script = opReturn
  · rw [if_pos pays]
    refine iff_of_false ?_ fun all => all.1 pays
    rintro ⟨op', done⟩
    cases done
  rw [if_neg pays]
  have dropped : (prim.withNames hashers).getDropped out.script = Script.getDropped hashers out.script := rfl
  have evaluated : (prim.withNames hashers).evalOutput = evalNameOutput hashers := rfl
  dsimp only
  rw [dropped, evaluated]
  generalize Script.getDropped hashers out.script = nameOut
  by_cases nothing : nameOut = []
  · subst nothing
    rw [fresh]
    refine iff_of_false ?_ fun all => all.2.1 rfl
    rintro ⟨op', done⟩
    cases done
  have drops : (op.nameOut.isEmpty && !nameOut.isEmpty) = true := by
    rw [fresh]
    simpa using nothing
  rw [if_pos drops]
  by_cases given : op.nameIn = []
  · refine iff_of_false ?_ fun all => all.2.2.1 given
    rintro ⟨op', done⟩
    rw [given] at done
    cases eval : evalNameOutput hashers op.ignoreRules [] nameOut with
    | none =>
      rw [eval] at done
      cases done
    | some eval =>
      rw [eval] at done
      dsimp only at done
      split at done
      · cases done
      · rw [if_pos (by simp)] at done
        cases done
  constructor
  · rintro ⟨op', done⟩
    cases eval : evalNameOutput hashers op.ignoreRules op.nameIn nameOut with
    | none =>
      rw [eval] at done
      cases done
    | some eval' =>
      rw [eval] at done
      dsimp only at done
      obtain ⟨s, s', run, some, run', some', rfl⟩ := (evalNameOutput_eq given).mp eval
      split at done
      · cases done
      · rename_i named
        split at done
        · cases done
        · rename_i many
          refine ⟨pays, nothing, given, s, s', run, some, run', some', ?_, fun one => many ?_⟩
          · exact (by simpa using named : (NameEvaluator.report s').isNameScript = true)
          · rw [Bool.or_eq_true]
            exact .inl (decide_eq_true one)
  · rintro ⟨-, -, -, s, s', run, some, run', some', named, many⟩
    rw [(evalNameOutput_eq given).mpr ⟨s, s', run, some, run', some', rfl⟩]
    have named : (NameEvaluator.report s').isNameScript = true := named
    have many : (NameEvaluator.report s').isNameNew = false := decide_eq_false many
    dsimp only
    rw [named, many, if_neg (by decide), if_neg (by simpa using given)]
    exact ⟨_, rfl⟩

/-- A safe output makes a legal transition, whatever the inputs are. -/
theorem legal_of_safe {out : Output} (safe : SafeOutput hashers out.script) (coins : List (Output × Int))
    (inputs : (NameOperation.new prim false).inputs (prim.withNames hashers) coins = .ok op)
    (accepted : op.output (prim.withNames hashers) out = .ok (op', true)) :
    LegalTransition hashers (coins.map Prod.fst) out.script := by
  obtain ⟨rules, out', kept⟩ := inputs_kept coins inputs
  obtain ⟨-, drops, given, s, s', run, some, run', -, named, many⟩ := (output_true_iff out').mp ⟨op', accepted⟩
  obtain ⟨coin, inside, same, flag⟩ := kept.resolve_left given
  rw [rules, same] at run
  rw [same] at flag
  rw [show (NameOperation.new prim false).ignoreRules = false from rfl] at run flag
  have named₁ : s.wasNameScript = true := by
    rw [run] at flag
    exact flag
  obtain ⟨-, loop⟩ := (run_getDropped rfl).mp run
  obtain ⟨shortIn, fewIn⟩ := @droppedValues_bounds hashers coin.script
  obtain ⟨shortOut, fewOut⟩ := @droppedValues_bounds hashers out.script
  have alike : Alike (NameEvaluator.new false) s := by
    have kept := @nameLoop_alike hashers (droppedValues hashers coin.script) (NameEvaluator.new false)
    rwa [show nameLoop hashers _ (NameEvaluator.new false) = (true, s) from loop] at kept
  have idle : s.execStack = [] := alike.execStack
  have alone : s.altStack = [] := alike.altStack
  have size : s.stack.length ≤ 402 := by
    have bound := @nameLoop_length hashers (droppedValues hashers coin.script) (NameEvaluator.new false)
    rw [show nameLoop hashers _ (NameEvaluator.new false) = (true, s) from loop] at bound
    exact bound.trans ((Nat.zero_add _).le.trans ((List.countP_le_length).trans fewIn))
  obtain ⟨fits, loop'⟩ := (run_getDropped idle).mp run'
  have room : s.stack.length + s.altStack.length + (droppedValues hashers out.script).length ≤ 1000 := by
    rw [alone, List.length_nil]
    omega
  rw [nameLoop_reading shortOut { s with opCount := 0 } [] s.stack rfl room] at loop'
  have complete : (reading (droppedValues hashers out.script) []).Complete := by
    rcases safe with nothing | long | complete
    · exact absurd (show Script.getDropped hashers out.script = [] by rw [Script.getDropped, nothing]; rfl) drops
    · omega
    · exact complete
  cases read : reading (droppedValues hashers out.script) [] with
  | none args =>
    rw [read] at complete
    exact complete.elim
  | op number args rest =>
    rw [read] at complete loop'
    rcases complete_legal (s := { s with stack := args ++ s.stack, opCount := 0 })
      (reading_op read).1 complete rfl
        some alike.ignoreRules loop' many with
      ⟨name, rand, value, hash, rfl, rfl, left, same⟩ | ⟨name, value, old, rfl, rfl, left⟩
    · obtain ⟨hash', rest', length, only, readIn⟩ := nameLoop_alone shortIn fewIn loop named₁ (by rw [left]; rfl)
      obtain rfl : hash' = hash := (List.cons.inj (only.symm.trans left)).1
      unfold toUint160 at same
      rw [if_pos length] at same
      refine .inl ⟨name, rand, value, ⟨rest, read⟩, coin, inside, rest', ?_⟩
      rw [← same]
      exact readIn
    · exact .inr ⟨name, value, ⟨rest, read⟩, coin, inside, s, old, run, named₁, left⟩

end Accepted

end Libcoin
