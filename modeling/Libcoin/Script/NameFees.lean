/-
What `NameOperation` says of the fee and of the age of a reservation, after all inputs and outputs of a transaction.

* `NameOperation.feed` shows an operation the inputs and then the outputs.
* `lastName`, `lastNameNew`, `firstNameOut` and `FirstUpdate` say what the transaction does, from its coins and outputs
  alone. `inputs_spec` and `outputs_spec` say that the members are these, and otherwise what they were.
-/

import Libcoin.Ledger.Attach
import Libcoin.Script.NameRules

namespace Libcoin

/-- The bounds of `int64_t`. -/
def InRange64 (value : Int) : Prop := -2 ^ 63 ≤ value ∧ value < 2 ^ 63

/-- The bounds of `int`. -/
def InRange32 (value : Int) : Prop := -2 ^ 31 ≤ value ∧ value < 2 ^ 31

instance (value : Int) : Decidable (InRange64 value) := inferInstanceAs (Decidable (_ ∧ _))

instance (value : Int) : Decidable (InRange32 value) := inferInstanceAs (Decidable (_ ∧ _))

namespace NameOperation

/-! ### The operation of a transaction -/

/-- `output` for one output after the other. -/
def outputs (prim : Primitives) (op : NameOperation) : List Output → Except Fault NameOperation
  | [] => .ok op
  | out :: outs => do
    let (op, _) ← op.output prim out
    op.outputs prim outs

/-- All inputs, and then all outputs. -/
def feed (prim : Primitives) (op : NameOperation) (coins : List (Output × Int)) (outs : List Output) :
    Except Fault NameOperation := do
  let op ← op.inputs prim coins
  op.outputs prim outs

/-- The constructor, where `_input_count` and `_network_fee` happen to have some values. -/
def constructed (prim : Primitives) (ignoreRules : Bool) (inputCount networkFee : Int) : NameOperation :=
  { new prim ignoreRules with inputCount := inputCount, networkFee := networkFee }

section Rules

variable (prim : Primitives) (ignoreRules : Bool)

/-- The coin carries a name script. -/
def isName (coin : Output) : Bool :=
  !(prim.getDropped coin.script).isEmpty && (prim.evalInput ignoreRules (prim.getDropped coin.script)).isNameScript

/-- The coin carries an `OP_NAME_NEW`. -/
def isNameNew (coin : Output) : Bool :=
  isName prim ignoreRules coin && (prim.evalInput ignoreRules (prim.getDropped coin.script)).isNameNew

/-- What the name script of the inputs drops: that of the last coin with one. -/
def lastName (coins : List (Output × Int)) : Option Script :=
  ((coins.map Prod.fst).filter (isName prim ignoreRules)).getLast?.map fun coin => prim.getDropped coin.script

/-- The count of the last coin with an `OP_NAME_NEW`. -/
def lastNameNew (coins : List (Output × Int)) : Option Int :=
  (coins.filter fun coin => isNameNew prim ignoreRules coin.1).getLast?.map Prod.snd

/-- What the first output drops that drops something. -/
def firstNameOut (outs : List Output) : Option Script :=
  ((outs.filter fun out => decide (out.script ≠ opReturn)).map fun out => prim.getDropped out.script).find?
    fun dropped => !dropped.isEmpty

/-- The values of the outputs with `OP_RETURN`. -/
def networkFees (outs : List Output) : Int :=
  ((outs.filter fun out => decide (out.script = opReturn)).map Output.value).sum

/-- With this script of the inputs, the name script of the outputs is a first update. -/
def Reserves (nameIn nameOut : Script) : Prop :=
  ∃ eval, prim.evalOutput ignoreRules nameIn nameOut = some eval ∧ eval.isNameScript = true ∧
    eval.isNameNew = false ∧ nameIn ≠ [] ∧ eval.isFirstUpdate = true

/-- The name operation of the transaction is a first update. -/
def FirstUpdate (coins : List (Output × Int)) (outs : List Output) : Prop :=
  ∃ nameOut, firstNameOut prim outs = some nameOut ∧
    Reserves prim ignoreRules ((lastName prim ignoreRules coins).getD []) nameOut

end Rules

/-! ### The members after a transaction -/

section Members

variable {prim : Primitives} {op op' : NameOperation}

theorem lastName_cons (ignoreRules : Bool) (coin : Output × Int) (coins : List (Output × Int)) (before : Script) :
    (lastName prim ignoreRules (coin :: coins)).getD before =
      (lastName prim ignoreRules coins).getD
        (if isName prim ignoreRules coin.1 then prim.getDropped coin.1.script else before) := by
  unfold lastName
  rw [List.map_cons, List.filter_cons]
  split
  · rw [List.getLast?_cons]
    cases ((coins.map Prod.fst).filter (isName prim ignoreRules)).getLast? <;> rfl
  · rfl

theorem lastNameNew_cons (ignoreRules : Bool) (coin : Output × Int) (coins : List (Output × Int)) (before : Int) :
    (lastNameNew prim ignoreRules (coin :: coins)).getD before =
      (lastNameNew prim ignoreRules coins).getD (if isNameNew prim ignoreRules coin.1 then coin.2 else before) := by
  unfold lastNameNew
  rw [List.filter_cons]
  split
  · rw [List.getLast?_cons]
    cases (coins.filter fun coin => isNameNew prim ignoreRules coin.1).getLast? <;> rfl
  · rfl

/-- One input. -/
theorem input_spec {coin : Output} {count : Int} {named : Bool} (done : op.input prim coin count = .ok (op', named)) :
    op' = { op with
      nameIn := if isName prim op.ignoreRules coin then prim.getDropped coin.script else op.nameIn
      inputCount := if isNameNew prim op.ignoreRules coin then count else op.inputCount
      allowOverwrite := op'.allowOverwrite } := by
  unfold input at done
  unfold isNameNew isName
  dsimp only at done
  split at done
  · rename_i nothing
    obtain ⟨rfl, -⟩ := Prod.mk.inj (Except.ok.inj done)
    rw [nothing]
    rfl
  · rename_i filled
    rw [Bool.not_eq_true] at filled
    rw [filled]
    split at done
    · rename_i other
      obtain ⟨rfl, -⟩ := Prod.mk.inj (Except.ok.inj done)
      rw [Bool.not_eq_true'] at other
      rw [other]
      rfl
    · rename_i script
      rw [Bool.not_eq_true', Bool.not_eq_false] at script
      rw [script]
      split at done
      · cases done
      · obtain ⟨rfl, -⟩ := Prod.mk.inj (Except.ok.inj done)
        cases (prim.evalInput op.ignoreRules (prim.getDropped coin.script)).isNameNew <;> rfl

/-- After the inputs. -/
theorem inputs_spec (coins : List (Output × Int)) (done : op.inputs prim coins = .ok op') :
    op' = { op with
      nameIn := (lastName prim op.ignoreRules coins).getD op.nameIn
      inputCount := (lastNameNew prim op.ignoreRules coins).getD op.inputCount
      allowOverwrite := op'.allowOverwrite } := by
  induction coins generalizing op with
  | nil =>
    obtain rfl := Except.ok.inj done
    rfl
  | cons entry coins ih =>
    obtain ⟨coin, count⟩ := entry
    obtain ⟨⟨op₁, named⟩, first, later⟩ := Exec.bind_eq_ok.mp done
    rw [lastName_cons, lastNameNew_cons, ih later, input_spec first]

/-- One output: it pays a fee, or is the first one that drops something, or nothing. -/
theorem output_spec {out : Output} {named : Bool} (done : op.output prim out = .ok (op', named)) :
    op'.ignoreRules = op.ignoreRules ∧ op'.inputCount = op.inputCount ∧ op'.nameIn = op.nameIn ∧
      op'.networkFee = (if out.script = opReturn then wrap64 (op.networkFee + out.value) else op.networkFee) ∧
      op'.nameOut = (if out.script ≠ opReturn ∧ op.nameOut = [] then prim.getDropped out.script else op.nameOut) ∧
      (op'.requiresNetworkFee = true ↔ op.requiresNetworkFee = true ∨ out.script ≠ opReturn ∧ op.nameOut = [] ∧
        prim.getDropped out.script ≠ [] ∧ Reserves prim op.ignoreRules op.nameIn (prim.getDropped out.script)) := by
  unfold output at done
  split at done
  · rename_i fee
    obtain ⟨rfl, -⟩ := Prod.mk.inj (Except.ok.inj done)
    rw [if_pos fee, if_neg fun both => both.1 fee]
    exact ⟨rfl, rfl, rfl, rfl, rfl, (or_iff_left fun both => both.1 fee).symm⟩
  · rename_i other
    rw [if_neg other]
    dsimp only at done
    split at done
    · rename_i first
      obtain ⟨unset, filled⟩ := Bool.and_eq_true_iff.mp first
      have unset : op.nameOut = [] := List.isEmpty_iff.mp unset
      have filled : prim.getDropped out.script ≠ [] := List.isEmpty_eq_false_iff.mp (Bool.not_eq_true' _ ▸ filled)
      rw [if_pos ⟨other, unset⟩]
      split at done
      · cases done
      · rename_i eval evaluated
        have reserves : out.script ≠ opReturn ∧ op.nameOut = [] ∧ prim.getDropped out.script ≠ [] ∧
            Reserves prim op.ignoreRules op.nameIn (prim.getDropped out.script) ↔
              eval.isNameScript = true ∧ eval.isNameNew = false ∧ op.nameIn ≠ [] ∧ eval.isFirstUpdate = true := by
          constructor
          · rintro ⟨-, -, -, eval', evaluated', parts⟩
            obtain rfl := Option.some.inj (evaluated.symm.trans evaluated')
            exact parts
          · exact fun parts => ⟨other, unset, filled, eval, evaluated, parts⟩
        rw [reserves]
        split at done
        · rename_i plain
          obtain ⟨rfl, -⟩ := Prod.mk.inj (Except.ok.inj done)
          rw [Bool.not_eq_true'] at plain
          refine ⟨rfl, rfl, rfl, rfl, rfl, (or_iff_left fun parts => ?_).symm⟩
          exact Bool.false_ne_true (plain.symm.trans parts.1)
        · rename_i script
          rw [Bool.not_eq_true', Bool.not_eq_false] at script
          split at done
          · rename_i ignored
            obtain ⟨rfl, -⟩ := Prod.mk.inj (Except.ok.inj done)
            refine ⟨rfl, rfl, rfl, rfl, rfl, (or_iff_left fun parts => ?_).symm⟩
            rcases Bool.or_eq_true_iff.mp ignored with isNew | alone
            · exact Bool.false_ne_true (parts.2.1.symm.trans isNew)
            · exact parts.2.2.1 (List.isEmpty_iff.mp alone)
          · rename_i counts
            rw [Bool.not_eq_true, Bool.or_eq_false_iff] at counts
            obtain ⟨rfl, -⟩ := Prod.mk.inj (Except.ok.inj done)
            have given : op.nameIn ≠ [] := List.isEmpty_eq_false_iff.mp counts.2
            cases update : eval.isFirstUpdate with
            | true => exact ⟨rfl, rfl, rfl, rfl, rfl, iff_of_true rfl (.inr ⟨script, counts.1, given, rfl⟩)⟩
            | false => exact ⟨rfl, rfl, rfl, rfl, rfl, (or_iff_left fun parts => Bool.false_ne_true parts.2.2.2).symm⟩
    · rename_i later
      obtain ⟨rfl, -⟩ := Prod.mk.inj (Except.ok.inj done)
      refine ⟨rfl, rfl, rfl, rfl, ?_, (or_iff_left fun parts => later ?_).symm⟩
      · split
        · rename_i both
          by_contra filled
          refine later (Bool.and_eq_true_iff.mpr ⟨List.isEmpty_iff.mpr both.2, ?_⟩)
          rw [both.2] at filled
          rw [Bool.not_eq_true', List.isEmpty_eq_false_iff]
          exact Ne.symm filled
        · rfl
      · rw [parts.2.1, Bool.and_eq_true_iff, Bool.not_eq_true', List.isEmpty_eq_false_iff]
        exact ⟨rfl, parts.2.2.1⟩

theorem firstNameOut_cons (out : Output) (outs : List Output) :
    firstNameOut prim (out :: outs) =
      if out.script ≠ opReturn ∧ prim.getDropped out.script ≠ [] then some (prim.getDropped out.script)
      else firstNameOut prim outs := by
  unfold firstNameOut
  rw [List.filter_cons]
  by_cases fee : out.script = opReturn
  · rw [decide_eq_false (not_not.mpr fee), if_neg Bool.false_ne_true, if_neg fun both => both.1 fee]
  · rw [decide_eq_true (show out.script ≠ opReturn from fee), if_pos rfl, List.map_cons, List.find?_cons]
    by_cases nothing : prim.getDropped out.script = []
    · rw [nothing, if_neg fun both => both.2 rfl]
      rfl
    · rw [if_pos ⟨fee, nothing⟩, List.isEmpty_eq_false_iff.mpr nothing]
      rfl

theorem networkFees_cons (out : Output) (outs : List Output) :
    networkFees (out :: outs) = (if out.script = opReturn then out.value else 0) + networkFees outs := by
  unfold networkFees
  rw [List.filter_cons]
  split
  · rename_i fee
    rw [if_pos (of_decide_eq_true fee), List.map_cons, List.sum_cons]
  · rename_i other
    rw [if_neg fun fee => other (decide_eq_true fee), zero_add]

/-- After the outputs. -/
theorem outputs_spec (outs : List Output) (range : InRange64 op.networkFee) (done : op.outputs prim outs = .ok op') :
    op'.inputCount = op.inputCount ∧ op'.networkFee = wrap64 (op.networkFee + networkFees outs) ∧
      (op'.requiresNetworkFee = true ↔ op.requiresNetworkFee = true ∨ op.nameOut = [] ∧
        ∃ nameOut, firstNameOut prim outs = some nameOut ∧ Reserves prim op.ignoreRules op.nameIn nameOut) := by
  induction outs generalizing op with
  | nil =>
    obtain rfl := Except.ok.inj done
    refine ⟨rfl, ?_, (or_iff_left ?_).symm⟩
    · rw [show networkFees [] = 0 from rfl, add_zero, wrap64_of_range range.1 range.2]
    · rintro ⟨-, nameOut, unset, -⟩
      cases unset
  | cons out outs ih =>
    obtain ⟨⟨op₁, named⟩, first, later⟩ := Exec.bind_eq_ok.mp done
    obtain ⟨rules, count, nameIn, fee, nameOut, requires⟩ := output_spec first
    have range₁ : InRange64 op₁.networkFee := by
      rw [fee]
      split
      · exact (wrap64_spec _).2
      · exact range
    obtain ⟨count', fee', requires'⟩ := ih range₁ later
    refine ⟨count'.trans count, ?_, ?_⟩
    · rw [fee', fee, networkFees_cons]
      split
      · rw [wrap64_add, add_assoc]
      · rw [zero_add]
    · rw [requires', requires, rules, nameIn, nameOut, firstNameOut_cons]
      by_cases dropping : out.script ≠ opReturn ∧ prim.getDropped out.script ≠ []
      · rw [if_pos dropping]
        by_cases unset : op.nameOut = []
        · rw [if_pos ⟨dropping.1, unset⟩]
          constructor
          · rintro ((before | ⟨-, -, -, here⟩) | ⟨nothing, -⟩)
            · exact .inl before
            · exact .inr ⟨unset, _, rfl, here⟩
            · exact absurd nothing dropping.2
          · rintro (before | ⟨-, nameOut', same, here⟩)
            · exact .inl (.inl before)
            · obtain rfl := Option.some.inj same
              exact .inl (.inr ⟨dropping.1, unset, dropping.2, here⟩)
        · rw [if_neg fun both => unset both.2]
          constructor
          · rintro ((before | ⟨-, nothing, -⟩) | ⟨nothing, -⟩)
            · exact .inl before
            · exact absurd nothing unset
            · exact absurd nothing unset
          · rintro (before | ⟨nothing, -⟩)
            · exact .inl (.inl before)
            · exact absurd nothing unset
      · have same : (if out.script ≠ opReturn ∧ op.nameOut = [] then prim.getDropped out.script else op.nameOut) =
            op.nameOut := by
          split
          · rename_i both
            rw [both.2]
            exact not_not.mp fun filled => dropping ⟨both.1, filled⟩
          · rfl
        have never : ¬(out.script ≠ opReturn ∧ op.nameOut = [] ∧ prim.getDropped out.script ≠ [] ∧
            Reserves prim op.ignoreRules op.nameIn (prim.getDropped out.script)) :=
          fun parts => dropping ⟨parts.1, parts.2.2.1⟩
        rw [if_neg dropping, same, or_iff_left never]

/-- The operation with other values of the two members. -/
def withMembers (op : NameOperation) (inputCount networkFee : Int) : NameOperation :=
  { op with inputCount := inputCount, networkFee := networkFee }

/-- Whether an input is accepted does not depend on them. -/
theorem input_withMembers {coin : Output} {count inputCount networkFee : Int} {named : Bool}
    (done : op.input prim coin count = .ok (op', named)) :
    ∃ inputCount' networkFee', (op.withMembers inputCount networkFee).input prim coin count =
      .ok (op'.withMembers inputCount' networkFee', named) := by
  unfold input at done ⊢
  dsimp only at done ⊢
  rw [show (op.withMembers inputCount networkFee).ignoreRules = op.ignoreRules from rfl,
    show (op.withMembers inputCount networkFee).allowOverwrite = op.allowOverwrite from rfl]
  split at done
  · rename_i nothing
    obtain ⟨rfl, rfl⟩ := Prod.mk.inj (Except.ok.inj done)
    exact ⟨_, _, if_pos nothing⟩
  · rename_i filled
    rw [if_neg filled]
    split at done
    · rename_i other
      obtain ⟨rfl, rfl⟩ := Prod.mk.inj (Except.ok.inj done)
      exact ⟨_, _, if_pos other⟩
    · rename_i script
      rw [if_neg script]
      split at done
      · cases done
      · rename_i allowed
        rw [if_neg allowed]
        obtain ⟨rfl, rfl⟩ := Prod.mk.inj (Except.ok.inj done)
        cases (prim.evalInput op.ignoreRules (prim.getDropped coin.script)).isNameNew with
        | true => exact ⟨count, networkFee, rfl⟩
        | false => exact ⟨inputCount, networkFee, rfl⟩

/-- Whether an output is accepted does not depend on them. -/
theorem output_withMembers {out : Output} {inputCount networkFee : Int} {named : Bool}
    (done : op.output prim out = .ok (op', named)) :
    ∃ inputCount' networkFee', (op.withMembers inputCount networkFee).output prim out =
      .ok (op'.withMembers inputCount' networkFee', named) := by
  unfold output at done ⊢
  dsimp only at done ⊢
  rw [show (op.withMembers inputCount networkFee).ignoreRules = op.ignoreRules from rfl,
    show (op.withMembers inputCount networkFee).nameIn = op.nameIn from rfl,
    show (op.withMembers inputCount networkFee).nameOut = op.nameOut from rfl]
  split at done
  · rename_i fee
    obtain ⟨rfl, rfl⟩ := Prod.mk.inj (Except.ok.inj done)
    exact ⟨_, _, if_pos fee⟩
  · rename_i other
    rw [if_neg other]
    split at done
    · rename_i first
      rw [if_pos first]
      split at done
      · cases done
      · rename_i eval _
        split at done
        · rename_i plain
          obtain ⟨rfl, rfl⟩ := Prod.mk.inj (Except.ok.inj done)
          exact ⟨_, _, if_pos plain⟩
        · rename_i script
          rw [if_neg script]
          split at done
          · rename_i ignored
            obtain ⟨rfl, rfl⟩ := Prod.mk.inj (Except.ok.inj done)
            exact ⟨_, _, if_pos ignored⟩
          · rename_i counts
            rw [if_neg counts]
            obtain ⟨rfl, rfl⟩ := Prod.mk.inj (Except.ok.inj done)
            cases eval.isFirstUpdate with
            | true => exact ⟨inputCount, networkFee, rfl⟩
            | false => exact ⟨inputCount, networkFee, rfl⟩
    · rename_i later
      obtain ⟨rfl, rfl⟩ := Prod.mk.inj (Except.ok.inj done)
      exact ⟨_, _, if_neg later⟩

theorem inputs_withMembers (coins : List (Output × Int)) {inputCount networkFee : Int}
    (done : op.inputs prim coins = .ok op') :
    ∃ inputCount' networkFee', (op.withMembers inputCount networkFee).inputs prim coins =
      .ok (op'.withMembers inputCount' networkFee') := by
  induction coins generalizing op inputCount networkFee with
  | nil =>
    obtain rfl := Except.ok.inj done
    exact ⟨_, _, rfl⟩
  | cons entry coins ih =>
    obtain ⟨coin, count⟩ := entry
    obtain ⟨⟨op₁, named⟩, first, later⟩ := Exec.bind_eq_ok.mp done
    obtain ⟨inputCount₁, networkFee₁, first'⟩ := @input_withMembers _ _ _ coin count inputCount networkFee _ first
    obtain ⟨inputCount', networkFee', later'⟩ := @ih _ inputCount₁ networkFee₁ later
    exact ⟨inputCount', networkFee', Exec.bind_eq_ok.mpr ⟨_, first', later'⟩⟩

theorem outputs_withMembers (outs : List Output) {inputCount networkFee : Int}
    (done : op.outputs prim outs = .ok op') :
    ∃ inputCount' networkFee', (op.withMembers inputCount networkFee).outputs prim outs =
      .ok (op'.withMembers inputCount' networkFee') := by
  induction outs generalizing op inputCount networkFee with
  | nil =>
    obtain rfl := Except.ok.inj done
    exact ⟨_, _, rfl⟩
  | cons out outs ih =>
    obtain ⟨⟨op₁, named⟩, first, later⟩ := Exec.bind_eq_ok.mp done
    obtain ⟨inputCount₁, networkFee₁, first'⟩ := @output_withMembers _ _ _ out inputCount networkFee _ first
    obtain ⟨inputCount', networkFee', later'⟩ := @ih _ inputCount₁ networkFee₁ later
    exact ⟨inputCount', networkFee', Exec.bind_eq_ok.mpr ⟨_, first', later'⟩⟩

end Members

/-! ### The two rules -/

section FeesAndCounts

variable {prim : Primitives} {ignoreRules : Bool} {coins : List (Output × Int)} {outs : List Output}
  {op : NameOperation}
  {inputCount networkFee minFee : Int}

/-- The members after a transaction. -/
theorem feed_spec (range : InRange64 networkFee)
    (done : feed prim (constructed prim ignoreRules inputCount networkFee) coins outs = .ok op) :
    op.inputCount = (lastNameNew prim ignoreRules coins).getD inputCount ∧
      op.networkFee = wrap64 (networkFee + networkFees outs) ∧
        (op.requiresNetworkFee = true ↔ FirstUpdate prim ignoreRules coins outs) := by
  obtain ⟨op₁, shown, later⟩ := Exec.bind_eq_ok.mp done
  have members := inputs_spec coins shown
  obtain ⟨count, fee, requires⟩ := outputs_spec outs (by rw [members]; exact range) later
  rw [members] at count fee requires
  refine ⟨count, fee, requires.trans ?_⟩
  show false = true ∨ ([] : Script) = [] ∧ _ ↔ _
  rw [or_iff_right Bool.false_ne_true, and_iff_right rfl]
  rfl

/-- A transaction that is accepted with some values of the members is accepted with all. -/
theorem feed_constructed (accepted : ∃ op, feed prim (constructed prim ignoreRules 0 0) coins outs = .ok op)
    (inputCount networkFee : Int) :
    ∃ op, feed prim (constructed prim ignoreRules inputCount networkFee) coins outs = .ok op := by
  obtain ⟨op, done⟩ := accepted
  obtain ⟨op₁, shown, later⟩ := Exec.bind_eq_ok.mp done
  obtain ⟨inputCount₁, networkFee₁, shown'⟩ := @inputs_withMembers _ _ _ coins inputCount networkFee shown
  obtain ⟨inputCount', networkFee', later'⟩ := @outputs_withMembers _ _ _ outs inputCount₁ networkFee₁ later
  exact ⟨_, Exec.bind_eq_ok.mpr ⟨_, shown', later'⟩⟩

/-- `check_fees` throws for a fee that is required and too small. -/
theorem checkFees_error : op.checkFees minFee ≠ .ok () ↔ op.requiresNetworkFee = true ∧ op.networkFee < minFee := by
  unfold checkFees
  split
  · exact iff_of_true nofun ‹_›
  · exact iff_of_false (not_not.mpr rfl) ‹_›

/-- Whatever the members were, `check_fees` throws for a first update that pays too little. -/
def FeeRule (prim : Primitives) (ignoreRules : Bool) (coins : List (Output × Int)) (outs : List Output) (minFee : Int) :
    Prop :=
  ∀ inputCount networkFee op, InRange32 inputCount → InRange64 networkFee →
    feed prim (constructed prim ignoreRules inputCount networkFee) coins outs = .ok op →
      (op.checkFees minFee ≠ .ok () ↔ FirstUpdate prim ignoreRules coins outs ∧ networkFees outs < minFee)

/-- Whatever the members were, `input_count` is the same, and that of the last `OP_NAME_NEW` if there is one. -/
def CountRule (prim : Primitives) (ignoreRules : Bool) (coins : List (Output × Int)) (outs : List Output) : Prop :=
  ∃ count, (∀ count' ∈ lastNameNew prim ignoreRules coins, count = count') ∧
    ∀ inputCount networkFee op, InRange32 inputCount → InRange64 networkFee →
      feed prim (constructed prim ignoreRules inputCount networkFee) coins outs = .ok op → op.inputCount = count

theorem feeRule_of_accepted (accepted : ∃ op, feed prim (constructed prim ignoreRules 0 0) coins outs = .ok op)
    (range : InRange64 minFee) :
    FeeRule prim ignoreRules coins outs minFee ↔
      (FirstUpdate prim ignoreRules coins outs → minFee = -2 ^ 63 ∧ -2 ^ 63 ≤ networkFees outs) := by
  obtain ⟨low, high⟩ := range
  constructor
  · intro rule first
    -- every value of the member is possible after the outputs
    have any {fee : Int} (range : InRange64 fee) : fee < minFee ↔ networkFees outs < minFee := by
      have range' : InRange64 (wrap64 (fee - networkFees outs)) := (wrap64_spec _).2
      obtain ⟨op, done⟩ := feed_constructed accepted 0 (wrap64 (fee - networkFees outs))
      obtain ⟨-, paid, requires⟩ := feed_spec range' done
      rw [wrap64_add, sub_add_cancel, wrap64_of_range range.1 range.2] at paid
      have thrown := rule 0 _ op (by decide) range' done
      rw [checkFees_error, paid, requires, and_iff_right first, and_iff_right first] at thrown
      exact thrown
    have enough : ¬networkFees outs < minFee := fun less => lt_irrefl _ ((any ⟨low, high⟩).mpr less)
    have lowest : minFee = -2 ^ 63 := by
      by_contra above
      exact enough ((@any (minFee - 1) ⟨by omega, by omega⟩).mp (by omega))
    exact ⟨lowest, by omega⟩
  · intro lowest inputCount networkFee op _ range done
    obtain ⟨-, paid, requires⟩ := feed_spec range done
    rw [checkFees_error, requires]
    refine and_congr_right fun first => ?_
    obtain ⟨rfl, enough⟩ := lowest first
    have atLeast := (wrap64_spec (networkFee + networkFees outs)).2.1
    rw [paid]
    exact iff_of_false (not_lt.mpr atLeast) (not_lt.mpr enough)

theorem countRule_of_accepted (accepted : ∃ op, feed prim (constructed prim ignoreRules 0 0) coins outs = .ok op) :
    CountRule prim ignoreRules coins outs ↔ lastNameNew prim ignoreRules coins ≠ none := by
  constructor
  · rintro ⟨count, -, same⟩ unset
    have shown (inputCount : Int) (range : InRange32 inputCount) : inputCount = count := by
      obtain ⟨op, done⟩ := feed_constructed accepted inputCount 0
      have members := (feed_spec (by decide) done).1
      rw [unset] at members
      exact members.symm.trans (same inputCount 0 op range (by decide) done)
    exact absurd ((shown 0 (by decide)).trans (shown 1 (by decide)).symm) (by decide)
  · intro filled
    obtain ⟨count, last⟩ := Option.ne_none_iff_exists'.mp filled
    refine ⟨count, fun count' shown => Option.some.inj (last.symm.trans shown), ?_⟩
    intro inputCount networkFee op _ range done
    rw [(feed_spec range done).1, last]
    rfl

/-- **The rules hold exactly where a coin with an `OP_NAME_NEW` is spent and no name is reserved**, or where no fee can
be below the least one. -/
theorem feeRule_iff (prim : Primitives) (hashers : Hashers) (ignoreRules : Bool) (coins : List (Output × Int))
    (outs : List Output) (minFee : Int)
    (accepted : ∃ op, feed (prim.withNames hashers) (constructed (prim.withNames hashers) ignoreRules 0 0) coins outs =
      .ok op) (range : InRange64 minFee) :
    FeeRule (prim.withNames hashers) ignoreRules coins outs minFee ∧
        CountRule (prim.withNames hashers) ignoreRules coins outs ↔
      (FirstUpdate (prim.withNames hashers) ignoreRules coins outs →
        minFee = -2 ^ 63 ∧ -2 ^ 63 ≤ networkFees outs) ∧
        lastNameNew (prim.withNames hashers) ignoreRules coins ≠ none :=
  and_congr (feeRule_of_accepted accepted range) (countRule_of_accepted accepted)

end FeesAndCounts

/-- A reservation that is spent to an address. -/
theorem feeRule_spent :
    FeeRule (Small.prim.withNames Small.hashers) false
        [(⟨100, (NameForm.nameNew (List.replicate 20 7)).script ++ Small.address⟩, 7)] [⟨100, Small.address⟩] 1 ∧
      CountRule (Small.prim.withNames Small.hashers) false
        [(⟨100, (NameForm.nameNew (List.replicate 20 7)).script ++ Small.address⟩, 7)] [⟨100, Small.address⟩] := by
  have unset : firstNameOut (Small.prim.withNames Small.hashers) [⟨100, Small.address⟩] = none := by decide +kernel
  have shown : ((feed (Small.prim.withNames Small.hashers) (constructed (Small.prim.withNames Small.hashers) false 0 0)
    [(⟨100, (NameForm.nameNew (List.replicate 20 7)).script ++ Small.address⟩, 7)]
      [⟨100, Small.address⟩]).toOption).isSome = true := by decide +kernel
  obtain ⟨op, done⟩ := Option.isSome_iff_exists.mp shown
  refine (feeRule_iff Small.prim Small.hashers false _ _ 1 ⟨op, Exec.toOption_eq_some.mp done⟩ (by decide)).mpr
    ⟨?_, by decide +kernel⟩
  rintro ⟨nameOut, first, -⟩
  cases unset.symm.trans first

/-- A first update without a fee, where the members happen to be zero or one, and an update. -/
theorem feeRule_indeterminate :
    (¬FeeRule (Small.prim.withNames Small.hashers) false
        [(⟨100, (NameForm.nameNew (Small.hashers.hash160 [200, 100])).script ++ Small.address⟩, 7)]
        [⟨100, (NameForm.firstUpdate [100] [200] [50]).script ++ Small.address⟩] 1) ∧
      ¬CountRule (Small.prim.withNames Small.hashers) false
        [(⟨100, (NameForm.update [100] [50]).script ++ Small.address⟩, 7)]
        [⟨100, (NameForm.update [100] [51]).script ++ Small.address⟩] := by
  constructor
  · intro rule
    have shown (fee : Int) (small : fee = 0 ∨ fee = 1) : ((feed (Small.prim.withNames Small.hashers)
        (constructed (Small.prim.withNames Small.hashers) false 0 fee)
        [(⟨100, (NameForm.nameNew (Small.hashers.hash160 [200, 100])).script ++ Small.address⟩, 7)]
        [⟨100, (NameForm.firstUpdate [100] [200] [50]).script ++ Small.address⟩]).toOption.map fun op =>
          (op.requiresNetworkFee, op.networkFee)) = some (true, fee) := by
      rcases small with rfl | rfl <;> decide +kernel
    have thrown (fee : Int) (small : fee = 0 ∨ fee = 1) : fee < 1 ↔ FirstUpdate (Small.prim.withNames Small.hashers)
        false [(⟨100, (NameForm.nameNew (Small.hashers.hash160 [200, 100])).script ++ Small.address⟩, 7)]
        [⟨100, (NameForm.firstUpdate [100] [200] [50]).script ++ Small.address⟩] ∧ networkFees
          [⟨100, (NameForm.firstUpdate [100] [200] [50]).script ++ Small.address⟩] < 1 := by
      obtain ⟨op, done, members⟩ := Option.map_eq_some_iff.mp (shown fee small)
      obtain ⟨required, paid⟩ := Prod.mk.inj members
      have range : InRange64 fee := by rcases small with rfl | rfl <;> decide
      rw [← rule 0 fee op (by decide) range (Exec.toOption_eq_some.mp done), checkFees_error, paid,
        and_iff_right required]
    have both := (thrown 0 (.inl rfl)).mp (by decide)
    exact absurd ((thrown 1 (.inr rfl)).mpr both) (by decide)
  · rintro ⟨count, -, same⟩
    have shown (inputCount : Int) (small : inputCount = 0 ∨ inputCount = 1) : inputCount = count := by
      have members : ((feed (Small.prim.withNames Small.hashers)
          (constructed (Small.prim.withNames Small.hashers) false inputCount 0)
          [(⟨100, (NameForm.update [100] [50]).script ++ Small.address⟩, 7)]
          [⟨100, (NameForm.update [100] [51]).script ++ Small.address⟩]).toOption.map NameOperation.inputCount) =
            some inputCount := by
        rcases small with rfl | rfl <;> decide +kernel
      obtain ⟨op, done, member⟩ := Option.map_eq_some_iff.mp members
      have range : InRange32 inputCount := by rcases small with rfl | rfl <;> decide
      exact member.symm.trans (same inputCount 0 op range (by decide) (Exec.toOption_eq_some.mp done))
    exact absurd ((shown 0 (.inl rfl)).trans (shown 1 (.inr rfl)).symm) (by decide)

end NameOperation

end Libcoin
