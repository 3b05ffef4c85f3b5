/-
Which output scripts `NameOperation::output` accepts only as legal transitions.

* `dropScript` is a script that drops given values, so that an input can leave any of them.
* `output_legal_iff`: the legal outputs are those of `SafeOutput`. For every other output that drops something
  there is an input on which it is accepted, and neither a first update nor an update of that input.
-/

import Libcoin.Ledger.Attach
import Libcoin.Script.NameRules

namespace Libcoin

open Evaluator Script

section Drops

variable {hashers : Hashers} {values : List Data}

/-! ### A script that drops given values -/

/-- Pushes of the values, the last one first, and drops for all of them. -/
def dropScript (values : List Data) : Script :=
  values.reverse.flatMap pushData ++ (List.replicate (values.length / 2) 109 ++
    List.replicate (values.length % 2) 117)

theorem loop_pairDrops (pairs : Nat) (rest : Script) (s : Evaluator (List Data))
    (enough : 2 * pairs ≤ s.stack.length)
    (idle : s.execStack = []) (few : s.opCount + pairs ≤ 201) (room : s.stack.length + s.altStack.length ≤ 1000) :
    loop (dropEval hashers) (ops (List.replicate pairs 109 ++ rest)) s =
      loop (dropEval hashers) (ops rest)
        { s with
          stack := s.stack.drop (2 * pairs)
          own := s.own ++ s.stack.take (2 * pairs)
          opCount := s.opCount + pairs } := by
  induction pairs generalizing s with
  | zero =>
    show loop (dropEval hashers) (ops rest) s = loop _ _ { s with own := s.own ++ [] }
    rw [List.append_nil]
  | succ pairs ih =>
    rw [List.replicate_succ, List.cons_append, loop_pairDrop _ s (by omega) idle (by omega) room]
    have further := ih
      { s with stack := s.stack.drop 2, own := s.own ++ s.stack.take 2, opCount := s.opCount + 1 }
      (by
        show _ ≤ (s.stack.drop 2).length
        rw [List.length_drop]
        omega)
      idle (by
        show s.opCount + 1 + pairs ≤ 201
        omega)
      (by
        show (s.stack.drop 2).length + s.altStack.length ≤ 1000
        rw [List.length_drop]
        omega)
    rw [further]
    dsimp only
    rw [List.drop_drop, List.append_assoc, ← List.take_add, show 2 + 2 * pairs = 2 * (pairs + 1) by ring,
      show s.opCount + 1 + pairs = s.opCount + (pairs + 1) by ring]

theorem dropScript_length (short : ∀ value ∈ values, value.length ≤ 520) :
    (dropScript values).length ≤ 526 * values.length := by
  have pushes (values : List Data) (short : ∀ value ∈ values, value.length ≤ 520) :
      (values.flatMap pushData).length ≤ 525 * values.length := by
    induction values with
    | nil => exact le_rfl
    | cons value values ih =>
      have size := short value List.mem_cons_self
      have first := Script.pushData_length value
      have rest := ih fun value inside => short value (List.mem_cons_of_mem _ inside)
      rw [List.flatMap_cons, List.length_append, List.length_cons]
      omega
  have most := pushes values.reverse fun value inside => short value (List.mem_reverse.mp inside)
  rw [List.length_reverse] at most
  unfold dropScript
  rw [List.length_append, List.length_append, List.length_replicate, List.length_replicate]
  omega

/-- The script drops the values. -/
theorem droppedValues_dropScript (short : ∀ value ∈ values, value.length ≤ 520) (few : values.length ≤ 19) :
    droppedValues hashers (dropScript values) = values := by
  have size := dropScript_length short
  have pushed (rest : Script) := @loop_pushes _ (dropEval hashers) values.reverse
    (fun value inside => short value (List.mem_reverse.mp inside)) rest (Evaluator.new []) rfl (by
      rw [List.length_reverse]
      show 0 + 0 + values.length ≤ 1000
      omega)
  simp only [List.reverse_reverse, show (Evaluator.new ([] : List Data)).stack = [] from rfl,
    List.append_nil] at pushed
  have drops (rest : Script) := @loop_pairDrops hashers (values.length / 2) rest
    { Evaluator.new [] with stack := values } (by
      show _ ≤ values.length
      omega) rfl (by
      show 0 + _ ≤ 201
      omega) (by
      show values.length + 0 ≤ 1000
      omega)
  have halves := List.take_append_drop (2 * (values.length / 2)) values
  unfold droppedValues Evaluator.run
  rw [if_neg (by omega)]
  show (loop (dropEval hashers) (ops (dropScript values)) (Evaluator.new [])).2.own = values
  unfold dropScript
  rw [pushed, drops]
  rcases Nat.mod_two_eq_zero_or_one values.length with even | odd
  · rw [even]
    show [] ++ values.take (2 * (values.length / 2)) = values
    rw [List.nil_append, List.take_of_length_le (by omega)]
  · rw [odd, List.replicate_one, loop_lastDrop]
    · exact halves
    · show (values.drop (2 * (values.length / 2))).length = 1
      rw [List.length_drop]
      omega
    · rfl
    · show 0 + values.length / 2 < 201
      omega
    · exact Nat.zero_le 1000

end Drops

section Others

variable {hashers : Hashers} {prim : Primitives}

/-! ### What else is accepted -/

theorem dropped_ne_nil {values : List Data} (drops : values ≠ []) : dropped values ≠ [] := by
  obtain ⟨value, values, rfl⟩ := List.exists_cons_of_ne_nil drops
  have first : writeDropped value ≠ [] := by
    unfold writeDropped
    split
    · rename_i small
      obtain ⟨positive, low, one⟩ := small_bounds small
      unfold pushInt
      rw [if_pos (by omega)]
      exact List.cons_ne_nil _ _
    · unfold pushData
      split_ifs <;> simp
  rw [dropped, List.flatMap_cons]
  exact List.append_ne_nil_of_left_ne_nil first _

/-- A name script among the inputs is kept. -/
theorem inputs_name {coin : Output} (given : Script.getDropped hashers coin.script ≠ [])
    (named : NameEvaluator.wasNameScript (Evaluator.run (nameEval hashers) (Script.getDropped hashers coin.script)
      (NameEvaluator.new false)).2 = true) :
    ∃ op, (NameOperation.new prim false).inputs (prim.withNames hashers) [(coin, 0)] = .ok op ∧
      op.nameIn = Script.getDropped hashers coin.script ∧ op.nameOut = [] ∧ op.ignoreRules = false := by
  have some : ((prim.withNames hashers).getDropped coin.script).isEmpty = false := by
    show (Script.getDropped hashers coin.script).isEmpty = false
    simpa using given
  have flag : ((prim.withNames hashers).evalInput false
      ((prim.withNames hashers).getDropped coin.script)).isNameScript = true := named
  have input : ∃ op shown, (NameOperation.new prim false).input (prim.withNames hashers) coin 0 = .ok (op,
    shown) ∧
      op.nameIn = Script.getDropped hashers coin.script ∧ op.nameOut = [] ∧ op.ignoreRules = false := by
    unfold NameOperation.input
    rw [show (NameOperation.new prim false).ignoreRules = false from rfl]
    dsimp only
    rw [some, flag, if_neg Bool.false_ne_true, if_neg (by decide), if_neg (by simp [NameOperation.new])]
    refine ⟨_, _, rfl, ?_⟩
    split <;> exact ⟨rfl, rfl, rfl⟩
  obtain ⟨op, shown, done, kept⟩ := input
  refine ⟨op, ?_, kept⟩
  rw [NameOperation.inputs, done]
  rfl

/-- One input that drops some values, on which the output is evaluated. -/
theorem accepted_after {values : List Data} {s s' : NameEvaluator} {out : Output}
    (short : ∀ value ∈ values, value.length ≤ 520) (few : values.length ≤ 19)
    (evaluated : nameLoop hashers values (NameEvaluator.new false) = (true, s)) (named : s.wasNameScript = true)
    (some : s.stack ≠ []) (drops : droppedValues hashers out.script ≠ [])
    (fits : (Script.getDropped hashers out.script).length ≤ 10000)
    (accepted : nameLoop hashers (droppedValues hashers out.script) { s with opCount := 0 } = (true, s'))
    (named' : s'.own.nameScript = true) (many : 2 ≤ s'.stack.length) :
    ∃ op op', (NameOperation.new prim false).inputs (prim.withNames hashers) [(⟨0, dropScript values⟩, 0)] =
      .ok op ∧
      op.output (prim.withNames hashers) out = .ok (op', true) := by
  have alike : Alike (NameEvaluator.new false) s := by
    have kept := @nameLoop_alike hashers values (NameEvaluator.new false)
    rwa [evaluated] at kept
  have same : Script.getDropped hashers (dropScript values) = dropped values := by
    unfold Script.getDropped
    rw [droppedValues_dropScript short few]
  have run : Evaluator.run (nameEval hashers) (Script.getDropped hashers (dropScript values))
      (NameEvaluator.new false) = (true, s) := by
    refine (run_getDropped rfl).mpr ⟨?_, ?_⟩
    · rw [same]
      have size := NameForm.dropped_length short
      omega
    · rw [droppedValues_dropScript short few]
      exact evaluated
  have given : Script.getDropped hashers (dropScript values) ≠ [] := by
    intro empty
    rw [empty] at run
    have start : s = NameEvaluator.new false := (Prod.mk.inj run).2.symm
    rw [start] at named
    cases named
  have pays : out.script ≠ opReturn := by
    intro fee
    rw [fee] at drops
    exact drops rfl
  obtain ⟨op, inputs, nameIn, nameOut, rules⟩ := @inputs_name hashers prim ⟨0, dropScript values⟩ given (by
    show NameEvaluator.wasNameScript (Evaluator.run _ _ _).2 = true
    rw [run]
    exact named)
  obtain ⟨op', output⟩ := (@output_true_iff hashers prim op out nameOut).mpr
    ⟨pays, dropped_ne_nil drops, by rw [nameIn]; exact given, s, s', by rw [nameIn, rules]; exact run, some,
      (run_getDropped alike.execStack).mpr ⟨fits, accepted⟩, List.ne_nil_of_length_pos (by omega), named',
        by omega⟩
  exact ⟨op, op', inputs, output⟩

/-- After an update the name and the value are on the stack, and what is pushed then. -/
theorem nameLoop_update {name old : Data} {pads : List Data}
    (large : ∀ value ∈ [old, name] ++ pads, isSmall value = false)
    (short : ∀ value ∈ [old, name] ++ pads, value.length ≤ 520) (few : pads.length ≤ 2) :
    nameLoop hashers ([old, name, [3]] ++ pads) (NameEvaluator.new false) =
      (true, { (NameEvaluator.new false).named with stack := pads.reverse ++ [name, old] }) := by
  have front := @NameForm.nameLoop_large hashers [old, name]
    (fun value inside => large value (List.mem_append_left _ inside))
    (fun value inside => short value (List.mem_append_left _ inside)) ([3] :: pads)
      (NameEvaluator.new false) (show 0 + 0 + 2 ≤ 1000 by decide)
  have back := @NameForm.nameLoop_large hashers pads
    (fun value inside => large value (List.mem_append_right _ inside))
    (fun value inside => short value (List.mem_append_right _ inside)) []
    { (NameEvaluator.new false).named with stack := [name, old] } (by
      show 2 + 0 + pads.length ≤ 1000
      omega)
  have turn : nameTurn hashers [3] { NameEvaluator.new false with stack := [name, old] } =
      .next { (NameEvaluator.new false).named with stack := [name, old] } := rfl
  rw [List.append_nil] at back
  exact front.trans ((nameLoop_next (by decide) turn (by decide : 2 + 0 ≤ 1000)).trans back)

/-- A first update with the values of an input under its own. -/
theorem nameEval_firstUpdate {s : NameEvaluator} {name rand value hash : Data}
    (on : s.stack = [name, rand, value, hash]) (same : toUint160 hash = hashers.hash160 (rand ++ name)) :
    nameEval hashers 82 s = .done true { s.named with stack := [name, value, hash] } := by
  show NameEvaluator.evalFirstUpdate hashers s.named = _
  unfold NameEvaluator.evalFirstUpdate
  rw [show s.named.stack = [name, rand, value, hash] from on]
  exact if_pos same

/-- An update with the values of an input under its own. -/
theorem nameEval_update {s : NameEvaluator} {name value old : Data} (on : s.stack = [name, value, name, old]) :
    nameEval hashers 83 s = .done true { s.named with stack := [name, value] } := by
  show NameEvaluator.evalUpdate s.named = _
  unfold NameEvaluator.evalUpdate
  rw [show s.named.stack = [name, value, name, old] from on]
  exact if_neg fun different => different.1 rfl

theorem LegalTransition.reading {coins : List Output} {script : Script}
    (legal : LegalTransition hashers coins script) :
    ∃ number args rest, reading (droppedValues hashers script) [] = .op number args rest ∧
      (number = 2 ∧ args.length = 3 ∨ number = 3 ∧ args.length = 2) := by
  rcases legal with ⟨name, rand, value, ⟨rest, read⟩, -⟩ | ⟨name, value, ⟨rest, read⟩, -⟩
  · exact ⟨2, _, rest, read, .inl ⟨rfl, rfl⟩⟩
  · exact ⟨3, _, rest, read, .inr ⟨rfl, rfl⟩⟩

/-- Empty values in the place of those that an output does not give. -/
theorem exists_pads {args : List Data} (few : args.length ≤ 2) :
    ∃ name value pads, args ++ pads = [name, value] ∧ (∀ pad ∈ pads, pad = []) ∧ pads.length ≤ 2 ∧
      (name = [] ∨ name ∈ args) := by
  match args, few with
  | [], _ => exact ⟨[], [], [[], []], rfl, by simp, le_rfl, .inl rfl⟩
  | [name], _ => exact ⟨name, [], [[]], rfl, by simp, by decide, .inr List.mem_cons_self⟩
  | [name, value], _ => exact ⟨name, value, [], rfl, by simp, by decide, .inr List.mem_cons_self⟩
  | _ :: _ :: _ :: _, few =>
    simp only [List.length_cons] at few
    omega

/-- An output that is not safe is accepted on some input, and makes no legal transition. -/
theorem accepted_of_not_safe {out : Output} (other : ¬SafeOutput hashers out.script) :
    ∃ coins op op', (NameOperation.new prim false).inputs (prim.withNames hashers) coins = .ok op ∧
      op.output (prim.withNames hashers) out = .ok (op', true) ∧
      ¬LegalTransition hashers (coins.map Prod.fst) out.script := by
  obtain ⟨drops, other⟩ := not_or.mp other
  obtain ⟨fits, incomplete⟩ := not_or.mp other
  have fits := Nat.not_lt.mp fits
  obtain ⟨shortOut, fewOut⟩ := @droppedValues_bounds hashers out.script
  -- the loop over the output, on the values that an input left
  have started (base : List Data) (few : base.length ≤ 4) :=
    @nameLoop_reading hashers _ shortOut { (NameEvaluator.new false).named with stack := base } [] base rfl (by
      show base.length + 0 + _ ≤ 1000
      omega)
  have updated {old name : Data} {pads : List Data} (large : isSmall old = false ∧ old.length ≤ 520)
      (large' : isSmall name = false ∧ name.length ≤ 520) (empty : ∀ pad ∈ pads, pad = []) (few : pads.length ≤ 2)
      {s' : NameEvaluator} (named : s'.own.nameScript = true) (many : 2 ≤ s'.stack.length)
      (illegal : ∀ coins, ¬LegalTransition hashers coins out.script)
      (accepted : nameLoop hashers (droppedValues hashers out.script)
        { (NameEvaluator.new false).named with stack := pads ++ [name, old] } = (true, s')) :
      ∃ coins op op', (NameOperation.new prim false).inputs (prim.withNames hashers) coins = .ok op ∧
        op.output (prim.withNames hashers) out = .ok (op', true) ∧
        ¬LegalTransition hashers (coins.map Prod.fst) out.script := by
    have all : ∀ value ∈ [old, name] ++ pads.reverse, isSmall value = false ∧ value.length ≤ 520 := by
      intro value inside
      rcases List.mem_append.mp inside with front | pad
      · simp only [List.mem_cons, List.not_mem_nil, or_false] at front
        rcases front with rfl | rfl
        · exact large
        · exact large'
      · rw [empty value (List.mem_reverse.mp pad)]
        exact ⟨rfl, Nat.zero_le _⟩
    have left := @nameLoop_update hashers name old pads.reverse (fun value inside => (all value inside).1)
      (fun value inside => (all value inside).2) (by rwa [List.length_reverse])
    rw [List.reverse_reverse] at left
    obtain ⟨op, op', inputs, output⟩ := @accepted_after hashers prim _ _ s' out (fun value inside => by
        have front : value ∈ [old, name] ++ pads.reverse ∨ value = [3] := by
          simp only [List.mem_append, List.mem_cons, List.not_mem_nil, or_false] at inside ⊢
          tauto
        rcases front with given | rfl
        · exact (all value given).2
        · decide) (by
        rw [List.length_append, List.length_reverse]
        show 3 + pads.length ≤ 19
        omega) left rfl (List.append_ne_nil_of_right_ne_nil _
          (List.cons_ne_nil _ _)) drops fits accepted named many
    exact ⟨_, op, op', inputs, output, illegal _⟩
  have nothing : isSmall ([] : Data) = false ∧ ([] : Data).length ≤ 520 := ⟨rfl, Nat.zero_le _⟩
  cases read : reading (droppedValues hashers out.script) [] with
  | none args =>
    have loop := started [[], []] (by decide)
    rw [read] at loop
    refine @updated [] [] [] nothing nothing (by simp) (by decide) _ rfl ?_ ?_ loop
    · show 2 ≤ (args ++ [[], []]).length
      rw [List.length_append]
      exact Nat.le_add_left _ _
    · intro coins legal
      obtain ⟨number, args', rest, op, -⟩ := legal.reading
      rw [read] at op
      cases op
  | op number args rest =>
    obtain ⟨known, all, -⟩ := reading_op read
    have large : ∀ arg ∈ args, isSmall arg = false ∧ arg.length ≤ 520 := by
      intro arg inside
      rcases all arg inside with nowhere | ⟨here, large⟩
      · cases nowhere
      · exact ⟨large, shortOut arg here⟩
    rw [read] at incomplete
    have illegal (wrong : ¬(number = 2 ∧ args.length = 3 ∨ number = 3 ∧ args.length = 2)) (coins : List Output) :
        ¬LegalTransition hashers coins out.script := by
      intro legal
      obtain ⟨number', args', rest', op, shape⟩ := legal.reading
      rw [read] at op
      cases op
      exact wrong shape
    rcases known with rfl | rfl | rfl
    · exact absurd (show (Reading.op 1 args rest).Complete from ⟨nofun, nofun⟩) incomplete
    · have few : args.length ≤ 2 := by
        by_contra many
        exact incomplete ⟨fun _ => by omega, nofun⟩
      obtain ⟨name, rand, pads, filled, empty, count, -⟩ := exists_pads few
      have size := hashers.hash160_length (rand ++ name)
      have hash : isSmall (hashers.hash160 (rand ++ name)) = false := by
        by_contra small
        have bounds := small_bounds (Bool.not_eq_false _ ▸ small)
        omega
      have loop := started (pads ++ [[], hashers.hash160 (rand ++ name)]) (by
        rw [List.length_append]
        show pads.length + 2 ≤ 4
        omega)
      rw [read] at loop
      dsimp only at loop
      rw [← List.append_assoc, filled] at loop
      have same : toUint160 (hashers.hash160 (rand ++ name)) = hashers.hash160 (rand ++ name) := by
        rw [toUint160, if_pos size]
      rw [show 80 + 2 = 82 from rfl, nameEval_firstUpdate rfl same] at loop
      exact updated ⟨hash, by omega⟩ nothing empty count rfl (by exact Nat.le_succ 2) (illegal (by omega)) loop
    · by_cases few : args.length ≤ 1
      · obtain ⟨name, value, pads, filled, empty, count, own⟩ := exists_pads (few.trans one_le_two)
        have given : isSmall name = false ∧ name.length ≤ 520 :=
          own.elim (fun none => none ▸ nothing) (large name)
        have loop := started (pads ++ [name, []]) (by
          rw [List.length_append]
          show pads.length + 2 ≤ 4
          omega)
        rw [read] at loop
        dsimp only at loop
        rw [← List.append_assoc, filled, show 80 + 3 = 83 from rfl, nameEval_update rfl] at loop
        exact updated nothing given empty count rfl le_rfl (illegal (by omega)) loop
      -- three values, the first of them below the last
      · obtain ⟨name, value, rfl⟩ : ∃ name value, args = [name, value, name] := by
          match args, incomplete, few with
          | [], _, few => exact absurd (Nat.zero_le 1) few
          | [_], _, few => exact absurd le_rfl few
          | [_, _], incomplete, _ => exact absurd ⟨nofun, fun _ => .inl rfl⟩ incomplete
          | [name, value, last], incomplete, _ =>
            by_cases same : name = last
            · exact ⟨name, value, same ▸ rfl⟩
            · refine absurd ⟨nofun, fun _ => .inr (.inr ⟨rfl, ?_⟩)⟩ incomplete
              simpa using same
          | _ :: _ :: _ :: _ :: rest, incomplete, _ =>
            exact absurd ⟨nofun, fun _ => .inr (.inl (Nat.le_add_left 4 rest.length))⟩ incomplete
        have loop := started [List.replicate 20 0] (by decide)
        rw [read] at loop
        dsimp only at loop
        rw [show 80 + 3 = 83 from rfl, nameEval_update rfl] at loop
        have left : nameLoop hashers [List.replicate 20 0, [1]] (NameEvaluator.new false) =
            (true, { (NameEvaluator.new false).named with stack := [List.replicate 20 0] }) := rfl
        obtain ⟨op, op', inputs, output⟩ := @accepted_after hashers prim _ _ _ out (by decide)
          (by decide) left rfl
          (List.cons_ne_nil _ _) drops fits loop rfl le_rfl
        exact ⟨_, op, op', inputs, output, illegal (by simp) _⟩

/-- For every list of inputs and every output script: what is accepted is a first update of a name that an input
reserved or an update of an input's name, exactly for the output scripts that are safe. -/
theorem output_legal_iff (hashers : Hashers) (prim : Primitives) (out : Output) :
    (∀ coins op, (NameOperation.new prim false).inputs (prim.withNames hashers) coins = .ok op →
      ∀ op', op.output (prim.withNames hashers) out = .ok (op', true) →
        LegalTransition hashers (coins.map Prod.fst) out.script) ↔ SafeOutput hashers out.script := by
  constructor
  · intro legal
    by_contra other
    obtain ⟨coins, op, op', inputs, output, illegal⟩ := @accepted_of_not_safe hashers prim out other
    exact illegal (legal coins op inputs op' output)
  · intro safe coins op inputs op' output
    exact legal_of_safe safe coins inputs output

end Others

/-- An output that only drops `[120]`, after an update of another name: it is accepted as the first update of the
name `[120]`. -/
theorem output_illegal :
    ¬∀ coins op, (NameOperation.new Small.prim false).inputs (Small.prim.withNames Small.hashers) coins = .ok op →
      ∀ (out : Output) (op' : NameOperation), op.output (Small.prim.withNames Small.hashers) out = .ok (op',
        true) →
        LegalTransition Small.hashers (coins.map Prod.fst) out.script := by
  intro legal
  have run : (do
      let op ← (NameOperation.new Small.prim false).inputs (Small.prim.withNames Small.hashers)
        [(⟨100, (NameForm.update [100] [50]).script ++ Small.address⟩, 0)]
      let done ← op.output (Small.prim.withNames Small.hashers) ⟨100, [1, 120, 117] ++ Small.address⟩
      return (done.1.name, done.2)) = (Except.ok ([120], true) : Except Fault (Data × Bool)) := by decide +kernel
  obtain ⟨op, inputs, run⟩ := Exec.bind_eq_ok.mp run
  obtain ⟨⟨op', accepted⟩, output, shown⟩ := Exec.bind_eq_ok.mp run
  obtain rfl : accepted = true := (Prod.mk.inj (Except.ok.inj shown)).2
  obtain ⟨number, args, rest, read, -⟩ := (legal _ _ inputs _ _ output).reading
  have other : reading (droppedValues Small.hashers ([1, 120, 117] ++ Small.address)) [] = .none [[120]] := by
    decide +kernel
  rw [other] at read
  cases read

end Libcoin
