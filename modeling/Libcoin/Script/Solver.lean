/-
`Solver`: the standard forms of an output script.

* `matchTemplate` compares a script with one of the templates, and `solver` goes through them.
* `solver_pubKey`, `solver_pubKeyHash` and `solver_multiSig` say which instructions a script of each form has.
-/

import Libcoin.Script.NameScripts
import Libcoin.Script.TransactionEvaluator

namespace Libcoin

open Script

/-- `txnouttype`. -/
inductive TxnOutType
  | nonStandard
  | pubKey
  | pubKeyHash
  | scriptHash
  | multiSig
  deriving DecidableEq, Repr

/-! ### Templates -/

/-- The opcodes that stand in templates alone. -/
def opSmallInteger : Nat := 250
def opPubKeys : Nat := 251
def opPubKeyHash : Nat := 253
def opPubKey : Nat := 254

/-- `mTemplates`, in the order of the map. -/
def templates : List (TxnOutType × Script) :=
  [(.pubKey, [254, 172]), (.pubKeyHash, [118, 169, 253, 136, 172]), (.multiSig, [250, 251, 250, 174])]

def isKeySize (value : Data) : Bool := decide (33 ≤ value.length ∧ value.length ≤ 120)

/-- `decodeOP_N`. -/
def decodeOpN (opcode : Nat) : Nat := if opcode = 0 then 0 else opcode - 80

/-- The loop of `OP_PUBKEYS`: the instruction after the keys, those after it, and the solutions. At the end of the
script the instruction is an invalid one. -/
def takeKeys : List (Option (Nat × Data)) → Nat → Data → List Data →
    (Nat × Data) × List (Option (Nat × Data)) × List Data
  | some (opcode, vch) :: rest, opcode1, vch1, solutions =>
    if isKeySize vch1 then takeKeys rest opcode vch (solutions ++ [vch1])
    else ((opcode1, vch1), some (opcode, vch) :: rest, solutions)
  | rest, opcode1, vch1, solutions =>
    if isKeySize vch1 then ((255, []), rest, solutions ++ [vch1]) else ((opcode1, vch1), rest, solutions)

/-- An instruction of a script against one of a template, with the solutions after it. -/
def matchOp (opcode1 : Nat) (vch1 : Data) (opcode2 : Nat) (vch2 : Data) (solutions : List Data) :
    Option (List Data) :=
  if opcode2 = opPubKey then
    if isKeySize vch1 then some (solutions ++ [vch1]) else none
  else if opcode2 = opPubKeyHash then
    if vch1.length = 20 then some (solutions ++ [vch1]) else none
  else if opcode2 = opSmallInteger then
    if opcode1 = 0 ∨ (81 ≤ opcode1 ∧ opcode1 ≤ 96) then some (solutions ++ [[UInt8.ofNat (decodeOpN opcode1)]])
    else none
  else if opcode1 ≠ opcode2 ∨ vch1 ≠ vch2 then none
  else some solutions

/-- The loop over the instructions of a script and of a template. -/
def matchTemplate : List (Option (Nat × Data)) → List (Option (Nat × Data)) → List Data → Option (List Data)
  | [], [], solutions => some solutions
  | some (opcode1, vch1) :: rest1, some (opcode2, vch2) :: rest2, solutions =>
    if opcode2 = opPubKeys then
      let taken := takeKeys rest1 opcode1 vch1 solutions
      match rest2 with
      | some (opcode2, vch2) :: rest2 =>
        (matchOp taken.1.1 taken.1.2 opcode2 vch2 taken.2.2).bind (matchTemplate taken.2.1 rest2)
      | _ => none
    else (matchOp opcode1 vch1 opcode2 vch2 solutions).bind (matchTemplate rest1 rest2)
  | _, _, _ => none

/-- The additional checks for `TX_MULTISIG`. -/
def countsFit (solutions : List Data) : Bool :=
  let m := (solutions.headD []).headD 0
  let n := (solutions.getLastD []).headD 0
  !(decide (m < 1) || decide (n < 1) || decide (n < m) || decide (solutions.length - 2 ≠ n.toNat))

/-- The loop over the templates. -/
def scanTemplates (instructions : List (Option (Nat × Data))) :
    List (TxnOutType × Script) → Option (TxnOutType × List Data)
  | [] => none
  | (type, template) :: rest =>
    match matchTemplate instructions (ops template) [] with
    | none => scanTemplates instructions rest
    | some solutions =>
      if type = .multiSig && !countsFit solutions then none else some (type, solutions)

/-- `Solver`, with the type and the solutions of a script that it knows. -/
def solver (script : Script) : Option (TxnOutType × List Data) :=
  if script.isPayToScriptHash then some (.scriptHash, [(script.drop 2).take 20])
  else scanTemplates (ops script) templates

/-! ### Instructions -/

section Instructions

variable {script rest : Script} {opcode : Nat} {value : Data}

/-- What an operand is taken from. -/
theorem operand_cases {byte size : Nat} {pc : Script} (read : operand byte size pc = some (opcode, value, rest)) :
    opcode = byte ∧ value.length = size ∧ pc = value ++ rest := by
  unfold operand at read
  split at read
  · cases read
  · obtain ⟨rfl, split⟩ := Prod.mk.inj (Option.some.inj read)
    obtain ⟨rfl, rfl⟩ := Prod.mk.inj split
    exact ⟨rfl, List.length_take_of_le (by omega), (List.take_append_drop size pc).symm⟩

/-- An instruction is an opcode without a value, or a push with at most four bytes for the size of its value. -/
theorem getOp_cases (read : getOp script = some (opcode, value, rest)) :
    (78 < opcode → value = []) ∧ script.length ≤ rest.length + value.length + 5 ∧ rest <:+ script := by
  cases script with
  | nil => cases read
  | cons byte pc =>
    unfold getOp at read
    dsimp only at read
    split at read
    · cases read
      exact ⟨fun _ => rfl, by simp, List.suffix_cons byte rest⟩
    · rename_i low
      split at read
      · obtain ⟨rfl, -, rfl⟩ := operand_cases read
        refine ⟨fun high => absurd high low, ?_, (List.suffix_append value rest).trans (List.suffix_cons byte _)⟩
        rw [List.length_cons, List.length_append]
        omega
      · split at read
        · cases read
        · rename_i room
          obtain ⟨rfl, -, split⟩ := operand_cases read
          have below : rest <:+ pc := (split ▸ List.suffix_append value rest : rest <:+ _).trans (List.drop_suffix _ _)
          refine ⟨fun high => absurd high low, ?_, below.trans (List.suffix_cons byte pc)⟩
          have width : sizeWidth byte.toNat ≤ 4 := by
            unfold sizeWidth
            split_ifs <;> omega
          have rest := congrArg List.length split
          rw [List.length_drop, List.length_append] at rest
          rw [List.length_cons]
          omega

theorem opcode_le_of_value (member : some (opcode, value) ∈ ops script) (some : value ≠ []) : opcode ≤ 78 := by
  by_contra high
  exact some (of_mem_ops (fun _ _ opcode value read => (getOp_cases read).1) member (not_le.mp high))

/-- A bound on the bytes of some instructions. -/
def opsSize (instructions : List (Option (Nat × Data))) : Nat :=
  (instructions.map fun instruction => instruction.elim 0 fun op => op.2.length + 5).sum

/-- The instructions of a script that can be read have all of its bytes. -/
theorem length_le_opsSize (script : Script) (readable : none ∉ ops script) : script.length ≤ opsSize (ops script) := by
  cases read : getOp script with
  | none =>
    cases script with
    | nil => exact Nat.zero_le _
    | cons byte pc =>
      refine absurd ?_ readable
      unfold ops
      rw [List.length_cons, opsUpTo, read]
      exact List.mem_singleton_self none
  | some instruction =>
    obtain ⟨opcode, value, rest⟩ := instruction
    have shorter := getOp_shorter read
    have bytes := (getOp_cases read).2.1
    rw [ops_cons read] at readable ⊢
    have below := length_le_opsSize rest fun member => readable (List.mem_cons_of_mem _ member)
    have sum : opsSize (some (opcode, value) :: ops rest) = value.length + 5 + opsSize (ops rest) := rfl
    omega
termination_by script.length

theorem pushData_ne_nil (value : Data) : pushData value ≠ [] := by
  unfold pushData
  split_ifs <;> exact List.cons_ne_nil _ _

/-- A push that is none of the instructions is not found. -/
theorem findAndDelete_eq {sig : Data} (short : sig.length < 2 ^ 32)
    (apart : ∀ opcode, some (opcode, sig) ∉ ops script) : findAndDelete (pushData sig) script = script := by
  unfold findAndDelete
  rw [if_neg (by simpa using pushData_ne_nil sig)]
  generalize script.length = turns
  induction turns generalizing script with
  | zero => rfl
  | succ turns ih =>
    unfold deleteFrom
    split
    · rename_i found
      obtain ⟨rest, rfl⟩ := List.isPrefixOf_iff_prefix.mp found
      obtain ⟨opcode, -, read⟩ := ops_pushData short rest
      exact absurd (read ▸ List.mem_cons_self) (apart opcode)
    · cases read : getOp script with
      | none => rfl
      | some instruction =>
        obtain ⟨opcode, value, rest⟩ := instruction
        obtain ⟨front, rfl⟩ := (getOp_cases read).2.2
        have kept : deleteFrom (pushData sig) turns rest = rest := ih fun opcode member =>
          apart opcode (ops_cons read ▸ List.mem_cons_of_mem _ member)
        dsimp only
        rw [kept, List.length_append, Nat.add_sub_cancel, List.take_left]

end Instructions

/-! ### Matches -/

section Matches

variable {instructions rest2 : List (Option (Nat × Data))} {opcode1 opcode2 : Nat} {vch1 vch2 : Data}
  {solutions found : List Data}

theorem matchOp_key (given : matchOp opcode1 vch1 opPubKey vch2 solutions = some found) :
    isKeySize vch1 = true ∧ found = solutions ++ [vch1] := by
  unfold matchOp at given
  rw [if_pos rfl] at given
  split at given
  · rename_i size
    exact ⟨size, (Option.some.inj given).symm⟩
  · cases given

theorem matchOp_hash (given : matchOp opcode1 vch1 opPubKeyHash vch2 solutions = some found) :
    vch1.length = 20 ∧ found = solutions ++ [vch1] := by
  unfold matchOp at given
  rw [if_neg (by decide), if_pos rfl] at given
  split at given
  · rename_i size
    exact ⟨size, (Option.some.inj given).symm⟩
  · cases given

theorem matchOp_small (given : matchOp opcode1 vch1 opSmallInteger vch2 solutions = some found) :
    (opcode1 = 0 ∨ 81 ≤ opcode1 ∧ opcode1 ≤ 96) ∧ found = solutions ++ [[UInt8.ofNat (decodeOpN opcode1)]] := by
  unfold matchOp at given
  rw [if_neg (by decide), if_neg (by decide), if_pos rfl] at given
  split at given
  · rename_i small
    exact ⟨small, (Option.some.inj given).symm⟩
  · cases given

theorem matchOp_exact (plain : opcode2 < 250) (given : matchOp opcode1 vch1 opcode2 vch2 solutions = some found) :
    opcode1 = opcode2 ∧ vch1 = vch2 ∧ found = solutions := by
  unfold matchOp opPubKey opPubKeyHash opSmallInteger at given
  rw [if_neg (by omega), if_neg (by omega), if_neg (by omega)] at given
  split at given
  · cases given
  · rename_i same
    push Not at same
    exact ⟨same.1, same.2, (Option.some.inj given).symm⟩

theorem matchTemplate_nil (given : matchTemplate instructions [] solutions = some found) :
    instructions = [] ∧ found = solutions := by
  cases instructions with
  | nil =>
    rw [matchTemplate] at given
    exact ⟨rfl, (Option.some.inj given).symm⟩
  | cons instruction rest =>
    cases instruction <;> cases given

/-- One instruction of a template. -/
theorem matchTemplate_cons (single : opcode2 ≠ opPubKeys)
    (given : matchTemplate instructions (some (opcode2, vch2) :: rest2) solutions = some found) :
    ∃ opcode1 vch1 rest1 solutions', instructions = some (opcode1, vch1) :: rest1 ∧
      matchOp opcode1 vch1 opcode2 vch2 solutions = some solutions' ∧
        matchTemplate rest1 rest2 solutions' = some found := by
  cases instructions with
  | nil => cases given
  | cons instruction rest1 =>
    cases instruction with
    | none => cases given
    | some op =>
      obtain ⟨opcode1, vch1⟩ := op
      rw [matchTemplate, if_neg single] at given
      obtain ⟨solutions', here, later⟩ := Option.bind_eq_some_iff.mp given
      exact ⟨opcode1, vch1, rest1, solutions', rfl, here, later⟩

/-- The keys that are taken, up to the first instruction that is none, or to the end. -/
theorem takeKeys_cases (rest : List (Option (Nat × Data))) (opcode1 : Nat) (vch1 : Data) (solutions : List Data) :
    (∃ keys : List (Nat × Data), (∀ key ∈ keys, isKeySize key.2 = true) ∧
      some (opcode1, vch1) :: rest =
        keys.map some ++ some (takeKeys rest opcode1 vch1 solutions).1 :: (takeKeys rest opcode1 vch1 solutions).2.1 ∧
      (takeKeys rest opcode1 vch1 solutions).2.2 = solutions ++ keys.map Prod.snd) ∨
    (takeKeys rest opcode1 vch1 solutions).1 = (255, []) := by
  induction rest generalizing opcode1 vch1 solutions with
  | nil =>
    rw [takeKeys]
    split
    · exact .inr rfl
    · exact .inl ⟨[], nofun, rfl, (List.append_nil _).symm⟩
    · nofun
  | cons instruction rest ih =>
    by_cases size : isKeySize vch1 = true
    · cases instruction with
      | none =>
        rw [takeKeys, if_pos size]
        · exact .inr rfl
        · nofun
      | some op =>
        obtain ⟨opcode, vch⟩ := op
        rw [takeKeys, if_pos size]
        rcases ih opcode vch (solutions ++ [vch1]) with ⟨keys, sizes, split, taken⟩ | ended
        · refine .inl ⟨(opcode1, vch1) :: keys, List.forall_mem_cons.mpr ⟨size, sizes⟩, ?_, ?_⟩
          · rw [split]
            rfl
          · rw [taken, List.append_assoc]
            rfl
        · exact .inr ended
    · refine .inl ⟨[], nofun, ?_⟩
      cases instruction with
      | none =>
        rw [takeKeys, if_neg size]
        · exact ⟨rfl, (List.append_nil _).symm⟩
        · nofun
      | some op =>
        rw [takeKeys, if_neg size]
        exact ⟨rfl, (List.append_nil _).symm⟩

end Matches

/-! ### The forms -/

section Forms

variable {script : Script} {type : TxnOutType} {solutions : List Data}

theorem scanTemplates_mem {instructions : List (Option (Nat × Data))} {scanned : List (TxnOutType × Script)}
    (given : scanTemplates instructions scanned = some (type, solutions)) :
    ∃ template, (type, template) ∈ scanned ∧ matchTemplate instructions (ops template) [] = some solutions ∧
      (type = .multiSig → countsFit solutions = true) := by
  induction scanned with
  | nil => cases given
  | cons entry scanned ih =>
    obtain ⟨type', template⟩ := entry
    rw [scanTemplates] at given
    cases matched : matchTemplate instructions (ops template) [] with
    | none =>
      rw [matched] at given
      obtain ⟨template, member, rest⟩ := ih given
      exact ⟨template, List.mem_cons_of_mem _ member, rest⟩
    | some found =>
      rw [matched] at given
      dsimp only at given
      split at given
      · cases given
      · rename_i fits
        obtain ⟨rfl, rfl⟩ := Prod.mk.inj (Option.some.inj given)
        refine ⟨template, List.mem_cons_self, matched, ?_⟩
        rintro rfl
        simpa using fits

/-- A script of another form than `TX_SCRIPTHASH` matches its template. -/
theorem solver_template (solved : solver script = some (type, solutions)) (plain : type ≠ .scriptHash) :
    script.isPayToScriptHash = false ∧ ∃ template, (type, template) ∈ templates ∧
      matchTemplate (ops script) (ops template) [] = some solutions ∧
        (type = .multiSig → countsFit solutions = true) := by
  unfold solver at solved
  split at solved
  · obtain ⟨rfl, -⟩ := Prod.mk.inj (Option.some.inj solved)
    exact absurd rfl plain
  · rename_i other
    exact ⟨Bool.not_eq_true _ ▸ other, scanTemplates_mem solved⟩

theorem solver_scriptHash (solved : solver script = some (.scriptHash, solutions)) :
    script.isPayToScriptHash = true ∧ solutions = [(script.drop 2).take 20] := by
  unfold solver at solved
  split at solved
  · rename_i form
    exact ⟨form, (Prod.mk.inj (Option.some.inj solved)).2.symm⟩
  · obtain ⟨template, member, -⟩ := scanTemplates_mem solved
    simp [templates] at member

/-- A key, and the check of a signature by it. -/
theorem solver_pubKey (solved : solver script = some (.pubKey, solutions)) :
    ∃ opcode key, opcode ≤ 78 ∧ isKeySize key = true ∧ solutions = [key] ∧
      ops script = [some (opcode, key), some (172, [])] := by
  obtain ⟨-, template, member, matched, -⟩ := solver_template solved (by decide)
  obtain rfl : template = [254, 172] := by simpa [templates] using member
  have template : ops [254, 172] = [some (254, []), some (172, [])] := rfl
  rw [template] at matched
  obtain ⟨opcode, key, rest, found, split, first, matched⟩ := matchTemplate_cons (by decide) matched
  obtain ⟨size, rfl⟩ := matchOp_key first
  obtain ⟨check, value, rest', found', rfl, second, matched⟩ := matchTemplate_cons (by decide) matched
  obtain ⟨rfl, rfl, rfl⟩ := matchOp_exact (by decide) second
  obtain ⟨rfl, rfl⟩ := matchTemplate_nil matched
  refine ⟨opcode, key, ?_, size, rfl, split⟩
  refine opcode_le_of_value (split ▸ List.mem_cons_self) ?_
  rintro rfl
  exact absurd size (by decide)

/-- The key is that of a hash, and the signature is checked by it. -/
theorem solver_pubKeyHash (solved : solver script = some (.pubKeyHash, solutions)) :
    ∃ opcode hash, opcode ≤ 78 ∧ hash.length = 20 ∧ solutions = [hash] ∧
      ops script = [some (118, []), some (169, []), some (opcode, hash), some (136, []), some (172, [])] := by
  obtain ⟨-, template, member, matched, -⟩ := solver_template solved (by decide)
  obtain rfl : template = [118, 169, 253, 136, 172] := by simpa [templates] using member
  have template : ops [118, 169, 253, 136, 172] =
    [some (118, []), some (169, []), some (253, []), some (136, []), some (172, [])] := rfl
  rw [template] at matched
  obtain ⟨_, _, _, _, split, first, matched⟩ := matchTemplate_cons (by decide) matched
  obtain ⟨rfl, rfl, rfl⟩ := matchOp_exact (by decide) first
  obtain ⟨_, _, _, _, rfl, second, matched⟩ := matchTemplate_cons (by decide) matched
  obtain ⟨rfl, rfl, rfl⟩ := matchOp_exact (by decide) second
  obtain ⟨opcode, hash, _, _, rfl, third, matched⟩ := matchTemplate_cons (by decide) matched
  obtain ⟨size, rfl⟩ := matchOp_hash third
  obtain ⟨_, _, _, _, rfl, fourth, matched⟩ := matchTemplate_cons (by decide) matched
  obtain ⟨rfl, rfl, rfl⟩ := matchOp_exact (by decide) fourth
  obtain ⟨_, _, _, _, rfl, fifth, matched⟩ := matchTemplate_cons (by decide) matched
  obtain ⟨rfl, rfl, rfl⟩ := matchOp_exact (by decide) fifth
  obtain ⟨rfl, rfl⟩ := matchTemplate_nil matched
  refine ⟨opcode, hash, ?_, size, rfl, split⟩
  refine opcode_le_of_value (split ▸ List.mem_cons_of_mem _ (List.mem_cons_of_mem _ List.mem_cons_self)) ?_
  rintro rfl
  cases size

/-- The keys of a template, and the instruction after them. -/
theorem matchTemplate_keys {instructions rest2 : List (Option (Nat × Data))} {found : List Data}
    (given : matchTemplate instructions (some (251, []) :: some (250, []) :: rest2) solutions = some found) :
    ∃ (keys : List (Nat × Data)) (opcode : Nat) (value : Data) (rest : List (Option (Nat × Data))),
      (∀ key ∈ keys, isKeySize key.2 = true) ∧ instructions = keys.map some ++ some (opcode, value) :: rest ∧
        (opcode = 0 ∨ 81 ≤ opcode ∧ opcode ≤ 96) ∧
          matchTemplate rest rest2 (solutions ++ keys.map Prod.snd ++ [[UInt8.ofNat (decodeOpN opcode)]]) =
            some found := by
  cases instructions with
  | nil => cases given
  | cons instruction rest1 =>
    cases instruction with
    | none => cases given
    | some op =>
      obtain ⟨opcode1, vch1⟩ := op
      rw [matchTemplate, if_pos (show 251 = opPubKeys from rfl)] at given
      obtain ⟨solutions', here, later⟩ := Option.bind_eq_some_iff.mp given
      obtain ⟨small, rfl⟩ := matchOp_small here
      rcases takeKeys_cases rest1 opcode1 vch1 solutions with ⟨keys, sizes, split, taken⟩ | ended
      · rw [taken] at later
        exact ⟨keys, _, _, _, sizes, split, small, later⟩
      · rw [ended] at small
        omega

theorem countsFit_iff {m n : Nat} (small : m ≤ 16) (small' : n ≤ 16) (keys : List Data) :
    countsFit ([UInt8.ofNat m] :: (keys ++ [[UInt8.ofNat n]])) = true ↔ 1 ≤ m ∧ m ≤ n ∧ keys.length = n := by
  have byte : (UInt8.ofNat m).toNat = m := by
    rw [UInt8.toNat_ofNat']
    omega
  have byte' : (UInt8.ofNat n).toNat = n := by
    rw [UInt8.toNat_ofNat']
    omega
  have last : ([UInt8.ofNat m] :: (keys ++ [[UInt8.ofNat n]])).getLastD [] = [UInt8.ofNat n] := by
    rw [← List.cons_append, List.getLastD_concat]
  have long : ([UInt8.ofNat m] :: (keys ++ [[UInt8.ofNat n]])).length - 2 = keys.length := by
    rw [List.length_cons, List.length_append, List.length_singleton]
    omega
  have one : (1 : UInt8).toNat = 1 := rfl
  unfold countsFit
  rw [last, long]
  simp only [List.headD_cons, UInt8.lt_iff_toNat_lt, byte, byte', one, Bool.not_eq_true', Bool.or_eq_false_iff,
    decide_eq_false_iff_not]
  omega

/-- So many of some keys. -/
theorem solver_multiSig (solved : solver script = some (.multiSig, solutions)) :
    ∃ (m n : Nat) (keys : List (Nat × Data)), 1 ≤ m ∧ m ≤ n ∧ n ≤ 16 ∧ keys.length = n ∧
      (∀ key ∈ keys, key.1 ≤ 78 ∧ isKeySize key.2 = true) ∧
      solutions = [UInt8.ofNat m] :: keys.map Prod.snd ++ [[UInt8.ofNat n]] ∧
      ops script = some (80 + m, []) :: keys.map some ++ [some (80 + n, []), some (174, [])] := by
  obtain ⟨-, template, member, matched, fits⟩ := solver_template solved (by decide)
  obtain rfl : template = [250, 251, 250, 174] := by simpa [templates] using member
  have template : ops [250, 251, 250, 174] =
    [some (250, []), some (251, []), some (250, []), some (174, [])] := rfl
  rw [template] at matched
  obtain ⟨first, value, rest, found, split, first_small, matched⟩ := matchTemplate_cons (by decide) matched
  obtain ⟨small, rfl⟩ := matchOp_small first_small
  obtain ⟨keys, last, value', rest', sizes, rfl, small', matched⟩ := matchTemplate_keys matched
  obtain ⟨check, value'', rest'', found', rfl, here, matched⟩ := matchTemplate_cons (by decide) matched
  obtain ⟨rfl, rfl, rfl⟩ := matchOp_exact (by decide) here
  obtain ⟨rfl, rfl⟩ := matchTemplate_nil matched
  have bound {opcode : Nat} (small : opcode = 0 ∨ 81 ≤ opcode ∧ opcode ≤ 96) : decodeOpN opcode ≤ 16 := by
    unfold decodeOpN
    split <;> omega
  have positive {opcode : Nat} (small : opcode = 0 ∨ 81 ≤ opcode ∧ opcode ≤ 96) (some : 1 ≤ decodeOpN opcode) :
      80 + decodeOpN opcode = opcode ∧ 78 < opcode := by
    unfold decodeOpN at some ⊢
    split_ifs at some ⊢ <;> omega
  have counts : countsFit ([UInt8.ofNat (decodeOpN first)] :: (keys.map Prod.snd ++ [[UInt8.ofNat (decodeOpN last)]])) =
      true := fits rfl
  obtain ⟨positive_m, more, count⟩ := (countsFit_iff (bound small) (bound small') _).mp counts
  obtain ⟨first_eq, high⟩ := positive small positive_m
  obtain ⟨last_eq, high'⟩ := positive small' (positive_m.trans more)
  rw [List.length_map] at count
  have none_first : value = [] := by
    by_contra pushed
    exact absurd (opcode_le_of_value (split ▸ List.mem_cons_self) pushed) (not_le.mpr high)
  have none_last : value' = [] := by
    by_contra pushed
    have member : some (last, value') ∈ ops script := by
      rw [split]
      exact List.mem_cons_of_mem _ (List.mem_append_right _ List.mem_cons_self)
    exact absurd (opcode_le_of_value member pushed) (not_le.mpr high')
  refine ⟨decodeOpN first, decodeOpN last, keys, positive_m, more, bound small', count, fun key member => ?_, rfl, ?_⟩
  · have size := sizes key member
    have member : some key ∈ ops script := by
      rw [split]
      exact List.mem_cons_of_mem _ (List.mem_append_left _ (List.mem_map_of_mem member))
    refine ⟨opcode_le_of_value member fun empty => ?_, size⟩
    rw [empty] at size
    exact absurd size (by decide)
  · rw [split, first_eq, last_eq, none_first, none_last]
    rfl

/-- The script of the hash of a key is one of the forms. -/
theorem solver_payToPubKeyHash {hash : Data} (size : hash.length = 20) :
    solver (payToPubKeyHash hash) = some (.pubKeyHash, [hash]) := by
  obtain ⟨opcode, -, read⟩ := ops_payToPubKeyHash size
  have other : (payToPubKeyHash hash).isPayToScriptHash = false := by
    unfold isPayToScriptHash
    exact decide_eq_false fun form => absurd form.2.1 (show ¬(118 : UInt8) = 169 by decide)
  have hashed : matchTemplate (ops (payToPubKeyHash hash)) (ops [118, 169, 253, 136, 172]) [] = some [hash] := by
    have found : matchOp opcode hash 253 [] [] = some [hash] := by
      unfold matchOp
      rw [if_neg (by decide), if_pos (by decide), if_pos size]
      rfl
    rw [read]
    show (matchOp opcode hash 253 [] []).bind _ = _
    rw [found]
    rfl
  have keyed : matchTemplate (ops (payToPubKeyHash hash)) (ops [254, 172]) [] = none := by
    rw [read]
    rfl
  unfold solver
  rw [if_neg (Bool.eq_false_iff.mp other), templates, scanTemplates, keyed]
  show scanTemplates _ _ = _
  rw [scanTemplates, hashed]
  rfl

end Forms

end Libcoin
