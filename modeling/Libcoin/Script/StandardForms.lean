/-
The scripts that `Solver` knows are the standard forms.

* `Standard` has the forms by their instructions, with any encoding of a push, and the data that is embedded in each.
* `solver_standard` and `standard_solver` are the two directions of `solver_iff_standard`: what is recognised is of one
  of the forms, and a script of a form matches its template and none before it.
-/

import Libcoin.Script.Isolation
import Libcoin.Script.Solver

namespace Libcoin

open Script

/-- The standard forms, with the data that is embedded. -/
inductive Standard (script : Script) : TxnOutType → List Data → Prop
  | scriptHash (hash : Data) (size : hash.length = 20) (form : script = 169 :: 20 :: (hash ++ [135])) :
    Standard script .scriptHash [hash]
  | pubKey (opcode : Nat) (key : Data) (low : opcode ≤ 78) (size : 33 ≤ key.length ∧ key.length ≤ 120)
      (form : ops script = [some (opcode, key), some (172, [])]) : Standard script .pubKey [key]
  | pubKeyHash (opcode : Nat) (hash : Data) (low : opcode ≤ 78) (size : hash.length = 20)
      (form : ops script = [some (118, []), some (169, []), some (opcode, hash), some (136, []), some (172, [])]) :
    Standard script .pubKeyHash [hash]
  | multiSig (m n : Nat) (keys : List (Nat × Data)) (positive : 1 ≤ m) (fewer : m ≤ n) (few : n ≤ 16)
      (count : keys.length = n)
      (pushes : ∀ key ∈ keys, key.1 ≤ 78 ∧ 33 ≤ key.2.length ∧ key.2.length ≤ 120)
      (form : ops script = some (80 + m, []) :: keys.map some ++ [some (80 + n, []), some (174, [])]) :
    Standard script .multiSig ([UInt8.ofNat m] :: keys.map Prod.snd ++ [[UInt8.ofNat n]])

theorem isKeySize_iff {value : Data} : isKeySize value = true ↔ 33 ≤ value.length ∧ value.length ≤ 120 :=
  decide_eq_true_iff

/-! ### What is recognised -/

variable {script : Script} {type : TxnOutType} {solutions : List Data}

/-- The bytes of a script to pay to another one. -/
theorem isPayToScriptHash_iff : script.isPayToScriptHash = true ↔
    ∃ hash : Data, hash.length = 20 ∧ script = 169 :: 20 :: (hash ++ [135]) := by
  constructor
  · intro form
    obtain ⟨size, first, second, last⟩ := of_decide_eq_true form
    match script with
    | [] => cases size
    | [_] => cases size
    | byte₀ :: byte₁ :: rest =>
      obtain rfl : byte₀ = 169 := first
      obtain rfl : byte₁ = 20 := second
      have long : rest.length = 21 := by simpa using size
      have nonempty : rest ≠ [] := by
        rintro rfl
        cases long
      have last : rest.getLast nonempty = 135 := by
        have last : rest.getD 20 0 = 135 := last
        rw [List.getD_eq_getElem?_getD, List.getElem?_eq_getElem (by omega), Option.getD_some] at last
        rw [List.getLast_eq_getElem]
        simpa [long] using last
      refine ⟨rest.dropLast, by rw [List.length_dropLast, long], ?_⟩
      rw [← last, List.dropLast_append_getLast nonempty]
  · rintro ⟨hash, size, rfl⟩
    unfold isPayToScriptHash
    refine decide_eq_true ⟨by simp [size], rfl, rfl, ?_⟩
    show (hash ++ [135]).getD 20 0 = 135
    rw [List.getD_eq_getElem?_getD, List.getElem?_append_right size.le, size]
    rfl

/-- What is recognised is of one of the forms. -/
theorem solver_standard (solved : solver script = some (type, solutions)) : Standard script type solutions := by
  cases type with
  | nonStandard =>
    obtain ⟨-, template, member, -⟩ := solver_template solved (by decide)
    simp [templates] at member
  | pubKey =>
    obtain ⟨opcode, key, low, size, rfl, form⟩ := solver_pubKey solved
    exact .pubKey opcode key low (isKeySize_iff.mp size) form
  | pubKeyHash =>
    obtain ⟨opcode, hash, low, size, rfl, form⟩ := solver_pubKeyHash solved
    exact .pubKeyHash opcode hash low size form
  | scriptHash =>
    obtain ⟨form, rfl⟩ := solver_scriptHash solved
    obtain ⟨hash, size, rfl⟩ := isPayToScriptHash_iff.mp form
    have embedded : ((169 :: 20 :: (hash ++ [135])).drop 2).take 20 = hash := List.take_left' size
    rw [embedded]
    exact .scriptHash hash size rfl
  | multiSig =>
    obtain ⟨m, n, keys, positive, fewer, few, count, pushes, rfl, form⟩ := solver_multiSig solved
    exact .multiSig m n keys positive fewer few count
      (fun key member => ⟨(pushes key member).1, isKeySize_iff.mp (pushes key member).2⟩) form

/-! ### The forms are recognised -/

/-- No other form is one to pay to another script. -/
theorem not_payToScriptHash (apart : ∀ hash, ops script ≠ [some (169, []), some (20, hash), some (135, [])]) :
    script.isPayToScriptHash = false := by
  cases form : script.isPayToScriptHash with
  | false => rfl
  | true =>
    obtain ⟨hash, read⟩ := ops_payToScriptHash form
    exact absurd read (apart hash)

theorem standard_pubKey {opcode : Nat} {key : Data} (size : 33 ≤ key.length ∧ key.length ≤ 120)
    (form : ops script = [some (opcode, key), some (172, [])]) : solver script = some (.pubKey, [key]) := by
  have first : matchOp opcode key 254 [] [] = some [key] := if_pos (isKeySize_iff.mpr size)
  have matched : matchTemplate (ops script) (ops [254, 172]) [] = some [key] := by
    rw [form]
    show (matchOp opcode key 254 [] []).bind _ = _
    rw [first]
    rfl
  have other : script.isPayToScriptHash = false := not_payToScriptHash fun hash => by
    rw [form]
    simp
  unfold solver
  rw [if_neg (Bool.eq_false_iff.mp other), templates, scanTemplates, matched]
  rfl

theorem standard_pubKeyHash {opcode : Nat} {hash : Data} (size : hash.length = 20)
    (form : ops script = [some (118, []), some (169, []), some (opcode, hash), some (136, []), some (172, [])]) :
    solver script = some (.pubKeyHash, [hash]) := by
  have hashed : matchOp opcode hash 253 [] [] = some [hash] :=
    (if_neg (by decide)).trans ((if_pos (by decide)).trans (if_pos size))
  have keyed : matchTemplate (ops script) (ops [254, 172]) [] = none := by
    rw [form]
    rfl
  have matched : matchTemplate (ops script) (ops [118, 169, 253, 136, 172]) [] = some [hash] := by
    rw [form]
    show (matchOp opcode hash 253 [] []).bind _ = _
    rw [hashed]
    rfl
  have other : script.isPayToScriptHash = false := not_payToScriptHash fun hash => by
    rw [form]
    simp
  unfold solver
  rw [if_neg (Bool.eq_false_iff.mp other), templates, scanTemplates, keyed]
  dsimp only
  rw [scanTemplates, matched]
  rfl

/-- What is no key is left. -/
theorem takeKeys_other {opcode : Nat} {value : Data} (other : isKeySize value = false)
    (rest : List (Option (Nat × Data))) (solutions : List Data) :
    takeKeys rest opcode value solutions = ((opcode, value), rest, solutions) := by
  have size : ¬isKeySize value = true := Bool.eq_false_iff.mp other
  cases rest with
  | nil =>
    rw [takeKeys, if_neg size]
    intro _ _ _ ended
    cases ended
  | cons instruction rest =>
    cases instruction with
    | none =>
      rw [takeKeys, if_neg size]
      intro _ _ _ read
      cases read
    | some pair => rw [takeKeys, if_neg size]

/-- The keys are taken up to the first instruction that is none. -/
theorem takeKeys_keys {keys : List (Nat × Data)} {first : Nat × Data} (size : isKeySize first.2 = true)
    (sizes : ∀ key ∈ keys, isKeySize key.2 = true) {opcode : Nat} {value : Data} (other : isKeySize value = false)
    (rest : List (Option (Nat × Data))) (solutions : List Data) :
    takeKeys (keys.map some ++ some (opcode, value) :: rest) first.1 first.2 solutions =
      ((opcode, value), rest, solutions ++ first.2 :: keys.map Prod.snd) := by
  induction keys generalizing first solutions with
  | nil =>
    rw [List.map_nil, List.nil_append, takeKeys, if_pos size, takeKeys_other other]
    rfl
  | cons key keys ih =>
    have further := ih (sizes key List.mem_cons_self) (fun key inside => sizes key (List.mem_cons_of_mem _ inside))
      (solutions ++ [first.2])
    rw [List.map_cons, List.cons_append, takeKeys, if_pos size, further, List.append_assoc]
    rfl

theorem matchOp_number {n : Nat} (positive : 1 ≤ n) (few : n ≤ 16) (solutions : List Data) :
    matchOp (80 + n) [] 250 [] solutions = some (solutions ++ [[UInt8.ofNat n]]) := by
  have decoded : decodeOpN (80 + n) = n := by
    unfold decodeOpN
    rw [if_neg (by omega)]
    omega
  unfold matchOp opPubKey opPubKeyHash opSmallInteger
  rw [if_neg (by decide), if_neg (by decide), if_pos rfl, if_pos (.inr (by omega)), decoded]

/-- The instructions of a multisig match its template. -/
theorem matchTemplate_multiSig {m n : Nat} {keys : List (Nat × Data)} (positive : 1 ≤ m) (fewer : m ≤ n) (few : n ≤ 16)
    (count : keys.length = n) (sizes : ∀ key ∈ keys, isKeySize key.2 = true) :
    matchTemplate (some (80 + m, []) :: keys.map some ++ [some (80 + n, []), some (174, [])]) (ops [250, 251, 250, 174])
        [] = some ([UInt8.ofNat m] :: keys.map Prod.snd ++ [[UInt8.ofNat n]]) := by
  obtain ⟨first, others, rfl⟩ := List.exists_cons_of_length_pos (show 0 < keys.length by omega)
  have taken := @takeKeys_keys others first (sizes first List.mem_cons_self)
    (fun key inside => sizes key (List.mem_cons_of_mem _ inside)) (80 + n) [] rfl [some (174, [])] [[UInt8.ofNat m]]
  show (matchOp (80 + m) [] 250 [] []).bind _ = _
  rw [matchOp_number positive (fewer.trans few)]
  have rest (taken : (Nat × Data) × List (Option (Nat × Data)) × List Data)
      (same : takeKeys (others.map some ++ [some (80 + n, []), some (174, [])]) first.1 first.2 [[UInt8.ofNat m]] =
        taken) :
      matchTemplate ((first :: others).map some ++ [some (80 + n, []), some (174, [])])
          (ops [251, 250, 174]) [[UInt8.ofNat m]] =
        (matchOp taken.1.1 taken.1.2 250 [] taken.2.2).bind (matchTemplate taken.2.1 [some (174, [])]) := by
    rw [← same]
    rfl
  refine (rest _ taken).trans ?_
  dsimp only
  rw [matchOp_number (positive.trans fewer) few]
  rfl

theorem standard_multiSig {m n : Nat} {keys : List (Nat × Data)} (positive : 1 ≤ m) (fewer : m ≤ n) (few : n ≤ 16)
    (count : keys.length = n) (sizes : ∀ key ∈ keys, isKeySize key.2 = true)
    (form : ops script = some (80 + m, []) :: keys.map some ++ [some (80 + n, []), some (174, [])]) :
    solver script = some (.multiSig, [UInt8.ofNat m] :: keys.map Prod.snd ++ [[UInt8.ofNat n]]) := by
  have fits : countsFit ([UInt8.ofNat m] :: keys.map Prod.snd ++ [[UInt8.ofNat n]]) = true :=
    (countsFit_iff (fewer.trans few) few _).mpr ⟨positive, fewer, (List.length_map ..).trans count⟩
  have keyed : matchTemplate (ops script) (ops [254, 172]) [] = none := by
    rw [form]
    rfl
  have hashed : matchTemplate (ops script) (ops [118, 169, 253, 136, 172]) [] = none := by
    have apart : matchOp (80 + m) [] 118 [] [] = none := by
      unfold matchOp opPubKey opPubKeyHash opSmallInteger
      rw [if_neg (by decide), if_neg (by decide), if_neg (by decide), if_pos (.inl (by omega))]
    rw [form]
    show (matchOp (80 + m) [] 118 [] []).bind _ = _
    rw [apart]
    rfl
  have other : script.isPayToScriptHash = false := not_payToScriptHash fun hash => by
    rw [form]
    intro same
    have first := congrArg Prod.fst (Option.some.inj (List.cons.inj same).1)
    dsimp only at first
    omega
  have matched := matchTemplate_multiSig positive fewer few count sizes
  rw [← form] at matched
  unfold solver
  rw [if_neg (Bool.eq_false_iff.mp other), templates, scanTemplates, keyed]
  dsimp only
  rw [scanTemplates, hashed]
  dsimp only
  rw [scanTemplates, matched]
  dsimp only
  rw [fits]
  rfl

/-- A script of one of the forms is recognised. -/
theorem standard_solver (standard : Standard script type solutions) : solver script = some (type, solutions) := by
  cases standard with
  | scriptHash hash size form =>
    have embedded : (script.drop 2).take 20 = hash := by
      rw [form]
      exact List.take_left' size
    unfold solver
    rw [if_pos (isPayToScriptHash_iff.mpr ⟨hash, size, form⟩), embedded]
  | pubKey opcode key low size form => exact standard_pubKey size form
  | pubKeyHash opcode hash low size form => exact standard_pubKeyHash size form
  | multiSig m n keys positive fewer few count pushes form =>
    exact standard_multiSig positive fewer few count (fun key member => isKeySize_iff.mpr (pushes key member).2) form

/-- **`Solver` recognises exactly the standard forms**, and gives the type and the embedded data of each. -/
theorem solver_iff_standard (script : Script) :
    ((solver script).isSome ↔ ∃ type solutions, Standard script type solutions) ∧
      ∀ type solutions, solver script = some (type, solutions) ↔ Standard script type solutions := by
  have both (type : TxnOutType) (solutions : List Data) :
      solver script = some (type, solutions) ↔ Standard script type solutions := ⟨solver_standard, standard_solver⟩
  refine ⟨?_, both⟩
  rw [Option.isSome_iff_exists, Prod.exists]
  simp only [both]

end Libcoin
