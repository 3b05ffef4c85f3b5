/-
`getBlockTemplate`: a block that has not yet been mined, and what its coinbase pays out.

* `getBlockTemplate` leaves out the trie of spendables with the selected transactions: its hash is not computed, and
  the coinbase has a zero hash in its place.
* `nominators` and `feeNominators` are the shares of the payees, `denominator` and `feeDenominator` their sums as they
  are computed. Products that do not fit in an `int64_t` are undefined.
* `templateOutputs_sum`: the outputs pay the subsidy, the fee, and the excess of both.
-/

import Libcoin.BlockChain.Append
import Libcoin.Keys.BigNum
import Libcoin.Library.Shares

namespace Libcoin

open Exec

namespace BlockChain

/-! ### The shares -/

/-- `accumulate(fractions.begin(), fractions.end(), 0)`, where the sum is an `int`. -/
def accumulate (fractions : List UInt32) : Int :=
  fractions.foldl (fun sum fraction => (sum + fraction.toNat).bmod (2 ^ 32)) 0

def denominator (payees : List Script) (fractions : List UInt32) : Int :=
  if accumulate fractions = 0 then payees.length else accumulate fractions

def feeDenominator (payees : List Script) (fractions feeFractions : List UInt32) : Int :=
  if accumulate feeFractions = 0 then denominator payees fractions else accumulate feeFractions

/-- `fractions.size() ? fractions[i] : 1` for all payees. -/
def nominators (payees : List Script) (fractions : List UInt32) : List Int :=
  if fractions.isEmpty then payees.map fun _ => 1 else fractions.map fun fraction => (fraction.toNat : Int)

/-- `fee_fractions.size() ? fee_fractions[i] : nominator` for all payees. -/
def feeNominators (payees : List Script) (fractions feeFractions : List UInt32) : List Int :=
  if feeFractions.isEmpty then nominators payees fractions
  else feeFractions.map fun fraction => (fraction.toNat : Int)

/-! ### The outputs -/

/-- `nominator*subsidy/denominator + fee_nominator*fee/fee_denominator`. -/
def payeeValue (subsidy fee denominator feeDenominator nominator feeNominator : Int) : Except Fault Int := do
  let share ← int64 (nominator * subsidy)
  let share ← int64 (share.tdiv denominator)
  let feeShare ← int64 (feeNominator * fee)
  let feeShare ← int64 (feeShare.tdiv feeDenominator)
  int64 (share + feeShare)

/-- `value += subsidy%denominator + fee%fee_denominator`. -/
def addRemainder (subsidy fee denominator feeDenominator value : Int) : Except Fault Int := do
  let _ ← int64 (subsidy.tdiv denominator)
  let _ ← int64 (fee.tdiv feeDenominator)
  let rest ← int64 (subsidy.tmod denominator + fee.tmod feeDenominator)
  int64 (value + rest)

/-- The loop over the payees with the shares of each. -/
def templateOutputs (subsidy fee denominator feeDenominator : Int) :
    Bool → List Script → List Int → List Int → Except Fault (List Output)
  | first, payee :: payees, nominator :: nominators, feeNominator :: feeNominators => do
    let value ← payeeValue subsidy fee denominator feeDenominator nominator feeNominator
    let value ← if first then addRemainder subsidy fee denominator feeDenominator value else .ok value
    let outputs ← templateOutputs subsidy fee denominator feeDenominator false payees nominators feeNominators
    return { value := value, script := payee } :: outputs
  | _, _, _, _ => .ok []

variable (cfg : Config) (clock : Clock)

/-- The input of the coinbase: the height, and the hash of the spendables. -/
def templateCoinbase (count : Int) (outputs : List Output) : Transaction :=
  { version := 1
    inputs := [{ prevout := Coin.null, signature := Script.pushInt count ++ 32 :: List.replicate 32 0
                 sequence := 0xffffffff }]
    outputs := outputs
    lockTime := 0 }

/-- `getBlockTemplate`. -/
def getBlockTemplate (blk : BlockRef Uint256) (payees : List Script) (fractions feeFractions : List UInt32)
    (s : BlockChain) : Except Fault Block :=
  if payees.isEmpty then .error (.error "Trying the generate a Block Template with no payees")
  else if !fractions.isEmpty && decide (fractions.length ≠ payees.length) then
    .error (.error "Fractions should be either 0 or match the number of payees")
  else if !feeFractions.isEmpty && decide (feeFractions.length ≠ payees.length) then
    .error (.error "Fee fractions should be either 0 or match the number of payees and fractions")
  else
    match s.claims.transactions cfg.prim 1000 with
    | none => .error .undefined
    | some chosen => do
      let count ← s.tree.count blk.hash
      let outputs ← templateOutputs (cfg.chain.subsidy count blk.hash) chosen.2 (denominator payees fractions)
        (feeDenominator payees fractions feeFractions) true payees (nominators payees fractions)
        (feeNominators payees fractions feeFractions)
      let block : Block :=
        { version := 3, prevBlock := blk.hash, merkleRoot := 0, time := clock.now
          bits := cfg.chain.nextWorkRequired s.tree blk, nonce := 0
          transactions := templateCoinbase count outputs :: chosen.1, auxPow := [] }
      return { block with merkleRoot := block.buildMerkleTree cfg.prim }

/-! ### What is paid -/

section Paid

variable {subsidy fee denominator feeDenominator : Int}

/-- The value of a payee without the remainders. -/
def partValue (subsidy fee denominator feeDenominator nominator feeNominator : Int) : Int :=
  (nominator * subsidy).tdiv denominator + (feeNominator * fee).tdiv feeDenominator

/-- No step of the arithmetic for a payee overflows. -/
def PayeeFits (subsidy fee denominator feeDenominator nominator feeNominator : Int) : Prop :=
  IsInt64 (nominator * subsidy) ∧ IsInt64 ((nominator * subsidy).tdiv denominator) ∧
    IsInt64 (feeNominator * fee) ∧ IsInt64 ((feeNominator * fee).tdiv feeDenominator) ∧
    IsInt64 (partValue subsidy fee denominator feeDenominator nominator feeNominator)

/-- Nor for the remainders that the first payee gets. -/
def RemainderFits (subsidy fee denominator feeDenominator value : Int) : Prop :=
  IsInt64 (subsidy.tdiv denominator) ∧ IsInt64 (fee.tdiv feeDenominator) ∧
    IsInt64 (subsidy.tmod denominator + fee.tmod feeDenominator) ∧
    IsInt64 (value + (subsidy.tmod denominator + fee.tmod feeDenominator))

def TemplateFits (subsidy fee denominator feeDenominator : Int) (shares : List (Int × Int)) : Prop :=
  (∀ share ∈ shares, PayeeFits subsidy fee denominator feeDenominator share.1 share.2) ∧
    ∀ share ∈ shares.head?, RemainderFits subsidy fee denominator feeDenominator
      (partValue subsidy fee denominator feeDenominator share.1 share.2)

instance (nominator feeNominator : Int) :
    Decidable (PayeeFits subsidy fee denominator feeDenominator nominator feeNominator) :=
  inferInstanceAs (Decidable (_ ∧ _))

instance (value : Int) : Decidable (RemainderFits subsidy fee denominator feeDenominator value) :=
  inferInstanceAs (Decidable (_ ∧ _))

instance (shares : List (Int × Int)) : Decidable (TemplateFits subsidy fee denominator feeDenominator shares) :=
  inferInstanceAs (Decidable (_ ∧ _))

theorem payeeValue_ok {nominator feeNominator value : Int} :
    payeeValue subsidy fee denominator feeDenominator nominator feeNominator = .ok value ↔
      PayeeFits subsidy fee denominator feeDenominator nominator feeNominator ∧
        partValue subsidy fee denominator feeDenominator nominator feeNominator = value := by
  unfold payeeValue PayeeFits
  simp only [bind_eq_ok, int64_ok]
  constructor
  · rintro ⟨_, ⟨product, rfl⟩, _, ⟨share, rfl⟩, _, ⟨product', rfl⟩, _, ⟨share', rfl⟩, sum, rfl⟩
    exact ⟨⟨product, share, product', share', sum⟩, rfl⟩
  · rintro ⟨⟨product, share, product', share', sum⟩, rfl⟩
    exact ⟨_, ⟨product, rfl⟩, _, ⟨share, rfl⟩, _, ⟨product', rfl⟩, _, ⟨share', rfl⟩, sum, rfl⟩

theorem addRemainder_ok {value result : Int} :
    addRemainder subsidy fee denominator feeDenominator value = .ok result ↔
      RemainderFits subsidy fee denominator feeDenominator value ∧
        value + (subsidy.tmod denominator + fee.tmod feeDenominator) = result := by
  unfold addRemainder RemainderFits
  simp only [bind_eq_ok, int64_ok]
  constructor
  · rintro ⟨_, ⟨share, rfl⟩, _, ⟨share', rfl⟩, _, ⟨rest, rfl⟩, sum, rfl⟩
    exact ⟨⟨share, share', rest, sum⟩, rfl⟩
  · rintro ⟨⟨share, share', rest, sum⟩, rfl⟩
    exact ⟨_, ⟨share, rfl⟩, _, ⟨share', rfl⟩, _, ⟨rest, rfl⟩, sum, rfl⟩

/-- The payees after the first one. -/
theorem templateOutputs_others {payees : List Script} {shares : List (Int × Int)} {total : Int}
    (each : payees.length = shares.length) :
    (∃ outputs, templateOutputs subsidy fee denominator feeDenominator false payees (shares.map Prod.fst)
        (shares.map Prod.snd) = .ok outputs ∧ (outputs.map Output.value).sum = total) ↔
      (∀ share ∈ shares, PayeeFits subsidy fee denominator feeDenominator share.1 share.2) ∧
        (shares.map fun share => partValue subsidy fee denominator feeDenominator share.1 share.2).sum = total := by
  induction shares generalizing payees total with
  | nil =>
    obtain rfl := List.length_eq_zero_iff.mp each
    simp [templateOutputs]
  | cons share shares ih =>
    obtain ⟨payee, payees, rfl⟩ := List.exists_cons_of_length_eq_add_one each
    have rest : ∀ total, _ ↔ _ ∧ _ = total := fun total => ih (Nat.succ.inj each)
    simp only [List.map_cons, templateOutputs, Bool.false_eq_true, if_false, ok_bind, bind_eq_ok, payeeValue_ok,
      List.forall_mem_cons, List.sum_cons]
    constructor
    · rintro ⟨_, ⟨_, ⟨fits, rfl⟩, outputs, run, made⟩, sum⟩
      obtain rfl := Except.ok.inj made
      rw [List.map_cons, List.sum_cons] at sum
      obtain ⟨others, parts⟩ := (rest (outputs.map Output.value).sum).mp ⟨outputs, run, rfl⟩
      exact ⟨⟨fits, others⟩, by rw [parts]; exact sum⟩
    · rintro ⟨⟨fits, others⟩, sum⟩
      obtain ⟨outputs, run, parts⟩ := (rest _).mpr ⟨others, rfl⟩
      refine ⟨_, ⟨_, ⟨fits, rfl⟩, outputs, run, rfl⟩, ?_⟩
      rw [List.map_cons, List.sum_cons, parts]
      exact sum

/-- All payees: the parts and, for the first one, the remainders. -/
theorem templateOutputs_sum {payees : List Script} {shares : List (Int × Int)} {total : Int}
    (each : payees.length = shares.length) (nonempty : payees ≠ []) :
    (∃ outputs, templateOutputs subsidy fee denominator feeDenominator true payees (shares.map Prod.fst)
        (shares.map Prod.snd) = .ok outputs ∧ (outputs.map Output.value).sum = total) ↔
      TemplateFits subsidy fee denominator feeDenominator shares ∧
        (shares.map fun share => partValue subsidy fee denominator feeDenominator share.1 share.2).sum +
          (subsidy.tmod denominator + fee.tmod feeDenominator) = total := by
  obtain ⟨payee, payees, rfl⟩ := List.exists_cons_of_ne_nil nonempty
  obtain ⟨share, shares, rfl⟩ := List.exists_cons_of_length_eq_add_one each.symm
  have rest := fun total =>
    @templateOutputs_others subsidy fee denominator feeDenominator payees shares total (Nat.succ.inj each)
  simp only [List.map_cons, templateOutputs, if_true, bind_eq_ok, payeeValue_ok, addRemainder_ok, TemplateFits,
    List.forall_mem_cons, List.sum_cons, List.head?_cons, Option.mem_some_iff, forall_eq']
  constructor
  · rintro ⟨_, ⟨_, ⟨fits, rfl⟩, _, ⟨remains, rfl⟩, outputs, run, made⟩, sum⟩
    obtain rfl := Except.ok.inj made
    rw [List.map_cons, List.sum_cons] at sum
    obtain ⟨others, parts⟩ := (rest (outputs.map Output.value).sum).mp ⟨outputs, run, rfl⟩
    exact ⟨⟨⟨fits, others⟩, remains⟩, by rw [parts, ← sum]; ring⟩
  · rintro ⟨⟨⟨fits, others⟩, remains⟩, sum⟩
    obtain ⟨outputs, run, parts⟩ := (rest _).mpr ⟨others, rfl⟩
    refine ⟨_, ⟨_, ⟨fits, rfl⟩, _, ⟨remains, rfl⟩, outputs, run, rfl⟩, ?_⟩
    rw [List.map_cons, List.sum_cons, parts, ← sum]
    ring

/-- The outputs pay the subsidy, the fee, and the excess of both. -/
theorem parts_sum {shares : List (Int × Int)} (nonneg : ∀ share ∈ shares, 0 ≤ share.1 ∧ 0 ≤ share.2) :
    (shares.map fun share => partValue subsidy fee denominator feeDenominator share.1 share.2).sum +
        (subsidy.tmod denominator + fee.tmod feeDenominator) =
      subsidy + fee + (Shares.excess (shares.map Prod.fst) denominator subsidy +
        Shares.excess (shares.map Prod.snd) feeDenominator fee) := by
  have split : (shares.map fun share => partValue subsidy fee denominator feeDenominator share.1 share.2).sum =
      Shares.parts (shares.map Prod.fst) denominator subsidy + Shares.parts (shares.map Prod.snd) feeDenominator fee := by
    clear nonneg
    unfold Shares.parts partValue
    induction shares with
    | nil => rfl
    | cons share shares ih =>
      simp only [List.map_cons, List.sum_cons, ih]
      ring
  have first := @Shares.parts_add_rest (shares.map Prod.fst)
    (fun n member => by
      obtain ⟨share, inside, rfl⟩ := List.mem_map.mp member
      exact (nonneg share inside).1) denominator subsidy
  have second := @Shares.parts_add_rest (shares.map Prod.snd)
    (fun n member => by
      obtain ⟨share, inside, rfl⟩ := List.mem_map.mp member
      exact (nonneg share inside).2) feeDenominator fee
  rw [split]
  omega

end Paid

/-! ### The shares of the payees -/

section Payees

variable {payees : List Script} {fractions feeFractions : List UInt32}

/-- The fractions are left out, or there is one for each payee. -/
def Matching (payees : List Script) (fractions : List UInt32) : Prop :=
  fractions = [] ∨ fractions.length = payees.length

/-- The sum of the fractions is not zero, and fits in an `int`. -/
def Summed (fractions : List UInt32) : Prop :=
  fractions = [] ∨ 0 < (fractions.map UInt32.toNat).sum ∧ (fractions.map UInt32.toNat).sum < 2 ^ 31

theorem accumulate_eq (fractions : List UInt32) :
    accumulate fractions = ((fractions.map UInt32.toNat).sum : Int).bmod (2 ^ 32) := by
  have from_ : ∀ sum : Int, fractions.foldl (fun sum fraction => (sum + fraction.toNat).bmod (2 ^ 32))
      (sum.bmod (2 ^ 32)) = (sum + (fractions.map UInt32.toNat).sum).bmod (2 ^ 32) := by
    induction fractions with
    | nil => simp
    | cons fraction fractions ih =>
      intro sum
      rw [List.foldl_cons, Int.bmod_add_bmod, ih, List.map_cons, List.sum_cons, Nat.cast_add, add_assoc]
  have whole := from_ 0
  rw [zero_add] at whole
  exact whole

/-- The shares of the subsidy and of the fee, one pair for each payee. -/
def shares (payees : List Script) (fractions feeFractions : List UInt32) : List (Int × Int) :=
  (nominators payees fractions).zip (feeNominators payees fractions feeFractions)

theorem nominators_length (matching : Matching payees fractions) :
    (nominators payees fractions).length = payees.length := by
  unfold nominators
  rcases matching with rfl | same
  · simp
  · split <;> simp [same]

theorem feeNominators_length (matching : Matching payees fractions) (matching' : Matching payees feeFractions) :
    (feeNominators payees fractions feeFractions).length = payees.length := by
  unfold feeNominators
  rcases matching' with rfl | same
  · exact nominators_length matching
  · split
    · exact nominators_length matching
    · simp [same]

theorem nominators_nonneg : ∀ n ∈ nominators payees fractions, 0 ≤ n := by
  intro n member
  unfold nominators at member
  split at member
  · obtain ⟨payee, -, rfl⟩ := List.mem_map.mp member
    decide
  · obtain ⟨fraction, -, rfl⟩ := List.mem_map.mp member
    exact Int.natCast_nonneg _

theorem feeNominators_nonneg : ∀ n ∈ feeNominators payees fractions feeFractions, 0 ≤ n := by
  intro n member
  unfold feeNominators at member
  split at member
  · exact nominators_nonneg n member
  · obtain ⟨fraction, -, rfl⟩ := List.mem_map.mp member
    exact Int.natCast_nonneg _

theorem cast_sum (fractions : List UInt32) :
    (fractions.map fun fraction => (fraction.toNat : Int)).sum = ((fractions.map UInt32.toNat).sum : Nat) := by
  induction fractions with
  | nil => rfl
  | cons fraction fractions ih => simp [ih]

theorem accumulate_summed (positive : 0 < (fractions.map UInt32.toNat).sum)
    (small : (fractions.map UInt32.toNat).sum < 2 ^ 31) : accumulate fractions = (fractions.map UInt32.toNat).sum := by
  rw [accumulate_eq]
  exact Int.bmod_eq_of_le (by omega) (by omega)

/-- The denominator is the sum of the shares. -/
theorem nominators_sum (nonempty : payees ≠ []) (summed : Summed fractions) :
    (nominators payees fractions).sum = denominator payees fractions ∧ 0 < denominator payees fractions := by
  have some := List.length_pos_iff.mpr nonempty
  rcases summed with rfl | ⟨positive, small⟩
  · have ones : (nominators payees []).sum = payees.length := by simp [nominators]
    have count : denominator payees [] = payees.length := rfl
    rw [ones, count]
    exact ⟨rfl, by omega⟩
  · have given : fractions.isEmpty = false := by
      cases fractions with
      | nil => cases positive
      | cons fraction fractions => rfl
    have total := accumulate_summed positive small
    unfold nominators denominator
    rw [given, total, if_neg (by decide), if_neg (by omega), cast_sum]
    exact ⟨rfl, by omega⟩

theorem feeNominators_sum (nonempty : payees ≠ []) (summed : Summed fractions) (summed' : Summed feeFractions) :
    (feeNominators payees fractions feeFractions).sum = feeDenominator payees fractions feeFractions ∧
      0 < feeDenominator payees fractions feeFractions := by
  rcases summed' with rfl | ⟨positive, small⟩
  · exact nominators_sum nonempty summed
  · have given : feeFractions.isEmpty = false := by
      cases feeFractions with
      | nil => cases positive
      | cons fraction fractions => rfl
    have total := accumulate_summed positive small
    unfold feeNominators feeDenominator
    rw [given, total, if_neg (by decide), if_neg (by omega), cast_sum]
    exact ⟨rfl, by omega⟩

end Payees

/-! ### Templates -/

section Templates

variable {cfg : Config} {clock : Clock} {s : BlockChain} {blk : BlockRef Uint256} {payees : List Script}
  {fractions feeFractions : List UInt32} {txns : List Transaction} {fee count : Int}

/-- The values of the coinbase of a block. -/
def coinbaseValue (block : Block) : Option Int :=
  block.transactions.head?.map fun coinbase => (coinbase.outputs.map Output.value).sum

theorem getBlockTemplate_ok {block : Block} (nonempty : payees ≠ []) (matching : Matching payees fractions)
    (matching' : Matching payees feeFractions) (chosen : s.claims.transactions cfg.prim 1000 = some (txns, fee))
    (counted : s.tree.count blk.hash = .ok count) :
    getBlockTemplate cfg clock blk payees fractions feeFractions s = .ok block ↔
      ∃ outputs, templateOutputs (cfg.chain.subsidy count blk.hash) fee (denominator payees fractions)
          (feeDenominator payees fractions feeFractions) true payees (nominators payees fractions)
          (feeNominators payees fractions feeFractions) = .ok outputs ∧
        let block' : Block :=
          { version := 3, prevBlock := blk.hash, merkleRoot := 0, time := clock.now
            bits := cfg.chain.nextWorkRequired s.tree blk, nonce := 0
            transactions := templateCoinbase count outputs :: txns, auxPow := [] }
        block = { block' with merkleRoot := block'.buildMerkleTree cfg.prim } := by
  have some : payees.isEmpty = false := by simpa using nonempty
  have fits : (!fractions.isEmpty && decide (fractions.length ≠ payees.length)) = false := by
    rcases matching with rfl | same
    · rfl
    · simp [same]
  have fits' : (!feeFractions.isEmpty && decide (feeFractions.length ≠ payees.length)) = false := by
    rcases matching' with rfl | same
    · rfl
    · simp [same]
  unfold getBlockTemplate
  rw [some, fits, fits', chosen]
  simp only [Bool.false_eq_true, if_false, counted, ok_bind, bind_eq_ok]
  constructor
  · rintro ⟨outputs, run, made⟩
    exact ⟨outputs, run, (Except.ok.inj made).symm⟩
  · rintro ⟨outputs, run, rfl⟩
    exact ⟨outputs, run, rfl⟩

open Libcoin.Small in
/-- The small chain has nothing to claim. -/
theorem created_template : ∃ s, created 1 0 = .ok s ∧ s.claims.transactions (config 1 0).prim 1000 = some ([], 0) ∧
    s.tree.count (refOf (config 1 0) (mined 1 0 []) 0).hash = .ok 1 := by
  have run : (do
      let s ← (created 1 0).toOption
      return (s.claims.transactions (config 1 0).prim 1000, (s.tree.count 1).toOption)) = some (some ([], 0), some 1) := by
    decide +kernel
  obtain ⟨s, done, rest⟩ := Option.bind_eq_some_iff.mp run
  obtain ⟨chosen, counted⟩ := Prod.mk.inj (Option.some.inj rest)
  exact ⟨s, toOption_eq_some.mp done, chosen, toOption_eq_some.mp counted⟩

/-- **The coinbase pays the subsidy and the fee if and only if no product overflows and the excess is zero. Where the
fractions have a sum that is not zero and fits in an `int`, this is so when the remainder of the subsidy, and that of
the fee, is too small for a part of any payee.** -/
theorem coinbase_exact (nonempty : payees ≠ []) (matching : Matching payees fractions)
    (matching' : Matching payees feeFractions) (chosen : s.claims.transactions cfg.prim 1000 = some (txns, fee))
    (counted : s.tree.count blk.hash = .ok count) :
    ((∃ block, getBlockTemplate cfg clock blk payees fractions feeFractions s = .ok block ∧
        coinbaseValue block = some (cfg.chain.subsidy count blk.hash + fee)) ↔
      TemplateFits (cfg.chain.subsidy count blk.hash) fee (denominator payees fractions)
          (feeDenominator payees fractions feeFractions) (shares payees fractions feeFractions) ∧
        Shares.excess (nominators payees fractions) (denominator payees fractions) (cfg.chain.subsidy count blk.hash) +
          Shares.excess (feeNominators payees fractions feeFractions) (feeDenominator payees fractions feeFractions) fee =
            0) ∧
      (Summed fractions → Summed feeFractions → 0 ≤ fee →
        (Shares.excess (nominators payees fractions) (denominator payees fractions)
              (cfg.chain.subsidy count blk.hash) +
            Shares.excess (feeNominators payees fractions feeFractions) (feeDenominator payees fractions feeFractions)
              fee = 0 ↔
          (∀ n ∈ nominators payees fractions,
            n * (cfg.chain.subsidy count blk.hash).tmod (denominator payees fractions) < denominator payees fractions) ∧
          ∀ n ∈ feeNominators payees fractions feeFractions,
            n * fee.tmod (feeDenominator payees fractions feeFractions) <
              feeDenominator payees fractions feeFractions)) := by
  have length := nominators_length matching
  have length' := feeNominators_length matching matching'
  have firsts : (shares payees fractions feeFractions).map Prod.fst = nominators payees fractions :=
    List.map_fst_zip (by omega)
  have seconds : (shares payees fractions feeFractions).map Prod.snd = feeNominators payees fractions feeFractions :=
    List.map_snd_zip (by omega)
  have each : payees.length = (shares payees fractions feeFractions).length := by
    rw [shares, List.length_zip]
    omega
  have nonneg : ∀ share ∈ shares payees fractions feeFractions, 0 ≤ share.1 ∧ 0 ≤ share.2 := fun share member =>
    ⟨nominators_nonneg _ (firsts ▸ List.mem_map_of_mem member),
      feeNominators_nonneg _ (seconds ▸ List.mem_map_of_mem member)⟩
  constructor
  · have paid := @templateOutputs_sum (cfg.chain.subsidy count blk.hash) fee (denominator payees fractions)
      (feeDenominator payees fractions feeFractions) payees (shares payees fractions feeFractions)
      (cfg.chain.subsidy count blk.hash + fee) each nonempty
    rw [parts_sum nonneg, firsts, seconds] at paid
    have balanced : ∀ excess : Int, cfg.chain.subsidy count blk.hash + fee + excess =
        cfg.chain.subsidy count blk.hash + fee ↔ excess = 0 := fun excess => by omega
    rw [balanced] at paid
    rw [← paid]
    constructor
    · rintro ⟨block, made, value⟩
      obtain ⟨outputs, run, rfl⟩ := (getBlockTemplate_ok nonempty matching matching' chosen counted).mp made
      exact ⟨outputs, run, Option.some.inj value⟩
    · rintro ⟨outputs, run, value⟩
      exact ⟨_, (getBlockTemplate_ok nonempty matching matching' chosen counted).mpr ⟨outputs, run, rfl⟩,
        congrArg some value⟩
  · intro summed summed' positive
    obtain ⟨whole, some⟩ := nominators_sum nonempty summed
    obtain ⟨whole', some'⟩ := feeNominators_sum nonempty summed summed'
    have subsidy := cfg.chain.subsidy_nonneg count blk.hash
    have low := Shares.excess_nonneg nominators_nonneg some whole subsidy
    have low' := Shares.excess_nonneg feeNominators_nonneg some' whole' positive
    rw [← Shares.excess_eq_zero_iff nominators_nonneg some whole subsidy,
      ← Shares.excess_eq_zero_iff feeNominators_nonneg some' whole' positive]
    omega

end Templates

open Libcoin.Small in
/-- Two payees that get two parts and one part of 50 are paid 51. -/
theorem coinbase_fails :
    ¬ ∀ (cfg : Config) (clock : Clock) (genesis : Block) (unspentIndex : Bool) (purgeDepth : Int) (s : BlockChain)
      (blk : BlockRef Uint256) (payees : List Script) (fractions feeFractions : List UInt32) (txns : List Transaction)
      (fee count : Int), create cfg clock genesis unspentIndex purgeDepth = .ok s → payees ≠ [] →
      Matching payees fractions → Matching payees feeFractions →
      s.claims.transactions cfg.prim 1000 = some (txns, fee) → s.tree.count blk.hash = .ok count →
      ∃ block, getBlockTemplate cfg clock blk payees fractions feeFractions s = .ok block ∧
        coinbaseValue block = some (cfg.chain.subsidy count blk.hash + fee) := by
  intro claim
  obtain ⟨s, created, chosen, counted⟩ := created_template
  obtain ⟨block, made, value⟩ := claim (config 1 0) clock _ _ _ s (refOf (config 1 0) (mined 1 0 []) 0) [[], []] [2, 1] []
    [] 0 1 created (by decide) (.inr rfl) (.inl rfl) chosen counted
  obtain ⟨outputs, run, rfl⟩ := (getBlockTemplate_ok (by decide) (.inr rfl) (.inl rfl) chosen counted).mp made
  have paid : templateOutputs ((config 1 0).chain.subsidy 1 (refOf (config 1 0) (mined 1 0 []) 0).hash) 0
      (denominator [[], []] [2, 1]) (feeDenominator [[], []] [2, 1] []) true [[], []] (nominators [[], []] [2, 1])
      (feeNominators [[], []] [2, 1] []) = .ok [⟨35, []⟩, ⟨16, []⟩] := by
    decide +kernel
  obtain rfl := Except.ok.inj (run.symm.trans paid)
  have same : (51 : Int) = 50 := Option.some.inj value
  exact absurd same (by decide)

open Libcoin.Small in
/-- Three payees are paid three, three and four tenths of the subsidy, and a third of the fees each. -/
theorem coinbase_exact_one :
    ∃ (s : BlockChain) (block : Block), created 1 0 = .ok s ∧
      getBlockTemplate (config 1 0) Small.clock (refOf (config 1 0) (mined 1 0 []) 0) [[1], [2], [3]] [3, 3, 4] [1, 1, 1]
        s = .ok block ∧
      coinbaseValue block = some 50 := by
  obtain ⟨s, created, chosen, counted⟩ := created_template
  have nonempty : ([[1], [2], [3]] : List Script) ≠ [] := by decide
  have exact := @coinbase_exact (config 1 0) Small.clock _ _ _ [3, 3, 4] [1, 1, 1] _ _ _ nonempty (.inr rfl) (.inr rfl)
    chosen counted
  have whole := (exact.2 (.inr (by decide)) (.inr (by decide)) le_rfl).mpr ⟨by decide, by decide⟩
  obtain ⟨block, made, value⟩ := exact.1.mpr ⟨by decide, whole⟩
  exact ⟨s, block, created, made, value⟩

end BlockChain

end Libcoin
