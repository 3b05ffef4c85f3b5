/-
The tables beside the claims: what the pool spends, and what it pays to a script.

* `claimedOutputs` is the loop of `claimed` with the access to an output that it makes without a check.
* `Tabled` is the invariant: both tables have exactly what the pooled transactions say. It needs that two pooled
  transactions share no input, since `erase` takes all inputs of a claim out of the table.
-/

import Libcoin.Pool.Families
import Mathlib.Data.List.Basic
import Mathlib.Data.List.Nodup

namespace Libcoin

open Run

namespace Claims

/-! ### Outputs by script -/

/-- `_scripts.equal_range(script)`. -/
def equalRange (scripts : List (Script × Coin)) (script : Script) : List Coin :=
  (scripts.filter fun entry => decide (entry.1 = script)).map Prod.snd

/-- The loop of `claimed`, where an output that is not there is undefined. -/
def claimedOutputs (confirmations : Map Uint256 Claim) : List Coin → Option (List (Coin × Output))
  | [] => some []
  | coin :: coins =>
    match confirmations[coin.hash]? with
    | none => claimedOutputs confirmations coins
    | some claim => do
      let output ← claim.txn.outputs[coin.index]?
      let outputs ← claimedOutputs confirmations coins
      some ((coin, output) :: outputs)

/-- Where the loop is defined it gives the outputs of `claimed`. -/
theorem claimedOutputs_claimed {claims : Claims} {script : Script} {outputs : List (Coin × Output)}
    (run : claimedOutputs claims.confirmations (equalRange claims.scripts script) = some outputs) :
    claims.claimed script = outputs := by
  unfold claimed
  unfold equalRange at run
  generalize claims.scripts.filter (fun entry => decide (entry.1 = script)) = entries at run ⊢
  induction entries generalizing outputs with
  | nil => exact Option.some.inj run
  | cons entry entries ih =>
    rw [List.map_cons, claimedOutputs] at run
    cases stored : claims.confirmations[entry.2.hash]? with
    | none =>
      rw [stored] at run
      rw [List.filterMap_cons_none (by rw [stored]; rfl), ih run]
    | some claim =>
      rw [stored] at run
      obtain ⟨output, there, run⟩ := Option.bind_eq_some_iff.mp run
      obtain ⟨rest, run, same⟩ := Option.bind_eq_some_iff.mp run
      have first : (do
          let claim ← claims.confirmations[entry.2.hash]?
          let output ← claim.txn.outputs[entry.2.index]?
          return (entry.2, output)) = some (entry.2, output) := by
        rw [stored]
        show (claim.txn.outputs[entry.2.index]?).bind _ = _
        rw [there]
        rfl
      rw [List.filterMap_cons, first, ih run]
      exact Option.some.inj same

/-! ### What the tables should have -/

/-- A transaction has the coin among its inputs. -/
def Spends (txn : Transaction) (coin : Coin) : Prop := ∃ input ∈ txn.inputs, input.prevout = coin

/-- The `spents` of an insertion. -/
def prevouts (txn : Transaction) : Finset Coin := (txn.inputs.map Input.prevout).toFinset

/-- A transaction is pooled. -/
def Pooled (claims : Claims) (txn : Transaction) : Prop :=
  ∃ (hash : Uint256) (claim : Claim), claims.confirmations[hash]? = some claim ∧ claim.txn = txn

/-- The output with this coin has this script, and is one of a claim. -/
def Pays (claims : Claims) (script : Script) (coin : Coin) : Prop :=
  ∃ claim, claims.confirmations[coin.hash]? = some claim ∧
    ∃ output, claim.txn.outputs[coin.index]? = some output ∧ output.script = script

section Tables

variable (prim : Primitives)

/-- Both queries give what the pooled transactions say: a coin is spent if one of them has it as an input, and a script
has each output of one of them that has this script, once. -/
structure ExactTables (claims : Claims) : Prop where
  spent : ∀ coin, claims.spent coin = true ↔ ∃ txn, claims.Pooled txn ∧ Spends txn coin
  claimed : ∀ script,
    claimedOutputs claims.confirmations (equalRange claims.scripts script) = some (claims.claimed script) ∧
    (claims.claimed script).Nodup ∧ ∀ coin output, (coin, output) ∈ claims.claimed script ↔
      ∃ txn, claims.Pooled txn ∧ coin.hash = prim.txnHash txn ∧ txn.outputs[coin.index]? = some output ∧
        output.script = script

/-- The invariant behind `ExactTables`. -/
structure Tabled (claims : Claims) : Prop where
  keyed : ∀ (hash : Uint256) (claim : Claim), claims.confirmations[hash]? = some claim → prim.txnHash claim.txn = hash
  apart : ∀ (hash : Uint256) (claim : Claim) (other : Uint256) (claim' : Claim),
    claims.confirmations[hash]? = some claim → claims.confirmations[other]? = some claim' → hash ≠ other →
    ∀ coin, Spends claim.txn coin → ¬Spends claim'.txn coin
  spents : ∀ coin, coin ∈ claims.spents ↔
    ∃ (hash : Uint256) (claim : Claim), claims.confirmations[hash]? = some claim ∧ Spends claim.txn coin
  nodup : claims.scripts.Nodup
  scripts : ∀ script coin, (script, coin) ∈ claims.scripts ↔ claims.Pays script coin

end Tables

theorem mem_prevouts {txn : Transaction} {coin : Coin} : coin ∈ prevouts txn ↔ Spends txn coin := by
  rw [prevouts, List.mem_toFinset, List.mem_map]
  exact Iff.rfl

theorem mem_scriptsOf {hash : Uint256} {txn : Transaction} {script : Script} {coin : Coin} :
    (script, coin) ∈ scriptsOf hash txn ↔
      coin.hash = hash ∧ ∃ output, txn.outputs[coin.index]? = some output ∧ output.script = script := by
  obtain ⟨own, index⟩ := coin
  unfold scriptsOf
  rw [List.mem_map]
  constructor
  · rintro ⟨⟨output, i⟩, member, same⟩
    cases same
    exact ⟨rfl, output, List.mem_zipIdx_iff_getElem?.mp member, rfl⟩
  · rintro ⟨rfl, output, found, rfl⟩
    exact ⟨(output, index), List.mem_zipIdx_iff_getElem?.mpr found, rfl⟩

theorem scriptsOf_nodup (hash : Uint256) (txn : Transaction) : (scriptsOf hash txn).Nodup := by
  have indices : ((scriptsOf hash txn).map fun entry => entry.2.index) = List.range' 0 txn.outputs.length := by
    unfold scriptsOf
    rw [List.map_map, ← List.zipIdx_map_snd 0 txn.outputs]
    rfl
  refine List.Nodup.of_map (fun entry => entry.2.index) ?_
  rw [indices]
  exact List.nodup_range'

/-! ### From the invariant to the queries -/

section Queries

variable {prim : Primitives} {claims : Claims}

theorem mem_equalRange {scripts : List (Script × Coin)} {script : Script} {coin : Coin} :
    coin ∈ equalRange scripts script ↔ (script, coin) ∈ scripts := by
  unfold equalRange
  rw [List.mem_map]
  constructor
  · rintro ⟨⟨own, coin⟩, member, rfl⟩
    obtain ⟨inside, same⟩ := List.mem_filter.mp member
    obtain rfl : own = script := of_decide_eq_true same
    exact inside
  · intro member
    exact ⟨(script, coin), List.mem_filter.mpr ⟨member, decide_eq_true rfl⟩, rfl⟩

theorem equalRange_nodup {scripts : List (Script × Coin)} (nodup : scripts.Nodup) (script : Script) :
    (equalRange scripts script).Nodup := by
  unfold equalRange
  refine List.Nodup.map_on ?_ (nodup.filter _)
  rintro ⟨own, coin⟩ member ⟨own', coin'⟩ member' same
  obtain rfl : own = script := of_decide_eq_true (List.mem_filter.mp member).2
  obtain rfl : own' = own := of_decide_eq_true (List.mem_filter.mp member').2
  exact Prod.ext rfl same

/-- The loop pairs each coin with its output, where there is one. -/
theorem claimedOutputs_eq (confirmations : Map Uint256 Claim) {coins : List Coin} (nodup : coins.Nodup)
    (found : ∀ coin ∈ coins, ∃ claim output, confirmations[coin.hash]? = some claim ∧
      claim.txn.outputs[coin.index]? = some output) :
    ∃ outputs, claimedOutputs confirmations coins = some outputs ∧ outputs.Nodup ∧
      ∀ coin output, (coin, output) ∈ outputs ↔ coin ∈ coins ∧
        ∃ claim, confirmations[coin.hash]? = some claim ∧ claim.txn.outputs[coin.index]? = some output := by
  induction coins with
  | nil => exact ⟨[], rfl, List.nodup_nil, fun coin output => by simp⟩
  | cons first coins ih =>
    obtain ⟨fresh, nodup⟩ := List.nodup_cons.mp nodup
    obtain ⟨outputs, run, distinct, member⟩ := ih nodup fun coin inside => found coin (List.mem_cons_of_mem _ inside)
    obtain ⟨claim, output, stored, there⟩ := found first List.mem_cons_self
    refine ⟨(first, output) :: outputs, ?_, List.nodup_cons.mpr ⟨fun again => ?_, distinct⟩, ?_⟩
    · simp only [claimedOutputs, stored, there, run, Option.bind_eq_bind, Option.bind_some]
    · exact fresh ((member first output).mp again).1
    · intro coin other
      rw [List.mem_cons, List.mem_cons, member, Prod.mk.injEq]
      constructor
      · rintro (⟨rfl, rfl⟩ | ⟨inside, rest⟩)
        · exact ⟨.inl rfl, claim, stored, there⟩
        · exact ⟨.inr inside, rest⟩
      · rintro ⟨rfl | inside, claim', stored', there'⟩
        · rw [stored] at stored'
          obtain rfl := Option.some.inj stored'
          rw [there] at there'
          exact .inl ⟨rfl, (Option.some.inj there').symm⟩
        · exact .inr ⟨inside, claim', stored', there'⟩

theorem Tabled.exact (tabled : claims.Tabled prim) : claims.ExactTables prim where
  spent coin := by
    rw [Claims.spent, decide_eq_true_iff, tabled.spents]
    constructor
    · rintro ⟨hash, claim, stored, spends⟩
      exact ⟨claim.txn, ⟨hash, claim, stored, rfl⟩, spends⟩
    · rintro ⟨_, ⟨hash, claim, stored, rfl⟩, spends⟩
      exact ⟨hash, claim, stored, spends⟩
  claimed script := by
    have paid {coin : Coin} : coin ∈ equalRange claims.scripts script ↔ claims.Pays script coin := by
      rw [mem_equalRange, tabled.scripts]
    obtain ⟨outputs, run, distinct, member⟩ := claimedOutputs_eq claims.confirmations
      (equalRange_nodup tabled.nodup script) fun coin inside => by
        obtain ⟨claim, stored, output, there, -⟩ := paid.mp inside
        exact ⟨claim, output, stored, there⟩
    rw [claimedOutputs_claimed run]
    refine ⟨run, distinct, fun coin output => ?_⟩
    rw [member, paid]
    constructor
    · rintro ⟨⟨claim, stored, output', there', same⟩, claim', stored', there⟩
      rw [stored] at stored'
      obtain rfl := Option.some.inj stored'
      rw [there] at there'
      obtain rfl := Option.some.inj there'
      exact ⟨claim.txn, ⟨coin.hash, claim, stored, rfl⟩, (tabled.keyed _ _ stored).symm, there, same⟩
    · rintro ⟨_, ⟨hash, claim, stored, rfl⟩, own, there, same⟩
      rw [tabled.keyed _ _ stored] at own
      rw [← own] at stored
      exact ⟨⟨claim, stored, output, there, same⟩, claim, stored, there⟩

end Queries

/-! ### Erasing -/

section Erase

variable {prim : Primitives} {claims : Claims}

theorem mem_foldl_erase {coins : List Coin} {spents : Finset Coin} {coin : Coin} :
    coin ∈ coins.foldl Finset.erase spents ↔ coin ∈ spents ∧ coin ∉ coins := by
  induction coins generalizing spents with
  | nil => simp
  | cons first coins ih =>
    rw [List.foldl_cons, ih, Finset.mem_erase, List.mem_cons, not_or]
    tauto

theorem Tabled.erase (tabled : claims.Tabled prim) (hash : Uint256) : (claims.erase hash).Tabled prim := by
  cases found : claims.confirmations[hash]? with
  | none => rwa [erase_absent found]
  | some claim =>
    have spents : (claims.erase hash).spents =
        (claim.txn.inputs.map Input.prevout).foldl Finset.erase claims.spents := by
      rw [erase_pooled found]
    have scripts : (claims.erase hash).scripts = claims.scripts.diff (scriptsOf hash claim.txn) := by
      rw [erase_pooled found, List.diff_eq_foldl]
    constructor
    · exact fun other claim' stored => tabled.keyed _ _ (lookup_of_erase stored).2
    · exact fun one claim₁ two claim₂ first second =>
        tabled.apart _ _ _ _ (lookup_of_erase first).2 (lookup_of_erase second).2
    · intro coin
      rw [spents, mem_foldl_erase, tabled.spents, List.mem_map]
      constructor
      · rintro ⟨⟨other, claim', stored, spends⟩, absent⟩
        have differ : hash ≠ other := by
          rintro rfl
          rw [found] at stored
          exact absent (Option.some.inj stored ▸ spends)
        exact ⟨other, claim', by rw [lookup_erase, if_neg differ, stored], spends⟩
      · rintro ⟨other, claim', stored, spends⟩
        obtain ⟨differ, stored⟩ := lookup_of_erase stored
        exact ⟨⟨other, claim', stored, spends⟩, tabled.apart _ _ _ _ stored found differ.symm coin spends⟩
    · rw [scripts]
      exact tabled.nodup.diff
    · intro script coin
      rw [scripts, tabled.nodup.mem_sdiff_iff, tabled.scripts, mem_scriptsOf]
      constructor
      · rintro ⟨⟨claim', stored, output, there, same⟩, absent⟩
        have differ : hash ≠ coin.hash := by
          rintro rfl
          rw [found] at stored
          obtain rfl := Option.some.inj stored
          exact absent ⟨rfl, output, there, same⟩
        exact ⟨claim', by rw [lookup_erase, if_neg differ, stored], output, there, same⟩
      · rintro ⟨claim', stored, paid⟩
        obtain ⟨differ, stored⟩ := lookup_of_erase stored
        exact ⟨⟨claim', stored, paid⟩, fun own => differ own.1.symm⟩

theorem Tabled.eraseAll (tabled : claims.Tabled prim) (hashes : List Uint256) :
    (hashes.foldl Claims.erase claims).Tabled prim := by
  induction hashes generalizing claims with
  | nil => exact tabled
  | cons hash hashes ih => exact ih (tabled.erase hash)

end Erase

/-! ### Inserting -/

section Insert

variable (prim : Primitives)

/-- An inserted transaction is new, has no input of a pooled one, and comes with its inputs. -/
def Fresh (claims : Claims) : ClaimsOp → Prop
  | .insert _ txn spents _ _ =>
    claims.haveHash (prim.txnHash txn) = false ∧
      (∀ other, claims.Pooled other → ∀ coin, Spends txn coin → ¬Spends other coin) ∧ spents = prevouts txn
  | _ => True

variable {prim} {claims : Claims} {now fee ts : Int} {txn : Transaction} {spents : Finset Coin}

theorem Tabled.insert (tabled : claims.Tabled prim) (fresh : Fresh prim claims (.insert now txn spents fee ts)) :
    (claims.insert prim now txn spents fee ts).Tabled prim := by
  obtain ⟨fresh, apart, rfl⟩ := fresh
  have missing := lookup_of_not_have fresh
  have own : (newClaim prim now claims txn fee ts).txn = txn := newClaim_txn
  -- the pooled claims are the old ones and the new one
  have stored_iff (hash : Uint256) (claim : Claim) :
      (claims.insert prim now txn (prevouts txn) fee ts).confirmations[hash]? = some claim ↔
        hash = prim.txnHash txn ∧ claim = newClaim prim now claims txn fee ts ∨
          claims.confirmations[hash]? = some claim := by
    rw [lookup_insert, missing, Option.getD_none]
    by_cases same : prim.txnHash txn = hash
    · rw [if_pos same, ← same, missing, Option.some_inj]
      simp [eq_comm]
    · rw [if_neg same]
      simp [Ne.symm same]
  have table : (claims.insert prim now txn (prevouts txn) fee ts).spents = claims.spents ∪ prevouts txn := rfl
  have outputs : (claims.insert prim now txn (prevouts txn) fee ts).scripts =
      claims.scripts ++ scriptsOf (prim.txnHash txn) txn := rfl
  generalize newClaim prim now claims txn fee ts = new at stored_iff own
  constructor
  · intro hash claim stored
    rcases (stored_iff _ _).mp stored with ⟨rfl, rfl⟩ | stored
    · rw [own]
    · exact tabled.keyed _ _ stored
  · intro hash claim other claim' stored stored' differ coin spends again
    rcases (stored_iff _ _).mp stored with ⟨rfl, rfl⟩ | stored <;>
      rcases (stored_iff _ _).mp stored' with ⟨rfl, rfl⟩ | stored'
    · exact differ rfl
    · exact apart _ ⟨other, claim', stored', rfl⟩ coin (own ▸ spends) again
    · exact apart _ ⟨hash, claim, stored, rfl⟩ coin (own ▸ again) spends
    · exact tabled.apart _ _ _ _ stored stored' differ coin spends again
  · intro coin
    rw [table, Finset.mem_union, tabled.spents, mem_prevouts]
    constructor
    · rintro (⟨hash, claim, stored, spends⟩ | spends)
      · exact ⟨hash, claim, (stored_iff _ _).mpr (.inr stored), spends⟩
      · exact ⟨_, new, (stored_iff _ _).mpr (.inl ⟨rfl, rfl⟩), own.symm ▸ spends⟩
    · rintro ⟨hash, claim, stored, spends⟩
      rcases (stored_iff _ _).mp stored with ⟨rfl, rfl⟩ | stored
      · exact .inr (own ▸ spends)
      · exact .inl ⟨hash, claim, stored, spends⟩
  · rw [outputs, List.nodup_append]
    refine ⟨tabled.nodup, scriptsOf_nodup _ _, ?_⟩
    rintro ⟨script, coin⟩ old _ added rfl
    obtain ⟨claim, stored, -⟩ := (tabled.scripts script coin).mp old
    rw [(mem_scriptsOf.mp added).1, missing] at stored
    cases stored
  · intro script coin
    rw [outputs, List.mem_append, tabled.scripts, mem_scriptsOf]
    constructor
    · rintro (⟨claim, stored, paid⟩ | ⟨same, paid⟩)
      · exact ⟨claim, (stored_iff _ _).mpr (.inr stored), paid⟩
      · exact ⟨new, (stored_iff _ _).mpr (.inl ⟨same, rfl⟩), own.symm ▸ paid⟩
    · rintro ⟨claim, stored, paid⟩
      rcases (stored_iff _ _).mp stored with ⟨same, rfl⟩ | stored
      · exact .inr ⟨same, own ▸ paid⟩
      · exact .inl ⟨claim, stored, paid⟩

theorem Tabled.apply (tabled : claims.Tabled prim) {op : ClaimsOp} (fresh : Fresh prim claims op) :
    (apply prim claims op).Tabled prim := by
  cases op with
  | insert now txn spents fee ts => exact tabled.insert fresh
  | erase hash => exact tabled.erase hash
  | purge before => exact tabled.eraseAll _

end Insert

/-! ### Runs -/

section Runs

variable (prim : Primitives)

/-- The transaction of an insertion. -/
def inserted : ClaimsOp → Option Transaction
  | .insert _ txn _ _ _ => some txn
  | _ => none

/-- The transactions that are inserted have distinct hashes and share no input, and each comes with its inputs. -/
structure DisjointInserts (ops : List ClaimsOp) : Prop where
  apart : (ops.filterMap inserted).Pairwise fun a b =>
    prim.txnHash a ≠ prim.txnHash b ∧ ∀ coin, Spends a coin → ¬Spends b coin
  spents : ∀ now txn spents fee ts, ClaimsOp.insert now txn spents fee ts ∈ ops → spents = prevouts txn

variable {prim}

theorem tabled_empty : empty.Tabled prim := by
  have nothing (hash : Uint256) (claim : Claim) : empty.confirmations[hash]? ≠ some claim := by simp [empty]
  constructor
  · exact fun hash claim stored => absurd stored (nothing hash claim)
  · exact fun hash claim other claim' stored => absurd stored (nothing hash claim)
  · refine fun coin => iff_of_false (by simp [empty]) ?_
    rintro ⟨hash, claim, stored, -⟩
    exact nothing hash claim stored
  · exact List.nodup_nil
  · refine fun script coin => iff_of_false List.not_mem_nil ?_
    rintro ⟨claim, stored, -⟩
    exact nothing coin.hash claim stored

theorem pooled_eraseAll {claims : Claims} {hashes : List Uint256} {txn : Transaction}
    (pooled : (hashes.foldl Claims.erase claims).Pooled txn) : claims.Pooled txn := by
  induction hashes generalizing claims with
  | nil => exact pooled
  | cons hash hashes ih =>
    obtain ⟨other, claim, stored, same⟩ := ih pooled
    exact ⟨other, claim, (lookup_of_erase stored).2, same⟩

/-- What is pooled after a call was pooled before, or is inserted by it. -/
theorem pooled_apply {claims : Claims} {op : ClaimsOp} {txn : Transaction}
    (pooled : (apply prim claims op).Pooled txn) : claims.Pooled txn ∨ inserted op = some txn := by
  cases op with
  | insert now txn' spents fee ts =>
    obtain ⟨hash, claim, stored, rfl⟩ := pooled
    change (claims.insert prim now txn' spents fee ts).confirmations[hash]? = some claim at stored
    rw [lookup_insert] at stored
    split_ifs at stored with same
    · cases old : claims.confirmations[prim.txnHash txn']? with
      | some claim' =>
        rw [old, Option.getD_some] at stored
        exact .inl ⟨_, claim', old, congrArg Claim.txn (Option.some.inj stored)⟩
      | none =>
        rw [old, Option.getD_none] at stored
        exact .inr (congrArg some (newClaim_txn.symm.trans (congrArg Claim.txn (Option.some.inj stored))))
    · exact .inl ⟨hash, claim, stored, rfl⟩
  | erase hash => exact .inl (@pooled_eraseAll _ [hash] _ pooled)
  | purge before => exact .inl (pooled_eraseAll pooled)

/-- Each step of such a run inserts a transaction that is fresh. -/
theorem DisjointInserts.fresh {ops : List ClaimsOp} (disjoint : DisjointInserts prim ops) :
    AlongSteps (apply prim) (Fresh prim) empty ops := by
  have start : empty.Tabled prim := tabled_empty
  have before : ∀ txn, empty.Pooled txn → ∀ later ∈ ops.filterMap inserted,
      prim.txnHash txn ≠ prim.txnHash later ∧ ∀ coin, Spends txn coin → ¬Spends later coin :=
    fun txn ⟨hash, claim, stored, _⟩ => absurd stored (by simp [empty])
  -- what is pooled is apart from all that is still to be inserted
  generalize empty = claims at start before
  induction ops generalizing claims with
  | nil => trivial
  | cons op ops ih =>
    have fresh : Fresh prim claims op := by
      cases op with
      | insert now txn spents fee ts =>
        have member : txn ∈ (ClaimsOp.insert now txn spents fee ts :: ops).filterMap inserted := List.mem_cons_self
        refine ⟨?_, fun other pooled coin spends again => ?_, disjoint.spents _ _ _ _ _ List.mem_cons_self⟩
        · by_contra known
          obtain ⟨claim, stored⟩ := haveHash_iff.mp (eq_true_of_ne_false known)
          exact (before claim.txn ⟨_, claim, stored, rfl⟩ txn member).1 (start.keyed _ _ stored)
        · exact (before other pooled txn member).2 coin again spends
      | erase hash => trivial
      | purge before => trivial
    have tail : List.Sublist (ops.filterMap inserted) ((op :: ops).filterMap inserted) :=
      (List.sublist_cons_self _ _).filterMap _
    refine ⟨fresh, ih ⟨?_, fun now txn spents fee ts inside =>
      disjoint.spents now txn spents fee ts (List.mem_cons_of_mem _ inside)⟩ _ (start.apply fresh) ?_⟩
    · exact disjoint.apart.sublist tail
    · intro txn pooled later member
      rcases pooled_apply pooled with old | new
      · exact before txn old later (tail.subset member)
      · have apart := disjoint.apart
        rw [List.filterMap_cons_some new] at apart
        exact List.rel_of_pairwise_cons apart member

/-- **In every state of a run the two queries give exactly what the pooled transactions say.** -/
theorem exactTables_run (ops : List ClaimsOp) (disjoint : DisjointInserts prim ops) :
    AlongStates (apply prim) (ExactTables prim) empty ops :=
  .of_inv (fun _ tabled => tabled.exact) (fun _ _ tabled fresh => tabled.apply fresh) tabled_empty disjoint.fresh

end Runs

open Libcoin.Small in
/-- Two transactions that pay to one script; the first one is erased, and the second one purged. -/
theorem exactTables_run_two :
    AlongStates (apply prim) (ExactTables prim) empty
      [.insert 1 (spend 2 [(1, 0)] [1, 2]) {⟨1, 0⟩} 5 0, .insert 1 (spend 3 [(2, 0)] [1]) {⟨2, 0⟩} 6 0, .erase 2,
        .purge 5] := by
  refine exactTables_run _ ⟨List.pairwise_pair.mpr ⟨by decide, ?_⟩, ?_⟩
  · rintro coin ⟨input, member, rfl⟩ ⟨other, member', same⟩
    obtain rfl := List.mem_singleton.mp member
    obtain rfl := List.mem_singleton.mp member'
    revert same
    decide
  · intro now txn spents fee ts member
    simp only [List.mem_cons, ClaimsOp.insert.injEq, reduceCtorEq, List.not_mem_nil, or_false] at member
    rcases member with ⟨-, rfl, rfl, -, -⟩ | ⟨-, rfl, rfl, -, -⟩
    · decide
    · decide

end Claims

end Libcoin
