/-
Which transactions of a block are handed to the verifier.

`attach` decides that with one flag for the whole block: the first transaction that is already
known, from the claims or from the transactions that were detached before, switches verification off
for itself and for all that come after it.
-/

import Libcoin.Ledger.Frame

namespace Libcoin

open Exec

variable {env : Setting} {s s' : Ledger}

/-- The transactions handed to the verifier. -/
def Ledger.verified (s : Ledger) : List Transaction := s.pending.map Verification.txn

/-- A transaction is unknown when it is neither among the claims nor among the unconfirmed
transactions, which are those that the same `append` has detached. -/
def Setting.unknown (env : Setting) (unconfirmed : Txns) (txn : Transaction) : Bool :=
  !(unconfirmed.contains (env.prim.txnHash txn) || env.claimed (env.prim.txnHash txn))

theorem postTransaction_verified {txn : Transaction} {fees minFee fees' : Int} {blk : Blk} {idx : Int}
    {verify : Bool} (run : postTransaction env txn fees minFee blk idx verify s = .ok fees' s') :
    s'.verified = s.verified ++ if verify then [txn] else [] := by
  obtain ⟨cnf, one, _, _, op, scripts, two, _, confirmed, redeemed, -, -, -, issued⟩ :=
    postTransaction_ok run
  have first : one.pending = s.pending := (confirm_keeps pending_confirmations _ _ _).ok confirmed
  have second : two.pending = one.pending :=
    (redeemAll_keeps pending_unspents pending_spendings pending_spendables _ _ _ _ _ _).ok redeemed
  have last := (issueAll_keeps pending_unspents pending_names pending_spendables _ _ _ _ _ _
    fun _ => pending_immature).ok issued
  unfold Ledger.verified
  rw [last]
  unfold Ledger.pushed
  cases verify with
  | true => simp [second, first]
  | false => simp [second, first]

/-- The transactions after a known one are not handed over, whatever they are. -/
theorem postAll_silent {blk : Blk} {txns : List Transaction} {idx fees : Int}
    {unconfirmed : Txns} {confirmed : Hashes} {result : Int × Txns × Hashes}
    (run : postAll env blk txns idx fees false unconfirmed confirmed s = .ok result s') :
    s'.verified = s.verified := by
  induction txns generalizing s idx fees unconfirmed confirmed with
  | nil =>
    obtain ⟨-, rfl⟩ := pure_ok.mp run
    rfl
  | cons txn txns ih =>
    unfold postAll at run
    simp only [ite_self] at run
    obtain ⟨fees', one, posted, rest⟩ := bind_ok.mp run
    rw [ih rest, postTransaction_verified posted]
    exact List.append_nil _

/-- Erasing the hash of an unknown transaction does not change what is unknown. -/
theorem unknown_erase {unconfirmed : Txns} {txn : Transaction}
    (unknown : env.unknown unconfirmed txn = true) :
    env.unknown (unconfirmed.erase (env.prim.txnHash txn)) = env.unknown unconfirmed := by
  funext other
  unfold Setting.unknown at unknown ⊢
  rw [Bool.not_eq_true', Bool.or_eq_false_iff] at unknown
  rw [Std.ExtTreeMap.contains_erase]
  by_cases same : env.prim.txnHash txn = env.prim.txnHash other
  · rw [← same, unknown.1]
    simp
  · have apart : (compare (env.prim.txnHash txn) (env.prim.txnHash other) != .eq) = true := by
      simpa using same
    rw [apart]
    simp

/-- The transactions before the first known one are handed over. -/
theorem postAll_verified {blk : Blk} {txns : List Transaction} {idx fees : Int}
    {unconfirmed : Txns} {confirmed : Hashes} {result : Int × Txns × Hashes}
    (run : postAll env blk txns idx fees true unconfirmed confirmed s = .ok result s') :
    s'.verified = s.verified ++ txns.takeWhile (env.unknown unconfirmed) := by
  induction txns generalizing s idx fees unconfirmed confirmed with
  | nil =>
    obtain ⟨-, rfl⟩ := pure_ok.mp run
    simp
  | cons txn txns ih =>
    unfold postAll at run
    obtain ⟨fees', one, posted, rest⟩ := bind_ok.mp run
    cases unknown : env.unknown unconfirmed txn with
    | false =>
      rw [List.takeWhile_cons_of_neg (by rw [unknown]; decide)]
      unfold Setting.unknown at unknown
      rw [Bool.not_eq_false'] at unknown
      rw [unknown] at posted rest
      rw [postAll_silent rest, postTransaction_verified posted]
      rfl
    | true =>
      rw [List.takeWhile_cons_of_pos unknown, ← unknown_erase unknown]
      unfold Setting.unknown at unknown
      rw [Bool.not_eq_true'] at unknown
      rw [unknown] at posted rest
      rw [ih rest, postTransaction_verified posted, List.append_assoc]
      rfl

/-- The transactions of a block that `attach` hands to the verifier. -/
theorem attach_verifies {blk : Blk} {block : Block} {unconfirmed : Txns} {confirmed : Hashes}
    {result : Txns × Hashes} (run : attach env blk block unconfirmed confirmed s = .ok result s')
    (deep : env.verificationDepth ≠ 0) (above : env.verificationDepth < blk.height) :
    s'.verified = block.transactions.tail.takeWhile (env.unknown unconfirmed) := by
  obtain ⟨coinbase, txns, one, fees, two, transactions, -, -, header, posted, subsidy, -⟩ :=
    attach_ok run
  have none : one.pending = [] := (insertBlockHeader_keeps pending_blocks _ _).ok header
  rw [decide_eq_true ⟨deep, above⟩] at posted
  have coins : s'.verified = two.verified := congrArg (List.map Verification.txn)
    ((postSubsidy_keeps pending_confirmations pending_unspents pending_spendings pending_spendables
      pending_immature coinbase blk fees).ok subsidy)
  rw [coins, postAll_verified posted, transactions]
  simp [Ledger.verified, none]

/-! ### When these are the right ones -/

section Prefix

variable {A : Type} {go must : A → Bool}

/-- The elements before the first that stops contain all that must be there, if and only if none
of these comes after one that stops. -/
theorem filter_sublist_takeWhile (goes : ∀ a, must a = true → go a = true) (xs : List A) :
    (xs.filter must).Sublist (xs.takeWhile go) ↔
      xs.Pairwise fun a b => go a = false → must b = false := by
  induction xs with
  | nil => simp
  | cons a xs ih =>
    rw [List.pairwise_cons, ← ih]
    cases stops : go a with
    | true =>
      have first : ∀ b ∈ xs, true = false → must b = false := fun _ _ absurd => by cases absurd
      rw [List.takeWhile_cons_of_pos stops]
      cases needed : must a with
      | true =>
        rw [List.filter_cons_of_pos needed, List.cons_sublist_cons]
        exact ⟨fun rest => ⟨first, rest⟩, And.right⟩
      | false =>
        rw [List.filter_cons_of_neg (by rw [needed]; decide)]
        refine ⟨fun within => ⟨first, ?_⟩, fun rest => rest.2.trans (List.sublist_cons_self _ _)⟩
        have filtered := within.filter must
        rw [List.filter_filter, List.filter_cons_of_neg (by rw [needed]; decide)] at filtered
        simp only [Bool.and_self] at filtered
        exact filtered.trans List.filter_sublist
    | false =>
      have unneeded : must a = false := by
        cases needed : must a with
        | false => rfl
        | true => rw [goes a needed] at stops; cases stops
      rw [List.takeWhile_cons_of_neg (by rw [stops]; decide),
        List.filter_cons_of_neg (by rw [unneeded]; decide), List.sublist_nil, List.filter_eq_nil_iff]
      constructor
      · intro nothing
        have none : ∀ b ∈ xs, must b = false := fun b member => by simpa using nothing b member
        have empty : xs.filter must = [] := List.filter_eq_nil_iff.mpr nothing
        exact ⟨fun b member _ => none b member, by rw [empty]; exact List.nil_sublist _⟩
      · rintro ⟨none, -⟩ b member
        rw [none b member rfl]
        decide

theorem takeWhile_eq_filter (xs : List A) :
    xs.takeWhile go = xs.filter go ↔ xs.Pairwise fun a b => go a = false → go b = false := by
  rw [← filter_sublist_takeWhile fun _ same => same]
  constructor
  · intro same
    rw [same]
  · intro within
    refine List.Sublist.antisymm ?_ within
    have all : (xs.takeWhile go).filter go = xs.takeWhile go :=
      List.filter_eq_self.mpr (List.all_eq_true.mp List.all_takeWhile)
    have sub := (List.takeWhile_sublist go (l := xs)).filter go
    rwa [all] at sub

end Prefix

/-- `attach` hands over every transaction that is neither claimed nor detached if and only if none of
these comes after a known one. When the detached transactions are the unconfirmed ones, it then hands over nothing else. -/
theorem attach_verifies_iff {blk : Blk} {block : Block} {unconfirmed : Txns} {confirmed : Hashes}
    {result : Txns × Hashes} (run : attach env blk block unconfirmed confirmed s = .ok result s')
    (deep : env.verificationDepth ≠ 0) (above : env.verificationDepth < blk.height) (detached : Txns)
    (within : ∀ hash, unconfirmed.contains hash = true → detached.contains hash = true) :
    ((block.transactions.tail.filter (env.unknown detached)).Sublist s'.verified ↔
      block.transactions.tail.Pairwise fun earlier later =>
        env.unknown unconfirmed earlier = false → env.unknown detached later = false) ∧
    (s'.verified = block.transactions.tail.filter (env.unknown unconfirmed) ↔
      block.transactions.tail.Pairwise fun earlier later =>
        env.unknown unconfirmed earlier = false → env.unknown unconfirmed later = false) := by
  have passed := attach_verifies run deep above
  have weaker : ∀ txn, env.unknown detached txn = true → env.unknown unconfirmed txn = true := by
    intro txn unknown
    unfold Setting.unknown at unknown ⊢
    rw [Bool.not_eq_true', Bool.or_eq_false_iff] at unknown ⊢
    refine ⟨?_, unknown.2⟩
    cases present : unconfirmed.contains (env.prim.txnHash txn) with
    | false => rfl
    | true => rw [within _ present] at unknown; cases unknown.1
  rw [passed]
  exact ⟨filter_sublist_takeWhile weaker _, takeWhile_eq_filter _⟩

namespace Small

/-- No signature is valid, and the first transaction of the block with hash 3 is claimed. -/
def forged : Setting :=
  { setting 1 0 with
    prim := { prim with verify := fun _ _ _ => false }
    verificationDepth := 1
    claimed := fun hash => hash = 31 }

/-- The genesis and one block on it. -/
def twoBlocks : Ledger :=
  final ((do
    let _ ← attach forged (blk 1 0) (block 1 0 [coinbase 10 [25, 25]]) ∅ ∅
    attach forged (blk 2 1) (block 2 1 [coinbase 20 [50]]) ∅ ∅) (Ledger.empty true))

/-- A claimed transaction, and one that nobody has verified. -/
def forgedBlock : Block :=
  block 3 2 [coinbase 30 [50], spend 31 [(10, 0)] [25], spend 32 [(10, 1)] [25]]

/-- The same two in the other order. -/
def honestBlock : Block :=
  block 3 2 [coinbase 30 [50], spend 32 [(10, 1)] [25], spend 31 [(10, 0)] [25]]

/-- Signatures are valid. -/
def honest : Setting := { forged with prim := prim }

end Small

open Libcoin.Small

/-- Where the claimed transaction comes last, the other one is verified. -/
theorem attach_verifies_first : ∃ result s',
    attach honest (blk 3 2) honestBlock ∅ ∅ twoBlocks = .ok result s' ∧
    s'.verified = honestBlock.transactions.tail.filter (honest.unknown ∅) := by
  have run : succeeds (attach honest (blk 3 2) honestBlock ∅ ∅ twoBlocks) (fun _ _ => true) = true := by
    decide +kernel
  obtain ⟨result, s', attached, -⟩ := of_succeeds run
  have split := attach_verifies_iff attached (by decide) (by decide) ∅ fun _ present => present
  exact ⟨result, s', attached, split.2.mpr (by decide +kernel)⟩

/-- The transaction that nobody has verified spends a coin without a valid signature. -/
theorem attach_skips : ∃ result s', attach forged (blk 3 2) forgedBlock ∅ ∅ twoBlocks = .ok result s' ∧
    spend 32 [(10, 1)] [25] ∈ forgedBlock.transactions.tail ∧
    forged.unknown ∅ (spend 32 [(10, 1)] [25]) = true ∧
    spend 32 [(10, 1)] [25] ∉ s'.verified := by
  have run : succeeds (attach forged (blk 3 2) forgedBlock ∅ ∅ twoBlocks)
      (fun _ s' => decide (spend 32 [(10, 1)] [25] ∉ s'.verified)) = true := by decide +kernel
  obtain ⟨result, s', attached, skipped⟩ := of_succeeds run
  exact ⟨result, s', attached, by decide, by decide +kernel, of_decide_eq_true skipped⟩

end Libcoin
