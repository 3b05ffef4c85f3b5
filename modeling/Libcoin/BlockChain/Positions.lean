/-
Where a transaction or a coin is: `BlockChain::confirmations`, `getHeight` of a coin, and `getUnspents`.

The count of a coin of a coinbase is stored as a negative number. `confirmations` and `getHeight` go on with it as it
is, and `getUnspents` compares it with a count.
-/

import Libcoin.BlockChain.Balances
import Libcoin.BlockChain.Append
import Libcoin.Ledger.Traces

namespace Libcoin

open Exec Map Stock

/-! ### The queries -/

namespace Database

/-- `SELECT count FROM Unspents WHERE hash=? LIMIT 1`. -/
def unspentCount (db : Database) (hash : Uint256) : Int :=
  ((db.unspents.first fun _ row => decide (row.key.hash = hash)).map fun entry => entry.2.count).getD 0

/-- `SELECT ocnf FROM Spendings WHERE hash=? LIMIT 1`. -/
def spentConfirmation (db : Database) (hash : Uint256) : Int :=
  ((db.spendings.toList.filter fun entry => decide (entry.2.key.hash = hash)).head?.map fun entry => entry.2.ocnf).getD 0

/-- `SELECT count FROM Confirmations WHERE cnf = ?`. -/
def confirmationCount (db : Database) (cnf : Int) : Int :=
  (db.confirmations.rows[cnf]?.map fun row => row.count).getD 0

end Database

namespace Claims

/-- `timestamp`. -/
def timestamp (claims : Claims) (hash : Uint256) : Int := claims.confirmations[hash]?.elim 0 Claim.timestamp

end Claims

namespace BlockChain

/-- `confirmations(hash, from)`. -/
def confirmations (s : BlockChain) (hash : Uint256) (start : Int) : Except Fault Int :=
  let db := s.ledger.db
  let count := db.unspentCount hash
  let conf := db.spentConfirmation hash
  let count := if count = 0 ∧ conf ≠ 0 then db.confirmationCount conf else count
  if count ≠ 0 then .ok (s.tree.height - count + 2)
  else
    let start := if start < 0 then s.tree.height + start else start
    if start < db.getDeepestDepth - 1 then
      .error (.error "Asking for confirmations where no data avail - prune_base is: ")
    else .ok 0

/-- `getHeight(Coin)`. -/
def getHeight (cfg : Config) (s : BlockChain) (coin : Coin) : Int :=
  if cfg.validationDepth = 0 then
    ((s.ledger.db.findUnspent coin).map fun entry => entry.2.count).getD 0 - 1
  else (s.ledger.spendables[coin]?.map fun unspent => unspent.count - 1).getD (-1)

/-- The claimed outputs that `getUnspents` adds. -/
def claimedUnspents (s : BlockChain) (script : Script) (before : Int) : List Unspent :=
  ((s.claims.claimed script).filter fun entry =>
    decide (before = 0 ∨ s.claims.timestamp entry.1.hash ≤ before)).map fun entry =>
      { key := entry.1, output := entry.2, coin := 0, count := s.claims.timestamp entry.1.hash, cnf := 0 }

/-- `getUnspents`, with or without the index of scripts. -/
def getUnspents (scriptIndex : Bool) (s : BlockChain) (script : Script) (before : Int) : Except Fault (List Unspent) :=
  if !scriptIndex then .error (.error "Lookup of unspents requires an INDEX!")
  else
    let unspents := (s.ledger.db.unspents.select fun _ row => scriptIs script row.output.script).map
      fun entry => entry.2.unspent entry.1
    let unspents :=
      if before = 0 ∨ locktimeThreshold < before then unspents ++ s.claimedUnspents script before
      else unspents.filter fun unspent => !decide (before < unspent.count)
    .ok (unspents.filter fun unspent => !s.claims.spent unspent.key)

end BlockChain

/-! ### What the chain says -/

/-- The transaction is the only one of the chain with its hash. -/
def Posted.Named (prim : Primitives) (offers : List Offer) (p : Posted) : Prop :=
  namedBy prim (prim.txnHash p.txn) (postedIn offers) = [p]

instance (prim : Primitives) (offers : List Offer) (p : Posted) : Decidable (p.Named prim offers) :=
  inferInstanceAs (Decidable (_ = _))

/-- The coin is an output of the transaction, which no transaction of the chain spends. -/
def Posted.HasUnspent (prim : Primitives) (offers : List Offer) (p : Posted) (key : Coin) (output : Output) : Prop :=
  p ∈ postedIn offers ∧ key.hash = prim.txnHash p.txn ∧ p.txn.outputs[key.index]? = some output ∧ key ∉ spentIn offers

theorem mem_namedBy {prim : Primitives} {hash : Uint256} {posted : List Posted} {p : Posted} :
    p ∈ namedBy prim hash posted ↔ p ∈ posted ∧ prim.txnHash p.txn = hash := by
  unfold namedBy
  rw [List.mem_filter, decide_eq_true_iff]

theorem Posted.Named.mem {prim : Primitives} {offers : List Offer} {p : Posted} (named : p.Named prim offers) :
    p ∈ postedIn offers := by
  have member : p ∈ namedBy prim (prim.txnHash p.txn) (postedIn offers) := by
    rw [named]
    exact List.mem_cons_self
  exact (mem_namedBy.mp member).1

/-- Another transaction with the hash is the same. -/
theorem Posted.Named.eq {prim : Primitives} {offers : List Offer} {p q : Posted} (named : p.Named prim offers)
    (member : q ∈ postedIn offers) (same : prim.txnHash q.txn = prim.txnHash p.txn) : q = p := by
  have listed : q ∈ namedBy prim (prim.txnHash p.txn) (postedIn offers) := mem_namedBy.mpr ⟨member, same⟩
  rw [named] at listed
  exact List.mem_singleton.mp listed

/-- The counts of a chain. -/
theorem count_of_mem {offers : List Offer} {count : Int} (consecutive : Consecutive count offers) {p : Posted}
    (member : p ∈ postedIn offers) : count < p.count ∧ p.count ≤ count + offers.length := by
  induction offers generalizing count with
  | nil => cases member
  | cons offer offers ih =>
    obtain ⟨next, -, consecutive⟩ := consecutive
    rw [List.length_cons, Nat.cast_succ]
    rcases List.mem_append.mp member with own | later
    · have same : p.count = offer.blk.count := by
        unfold Offer.posted at own
        rcases List.mem_append.mp own with own | own
        · obtain ⟨txn, -, rfl⟩ := List.mem_map.mp own
          rfl
        · obtain ⟨txn, -, rfl⟩ := List.mem_map.mp own
          rfl
      omega
    · have bounds := ih consecutive later
      omega

/-! ### What the queries find -/

section Queries

variable {validationDepth : Int} {hash : Uint256} {count cnf : Int} {outputs : List Output} {spent : List Coin}
  {s : Ledger}

/-- The first row of the transaction is there where a coin of it is unspent, and it has its numbers. -/
theorem Stock.Placed.first_unspent (placed : Placed validationDepth hash count cnf outputs spent s.stock) :
    ((s.db.unspents.first fun _ row => decide (row.key.hash = hash)) = none ∧
        ¬∃ i < outputs.length, ({ hash := hash, index := i } : Coin) ∉ spent) ∨
      ∃ entry, (s.db.unspents.first fun _ row => decide (row.key.hash = hash)) = some entry ∧
        entry.2.count = count ∧ entry.2.cnf = cnf ∧
        ∃ i < outputs.length, ({ hash := hash, index := i } : Coin) ∉ spent := by
  cases found : s.db.unspents.first fun _ row => decide (row.key.hash = hash) with
  | none =>
    refine .inl ⟨rfl, ?_⟩
    rintro ⟨i, inside, unspent⟩
    obtain ⟨id, row, known, same⟩ := placed.unspent i inside unspent
    have missed := Table.first_eq_none.mp found id row known
    rw [same] at missed
    exact absurd rfl (of_decide_eq_false missed)
  | some entry =>
    obtain ⟨known, same⟩ := Table.first_eq_some found
    have same := of_decide_eq_true same
    obtain ⟨output, dated, number, unspent⟩ := placed.row entry.1 entry.2 known same
    refine .inr ⟨entry, rfl, dated, number, entry.2.key.index, (List.getElem?_eq_some_iff.mp output).1, ?_⟩
    rw [← same]
    exact unspent

/-- Where a coin of the transaction is unspent, its count is found. -/
theorem Stock.Placed.unspentCount (placed : Placed validationDepth hash count cnf outputs spent s.stock) :
    s.db.unspentCount hash =
      if ∃ i < outputs.length, ({ hash := hash, index := i } : Coin) ∉ spent then count else 0 := by
  unfold Database.unspentCount
  rcases placed.first_unspent with ⟨missed, all⟩ | ⟨entry, found, dated, -, some⟩
  · rw [missed, if_neg all]
    rfl
  · rw [found, if_pos some]
    exact dated

/-- Where all of its coins are spent, its confirmation is found. -/
theorem Stock.Placed.spentConfirmation (placed : Placed validationDepth hash count cnf outputs spent s.stock)
    (nonnull : hash ≠ 0) (all : ∀ i < outputs.length, { hash := hash, index := i } ∈ spent) :
    s.db.spentConfirmation hash = if outputs = [] then 0 else cnf := by
  unfold Database.spentConfirmation
  cases found : (s.db.spendings.toList.filter fun entry => decide (entry.2.key.hash = hash)).head? with
  | none =>
    rw [if_pos]
    · rfl
    · by_contra some
      have first := List.length_pos_iff.mpr some
      obtain ⟨id, row, known, same⟩ := placed.recorded 0 first (all 0 first)
      have none : (id, row) ∉ s.db.spendings.toList.filter fun entry => decide (entry.2.key.hash = hash) := by
        rw [List.head?_eq_none_iff.mp found]
        exact List.not_mem_nil
      refine none (List.mem_filter.mpr ⟨Map.mem_toList.mpr known, decide_eq_true ?_⟩)
      rw [same]
  | some entry =>
    obtain ⟨member, same⟩ := List.mem_filter.mp (List.mem_of_head? found)
    obtain ⟨inside, number⟩ :=
      placed.spending nonnull entry.1 entry.2 (Map.mem_toList.mp member) (of_decide_eq_true same)
    rw [if_neg]
    · exact number
    · rintro rfl
      cases inside

end Queries

/-! ### When the answers are right -/

section Answers

variable {cfg : Config} {offers : List Offer} {unspentIndex : Bool} {node : BlockChain}

/-- A block chain after blocks that were attached one after the other, and are all stored. -/
structure BlockChain.Follows (cfg : Config) (offers : List Offer) (unspentIndex : Bool) (node : BlockChain) : Prop where
  trie : cfg.validationDepth ≠ 0 → unspentIndex = false
  consecutive : Consecutive 0 offers
  run : attachAll cfg.chain cfg.prim cfg.validationDepth offers (Ledger.empty unspentIndex) = .ok () node.ledger
  height : node.tree.trunk.length = offers.length

theorem BlockChain.Follows.tracks (follows : node.Follows cfg offers unspentIndex) (hash : Uint256) :
    Tracks cfg.prim cfg.validationDepth hash (postedIn offers) (spentIn offers) node.ledger.stock :=
  attachAll_tracks (since_empty follows.trie) (tracks_empty follows.trie) le_rfl follows.consecutive follows.run

/-- What has become of the outputs of a transaction. -/
theorem BlockChain.Follows.placed (follows : node.Follows cfg offers unspentIndex) {p : Posted}
    (named : p.Named cfg.prim offers) :
    ∃ cnf, cnf ≠ 0 ∧ node.ledger.db.confirmationCount cnf = p.count ∧ Placed cfg.validationDepth
      (cfg.prim.txnHash p.txn) p.signed cnf p.txn.outputs (spentIn offers) node.ledger.stock := by
  obtain ⟨cnf, row, number, found, dated, placed⟩ := (follows.tracks (cfg.prim.txnHash p.txn)).after p named
  refine ⟨cnf, number, ?_, placed⟩
  have found : node.ledger.db.confirmations.rows[cnf]? = some row := found
  unfold Database.confirmationCount
  rw [found]
  exact dated

theorem Posted.signed_coinbase {p : Posted} (coinbase : p.coinbase = true) : p.signed = -p.count := by
  unfold Posted.signed
  rw [coinbase, if_pos rfl]

theorem Posted.signed_ordinary {p : Posted} (ordinary : p.coinbase = false) : p.signed = p.count := by
  unfold Posted.signed
  rw [ordinary, if_neg Bool.false_ne_true]

theorem Posted.signed_ne {p : Posted} (positive : 0 < p.count) : p.signed ≠ 0 := by
  unfold Posted.signed
  split <;> omega

theorem Posted.signed_le {p : Posted} (positive : 0 < p.count) : p.signed ≤ p.count := by
  unfold Posted.signed
  split <;> omega

/-- The count in the row of a coinbase is not the one of its block. -/
theorem Posted.signed_eq_iff {p : Posted} (positive : 0 < p.count) : p.signed = p.count ↔ p.coinbase = false := by
  cases coinbase : p.coinbase with
  | true =>
    rw [Posted.signed_coinbase coinbase]
    exact iff_of_false (by omega) nofun
  | false => exact iff_of_true (Posted.signed_ordinary coinbase) rfl

/-- **`confirmations` is right exactly for a transaction that is not a coinbase, and for a coinbase whose coins are all
spent.** A transaction without outputs has no rows. -/
theorem BlockChain.confirmations_iff (follows : node.Follows cfg offers unspentIndex) {p : Posted}
    (named : p.Named cfg.prim offers) (nonnull : cfg.prim.txnHash p.txn ≠ 0) (start : Int) :
    node.confirmations (cfg.prim.txnHash p.txn) start = .ok (offers.length - p.count + 1) ↔
      p.txn.outputs ≠ [] ∧ (p.coinbase = true → ∀ i < p.txn.outputs.length,
        { hash := cfg.prim.txnHash p.txn, index := i } ∈ spentIn offers) := by
  obtain ⟨cnf, number, dated, placed⟩ := follows.placed named
  obtain ⟨positive, high⟩ := count_of_mem follows.consecutive named.mem
  have height : node.tree.height = offers.length - 1 := by
    unfold SparseTree.height
    rw [follows.height]
  unfold BlockChain.confirmations
  dsimp only
  rw [placed.unspentCount, height]
  by_cases unspent : ∃ i < p.txn.outputs.length,
      ({ hash := cfg.prim.txnHash p.txn, index := i } : Coin) ∉ spentIn offers
  · have some : p.txn.outputs ≠ [] := by
      rintro empty
      obtain ⟨i, inside, -⟩ := unspent
      rw [empty] at inside
      cases inside
    have signed := Posted.signed_ne positive
    rw [if_pos unspent,
      if_neg (show ¬(p.signed = 0 ∧ node.ledger.db.spentConfirmation (cfg.prim.txnHash p.txn) ≠ 0) from
        fun both => signed both.1), if_pos signed, Except.ok.injEq, and_iff_right some]
    obtain ⟨i, inside, kept⟩ := unspent
    cases coinbase : p.coinbase with
    | true =>
      rw [Posted.signed_coinbase coinbase]
      refine iff_of_false (fun same => ?_) fun all => kept (all rfl i inside)
      omega
    | false =>
      rw [Posted.signed_ordinary coinbase]
      refine iff_of_true ?_ nofun
      omega
  · have all : ∀ i < p.txn.outputs.length, { hash := cfg.prim.txnHash p.txn, index := i } ∈ spentIn offers := by
      intro i inside
      by_contra kept
      exact unspent ⟨i, inside, kept⟩
    rw [if_neg unspent, placed.spentConfirmation nonnull all]
    by_cases empty : p.txn.outputs = []
    · rw [if_pos empty, if_neg (show ¬((0 : Int) = 0 ∧ (0 : Int) ≠ 0) from fun both => both.2 rfl),
        if_neg (not_not.mpr rfl)]
      refine iff_of_false (fun same => ?_) fun both => both.1 empty
      generalize (if start < 0 then (offers.length : Int) - 1 + start else start) = base at same
      split at same
      · cases same
      · have zero := Except.ok.inj same
        omega
    · rw [if_neg empty, if_pos (show (0 : Int) = 0 ∧ cnf ≠ 0 from ⟨rfl, number⟩), dated, if_pos (by omega),
        Except.ok.injEq]
      refine iff_of_true ?_ ⟨empty, fun _ => all⟩
      omega

/-- **`getHeight` is right exactly for a coin that is not of a coinbase.** -/
theorem BlockChain.getHeight_iff (follows : node.Follows cfg offers unspentIndex) {p : Posted}
    (named : p.Named cfg.prim offers) {key : Coin} {output : Output}
    (unspent : p.HasUnspent cfg.prim offers key output) :
    node.getHeight cfg key = p.count - 1 ↔ p.coinbase = false := by
  obtain ⟨cnf, -, -, placed⟩ := follows.placed named
  obtain ⟨positive, high⟩ := count_of_mem follows.consecutive named.mem
  obtain ⟨-, same, there, kept⟩ := unspent
  have inside := (List.getElem?_eq_some_iff.mp there).1
  have whole : key = { hash := cfg.prim.txnHash p.txn, index := key.index } := by
    rw [← same]
  rw [whole] at kept
  unfold BlockChain.getHeight
  by_cases database : cfg.validationDepth = 0
  · rw [if_pos database]
    obtain ⟨id, row, known, rowKey⟩ := placed.unspent key.index inside kept
    have found : node.ledger.db.findUnspent key = some (id, row) := by
      refine Table.first_eq_of_unique known (decide_eq_true (rowKey.trans whole.symm)) fun other row' known' same' => ?_
      refine placed.unique other id row' row known' known ?_ ?_
      · rw [of_decide_eq_true same', same]
      · rw [of_decide_eq_true same', rowKey, ← whole]
    have dated := (placed.row id row known (by rw [rowKey])).2.1
    rw [found]
    show row.count - 1 = _ ↔ _
    rw [dated, sub_left_inj, Posted.signed_eq_iff positive]
  · rw [if_neg database]
    cases found : node.ledger.spendables[key]? with
    | none =>
      refine iff_of_false (fun height => ?_) fun ordinary => ?_
      · have height : (-1 : Int) = p.count - 1 := height
        omega
      · have signed := Posted.signed_ordinary ordinary
        have spendable := placed.spendable database (by omega) key.index inside kept
        rw [← whole] at spendable
        have missing : node.ledger.stock.spendables[key]? = none := found
        rw [missing] at spendable
        cases spendable
    | some unspent =>
      obtain ⟨named', known⟩ := placed.held database key unspent found
      have dated := (placed.row unspent.coin unspent.row known ((congrArg Coin.hash named').trans same)).2.1
      have dated : unspent.count = p.signed := dated
      show unspent.count - 1 = _ ↔ _
      rw [dated, sub_left_inj, Posted.signed_eq_iff positive]

/-- A coin with a script that only one transaction with its hash pays to. -/
theorem Posted.HasUnspent.eq {p q : Posted} {key : Coin} {output output' : Output} (named : p.Named cfg.prim offers)
    (unspent : p.HasUnspent cfg.prim offers key output) (other : q.HasUnspent cfg.prim offers key output') :
    q = p ∧ output' = output := by
  obtain rfl := named.eq other.1 (other.2.1.symm.trans unspent.2.1)
  exact ⟨rfl, Option.some.inj (other.2.2.1.symm.trans unspent.2.2.1)⟩

/-- The rows with a script are the coins with it. -/
theorem BlockChain.Follows.rows (follows : node.Follows cfg offers unspentIndex) {script : Script}
    (apart : ∀ p ∈ postedIn offers, (∃ output ∈ p.txn.outputs, output.script = script) → p.Named cfg.prim offers)
    {key : Coin} {output : Output} (scripted : output.script = script) (count : Int) :
    (∃ (id : Int) (row : UnspentRow), node.ledger.db.unspents.rows[id]? = some row ∧ row.key = key ∧
        row.output = output ∧ row.count = count) ↔
      ∃ p : Posted, p.HasUnspent cfg.prim offers key output ∧ p.signed = count := by
  constructor
  · rintro ⟨id, row, known, rfl, rfl, dated⟩
    obtain ⟨p, member, same, there⟩ := (follows.tracks 0).sourced.rows id row known
    have named := apart p member ⟨row.output, List.mem_of_getElem? there, scripted⟩
    obtain ⟨cnf, -, -, placed⟩ := follows.placed named
    obtain ⟨-, signed, -, kept⟩ := placed.row id row known same
    exact ⟨p, ⟨member, same, there, kept⟩, signed.symm.trans dated⟩
  · rintro ⟨p, ⟨member, same, there, kept⟩, signed⟩
    obtain ⟨cnf, -, -, placed⟩ := follows.placed (apart p member ⟨output, List.mem_of_getElem? there, scripted⟩)
    have whole : key = { hash := cfg.prim.txnHash p.txn, index := key.index } := by
      rw [← same]
    rw [whole] at kept
    obtain ⟨id, row, known, rowKey⟩ := placed.unspent key.index (List.getElem?_eq_some_iff.mp there).1 kept
    obtain ⟨found, dated, -, -⟩ := placed.row id row known (by rw [rowKey])
    rw [← whole] at rowKey
    rw [rowKey] at found
    exact ⟨id, row, known, rowKey, Option.some.inj (found.symm.trans there), dated.trans signed⟩

/-- What `getUnspents` returns for a count, each coin once. -/
theorem BlockChain.Follows.returned (follows : node.Follows cfg offers unspentIndex) {script : Script} {before : Int}
    (apart : ∀ p ∈ postedIn offers, (∃ output ∈ p.txn.outputs, output.script = script) → p.Named cfg.prim offers)
    (positive : 0 < before) (height : before ≤ locktimeThreshold) :
    ∃ unspents, node.getUnspents true script before = .ok unspents ∧ (unspents.map Unspent.key).Nodup ∧
      ∀ key output, (∃ unspent ∈ unspents, unspent.key = key ∧ unspent.output = output) ↔
        script ≠ [] ∧ output.script = script ∧ node.claims.spent key = false ∧
          ∃ p : Posted, p.HasUnspent cfg.prim offers key output ∧ p.signed ≤ before := by
  unfold BlockChain.getUnspents
  rw [if_neg (by decide)]
  dsimp only
  rw [if_neg (by omega)]
  refine ⟨_, rfl, ?_, fun key output => ?_⟩
  · have entries : (node.ledger.db.unspents.select fun _ row => scriptIs script row.output.script).Pairwise
        fun a b => a.1 ≠ b.1 := ((Map.toList_sorted _).imp fun less => less.ne).sublist List.filter_sublist
    refine List.Nodup.sublist ((List.filter_sublist.trans List.filter_sublist).map _) ?_
    rw [List.map_map]
    refine List.pairwise_map.mpr (List.Pairwise.imp_of_mem (fun first second apart' same => ?_) entries)
    obtain ⟨known, selected⟩ := Table.mem_select.mp first
    obtain ⟨known', -⟩ := Table.mem_select.mp second
    have scripted := (of_decide_eq_true selected).2
    obtain ⟨p, member, hash, there⟩ := (follows.tracks 0).sourced.rows _ _ known
    obtain ⟨cnf, -, -, placed⟩ := follows.placed (apart p member ⟨_, List.mem_of_getElem? there, scripted⟩)
    exact apart' (placed.unique _ _ _ _ known known' hash (Eq.symm same))
  · constructor
    · rintro ⟨unspent, member, rfl, rfl⟩
      obtain ⟨member, unclaimed⟩ := List.mem_filter.mp member
      obtain ⟨member, early⟩ := List.mem_filter.mp member
      obtain ⟨⟨id, row⟩, selected, rfl⟩ := List.mem_map.mp member
      obtain ⟨known, matching⟩ := Table.mem_select.mp selected
      obtain ⟨filled, scripted⟩ := of_decide_eq_true matching
      obtain ⟨p, unspent, signed⟩ := (follows.rows apart scripted row.count).mp ⟨id, row, known, rfl, rfl, rfl⟩
      refine ⟨filled, scripted, by simpa using unclaimed, p, unspent, ?_⟩
      rw [signed]
      rw [Bool.not_eq_true', decide_eq_false_iff_not] at early
      exact not_lt.mp early
    · rintro ⟨filled, scripted, unclaimed, p, unspent, early⟩
      obtain ⟨id, row, known, rfl, rfl, dated⟩ := (follows.rows apart scripted p.signed).mpr ⟨p, unspent, rfl⟩
      refine ⟨row.unspent id, ?_, rfl, rfl⟩
      refine List.mem_filter.mpr ⟨List.mem_filter.mpr ⟨List.mem_map.mpr ⟨(id, row), ?_, rfl⟩, ?_⟩, ?_⟩
      · exact Table.mem_select.mpr ⟨known, decide_eq_true ⟨filled, scripted⟩⟩
      · rw [Bool.not_eq_true', decide_eq_false_iff_not]
        show ¬before < row.count
        omega
      · show (!node.claims.spent row.key) = true
        rw [unclaimed]
        rfl

/-- **`getUnspents` is right for a count exactly where no coin of a newer coinbase has the script, and no coin at all if
the script is empty.** Coins that a claim spends are left out. -/
theorem BlockChain.getUnspents_iff (follows : node.Follows cfg offers unspentIndex) {script : Script} {before : Int}
    (apart : ∀ p ∈ postedIn offers, (∃ output ∈ p.txn.outputs, output.script = script) → p.Named cfg.prim offers)
    (positive : 0 < before) (height : before ≤ locktimeThreshold) (scriptIndex : Bool) :
    (∃ unspents, node.getUnspents scriptIndex script before = .ok unspents ∧ (unspents.map Unspent.key).Nodup ∧
      ∀ key output, (∃ unspent ∈ unspents, unspent.key = key ∧ unspent.output = output) ↔
        output.script = script ∧ node.claims.spent key = false ∧
          ∃ p : Posted, p.HasUnspent cfg.prim offers key output ∧ p.count ≤ before) ↔
      scriptIndex = true ∧ ∀ (p : Posted) key output, p.HasUnspent cfg.prim offers key output → output.script = script →
        node.claims.spent key = false →
        if script = [] then before < p.count else p.coinbase = true → p.count ≤ before := by
  cases scriptIndex with
  | false => exact iff_of_false nofun nofun
  | true =>
    obtain ⟨unspents, found, once, rows⟩ := follows.returned apart positive height
    rw [and_iff_right rfl]
    constructor
    · rintro ⟨unspents', found', -, right⟩ p key output unspent scripted unclaimed
      obtain rfl := Except.ok.inj (found.symm.trans found')
      have named := apart p unspent.1 ⟨output, List.mem_of_getElem? unspent.2.2.1, scripted⟩
      have same := (rows key output).symm.trans (right key output)
      split
      · rename_i empty
        by_contra early
        exact (same.mpr ⟨scripted, unclaimed, p, unspent, by omega⟩).1 empty
      · rename_i filled
        intro coinbase
        have signed : p.signed ≤ before := by
          have bounds := count_of_mem follows.consecutive unspent.1
          rw [Posted.signed_coinbase coinbase]
          omega
        obtain ⟨-, -, q, other, early⟩ := same.mp ⟨filled, scripted, unclaimed, p, unspent, signed⟩
        rw [(unspent.eq named other).1] at early
        exact early
    · intro right
      refine ⟨unspents, found, once, fun key output => (rows key output).trans ⟨?_, ?_⟩⟩
      · rintro ⟨filled, scripted, unclaimed, p, unspent, signed⟩
        refine ⟨scripted, unclaimed, p, unspent, ?_⟩
        have old := right p key output unspent scripted unclaimed
        rw [if_neg filled] at old
        cases coinbase : p.coinbase with
        | true => exact old coinbase
        | false => rwa [Posted.signed_ordinary coinbase] at signed
      · rintro ⟨scripted, unclaimed, p, unspent, early⟩
        have old := right p key output unspent scripted unclaimed
        have bounds := count_of_mem follows.consecutive unspent.1
        refine ⟨fun empty => ?_, scripted, unclaimed, p, unspent, ?_⟩
        · rw [if_pos empty] at old
          omega
        · exact (Posted.signed_le bounds.1).trans early

/-- **For every chain of blocks that are attached and stored, `confirmations` is right exactly for a transaction with an
output that is no coinbase with an unspent coin, `getHeight` exactly for a coin that is not of a coinbase, and
`getUnspents` exactly where no unclaimed coin with the script is of a newer coinbase.** An empty script finds no
coin. -/
theorem BlockChain.positions_iff (cfg : Config) (offers : List Offer) (unspentIndex : Bool) (node : BlockChain)
    (follows : node.Follows cfg offers unspentIndex) :
    (∀ (p : Posted) start, p.Named cfg.prim offers → cfg.prim.txnHash p.txn ≠ 0 →
      (node.confirmations (cfg.prim.txnHash p.txn) start = .ok (offers.length - p.count + 1) ↔
        p.txn.outputs ≠ [] ∧ (p.coinbase = true → ∀ i < p.txn.outputs.length,
          { hash := cfg.prim.txnHash p.txn, index := i } ∈ spentIn offers))) ∧
    (∀ (p : Posted) key output, p.Named cfg.prim offers → p.HasUnspent cfg.prim offers key output →
      (node.getHeight cfg key = p.count - 1 ↔ p.coinbase = false)) ∧
    ∀ script before scriptIndex, 0 < before → before ≤ locktimeThreshold →
      (∀ p ∈ postedIn offers, (∃ output ∈ p.txn.outputs, output.script = script) → p.Named cfg.prim offers) →
      ((∃ unspents, node.getUnspents scriptIndex script before = .ok unspents ∧ (unspents.map Unspent.key).Nodup ∧
        ∀ key output, (∃ unspent ∈ unspents, unspent.key = key ∧ unspent.output = output) ↔
          output.script = script ∧ node.claims.spent key = false ∧
            ∃ p : Posted, p.HasUnspent cfg.prim offers key output ∧ p.count ≤ before) ↔
        scriptIndex = true ∧ ∀ (p : Posted) key output, p.HasUnspent cfg.prim offers key output →
          output.script = script → node.claims.spent key = false →
          if script = [] then before < p.count else p.coinbase = true → p.count ≤ before) :=
  ⟨fun _ start named nonnull => confirmations_iff follows named nonnull start,
    fun _ _ _ named unspent => getHeight_iff follows named unspent,
    fun _ _ scriptIndex positive height apart => getUnspents_iff follows apart positive height scriptIndex⟩

end Answers

namespace Small

/-- The coinbase with hash `n` that pays 50 to a script. -/
def minter (n : Nat) : Transaction := { coinbase n [] with outputs := [{ value := 50, script := [1] }] }

/-- The block with the coinbase `10 * n`. -/
def minting (n : Nat) (height : Int) : Offer := offer n height [minter (10 * n)]

/-- A block chain with a ledger after some blocks. -/
def following (offers : List Offer) (s : Ledger) : BlockChain :=
  { tree := { BlockTree.empty with
      trunk := offers.map fun offer => BlockChain.refOf (config 1 0) offer.block offer.block.prevBlock }
    invalidTree := BlockTree.empty, branches := ∅, ledger := s, claims := Claims.empty, purgeDepth := 0
    bestLocator := [], calls := [] }

end Small

open Libcoin.Small

/-- The coinbase of the first of two blocks has 4 confirmations, its coin the height -2, and the coin of the second one
is among those up to the first. -/
theorem BlockChain.positions_coinbase : ∃ node : BlockChain,
    node.Follows (config 1 0) [minting 1 0, minting 2 1] true ∧
      ({ count := 1, coinbase := true, txn := minter 10 } : Posted).Named prim [minting 1 0, minting 2 1] ∧
      node.confirmations 10 (-100) = .ok 4 ∧ node.getHeight (config 1 0) { hash := 10, index := 0 } = -2 ∧
      ∃ unspents, node.getUnspents true [1] 1 = .ok unspents ∧
        unspents.map Unspent.key = [{ hash := 10, index := 0 }, { hash := 20, index := 0 }] := by
  have run : succeeds (attachAll (config 1 0).chain prim 0 [minting 1 0, minting 2 1] (Ledger.empty true))
      (fun _ s => decide ((following [minting 1 0, minting 2 1] s).confirmations 10 (-100) = .ok 4) &&
        decide ((following [minting 1 0, minting 2 1] s).getHeight (config 1 0) { hash := 10, index := 0 } = -2) &&
        decide (((following [minting 1 0, minting 2 1] s).getUnspents true [1] 1).map
          (fun unspents => unspents.map Unspent.key) =
            .ok [{ hash := 10, index := 0 }, { hash := 20, index := 0 }])) = true := by decide +kernel
  obtain ⟨_, s, attached, found⟩ := of_succeeds run
  obtain ⟨both, unspents⟩ := Bool.and_eq_true_iff.mp found
  obtain ⟨confirmations, height⟩ := Bool.and_eq_true_iff.mp both
  refine ⟨following [minting 1 0, minting 2 1] s, ⟨fun trie => absurd rfl trie, ?_, attached, rfl⟩, by decide,
    of_decide_eq_true confirmations, of_decide_eq_true height, ?_⟩
  · exact ⟨rfl, by decide, rfl, by decide, trivial⟩
  · have keys := of_decide_eq_true unspents
    cases returned : (following [minting 1 0, minting 2 1] s).getUnspents true [1] 1 with
    | error fault =>
      rw [returned] at keys
      cases keys
    | ok unspents =>
      rw [returned] at keys
      exact ⟨unspents, rfl, Except.ok.inj keys⟩

/-- A coinbase that was spent, the coin that it was spent for, and a script without coins. -/
theorem BlockChain.positions_spent : ∃ node : BlockChain,
    node.confirmations 10 (-100) = .ok 2 ∧ node.getHeight (config 1 0) { hash := 21, index := 0 } = 1 ∧
      ∃ unspents, node.getUnspents true [1] 1 = .ok unspents ∧ (unspents.map Unspent.key).Nodup := by
  have run : succeeds (attachAll (config 1 0).chain prim 0 [paying 1 0, handing] (Ledger.empty true))
    (fun _ _ => true) = true := by decide +kernel
  obtain ⟨_, s, attached, -⟩ := of_succeeds run
  have follows : (following [paying 1 0, handing] s).Follows (config 1 0) [paying 1 0, handing] true :=
    ⟨fun trie => absurd rfl trie, ⟨rfl, by decide, rfl, by decide, trivial⟩, attached, rfl⟩
  obtain ⟨first, second, third⟩ := BlockChain.positions_iff _ _ _ _ follows
  have spent : ({ hash := 10, index := 0 } : Coin) ∈ spentIn [paying 1 0, handing] := by decide
  refine ⟨following [paying 1 0, handing] s, ?_, ?_, ?_⟩
  · refine (first { count := 1, coinbase := true, txn := minter 10 } (-100) (by decide) (by decide)).mpr
      ⟨by decide, fun _ i inside => ?_⟩
    obtain rfl : i = 0 := Nat.lt_one_iff.mp inside
    exact spent
  · exact (second { count := 2, coinbase := false, txn := spend 21 [(10, 0)] [40] } { hash := 21, index := 0 }
      { value := 40, script := [] } (by decide) ⟨by decide, rfl, rfl, by decide⟩).mpr rfl
  · have apart : ∀ p ∈ postedIn [paying 1 0, handing], (∃ output ∈ p.txn.outputs, output.script = [1]) →
        p.Named (config 1 0).prim [paying 1 0, handing] := by decide
    have newer : ∀ p ∈ postedIn [paying 1 0, handing], 1 < p.count →
      ∀ output ∈ p.txn.outputs, output.script ≠ [1] := by decide
    have none (p : Posted) (key : Coin) (output : Output)
        (unspent : p.HasUnspent (config 1 0).prim [paying 1 0, handing] key output) (scripted : output.script = [1]) :
        p.count ≤ 1 := by
      by_contra late
      exact newer p unspent.1 (not_le.mp late) output (List.mem_of_getElem? unspent.2.2.1) scripted
    obtain ⟨unspents, found, once, -⟩ := (third [1] 1 true (by decide) (by decide) apart).mpr
      ⟨rfl, fun p key output unspent scripted _ => by
        rw [if_neg (by decide)]
        exact fun _ => none p key output unspent scripted⟩
    exact ⟨unspents, found, once⟩

end Libcoin
