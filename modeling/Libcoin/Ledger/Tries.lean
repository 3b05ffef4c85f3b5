/-
The two tries sort the rows of the table.

* `Spends mature c`: no two rows have the same key, and the spendables are exactly the rows that are
  mature. `Sorted mature c`: moreover the immature coinbases are exactly the others.
* Both survive `redeem`, `issue` and `maturate` (`Stable`), as long as no row has the key that is
  issued: a key that is issued again is where the tries and the table part.
* `NoReissue` says that of a list of events; it is a condition on the blocks alone.
-/

import Libcoin.Ledger.Supply

namespace Libcoin

open Exec

namespace Coins

/-- The element has its row in the table. -/
def Holds (c : Coins) (u : Unspent) : Prop := c.unspents.rows[u.coin]? = some u.row

/-- An element is determined by its number and its row. -/
theorem Holds.unique {c : Coins} {u v : Unspent} (first : c.Holds u) (second : c.Holds v)
    (same : u.coin = v.coin) : u = v := by
  unfold Holds at first second
  rw [same, second] at first
  have rows : v.row = u.row := Option.some.inj first
  rw [← u.row_unspent, ← v.row_unspent, rows, same]

/-- The spendables are the rows that are mature. -/
structure Spends (mature : Unspent → Bool) (c : Coins) : Prop where
  unindexed : c.unspentIndex = false
  distinct : ∀ u v, c.Holds u → c.Holds v → u.key = v.key → u = v
  spendable : ∀ (key : Coin) u, c.spendables[key]? = some u ↔
    u.key = key ∧ c.Holds u ∧ mature u = true

/-- The tries sort the rows of the table by `mature`. -/
structure Sorted (mature : Unspent → Bool) (c : Coins) : Prop extends Spends mature c where
  immature : ∀ (key : Coin) u, c.immatureCoinbases[key]? = some u ↔
    u.key = key ∧ c.Holds u ∧ mature u = false

variable {mature : Unspent → Bool} {c : Coins}

/-- Only what `mature` says of the rows matters. -/
theorem Spends.congr (spends : Spends mature c) {mature' : Unspent → Bool}
    (same : ∀ u, c.Holds u → mature u = mature' u) : Spends mature' c := by
  refine ⟨spends.unindexed, spends.distinct, fun key u => ?_⟩
  rw [spends.spendable]
  constructor
  · rintro ⟨stored, held, isMature⟩
    exact ⟨stored, held, same u held ▸ isMature⟩
  · rintro ⟨stored, held, isMature⟩
    exact ⟨stored, held, (same u held).trans isMature⟩

theorem Sorted.congr (sorted : Sorted mature c) {mature' : Unspent → Bool}
    (same : ∀ u, c.Holds u → mature u = mature' u) : Sorted mature' c := by
  refine ⟨sorted.toSpends.congr same, fun key u => ?_⟩
  rw [sorted.immature]
  constructor
  · rintro ⟨stored, held, notMature⟩
    exact ⟨stored, held, same u held ▸ notMature⟩
  · rintro ⟨stored, held, notMature⟩
    exact ⟨stored, held, (same u held).trans notMature⟩

/-- Two sorted states with the same rows have the same tries if they sort by the same rule. -/
theorem Sorted.eq_iff (sorted : Sorted mature c) {mature' : Unspent → Bool} {c' : Coins}
    (sorted' : Sorted mature' c') (table : c'.unspents = c.unspents) :
    c'.spendables = c.spendables ∧ c'.immatureCoinbases = c.immatureCoinbases ↔
      ∀ u, c.Holds u → mature u = mature' u := by
  have holds : ∀ u, c'.Holds u ↔ c.Holds u := fun u => by
    unfold Holds
    rw [table]
  constructor
  · rintro ⟨spendables, -⟩ u held
    have one := sorted.spendable u.key u
    have two := sorted'.spendable u.key u
    rw [spendables] at two
    rw [Bool.eq_iff_iff]
    constructor
    · exact fun isMature => (two.mp (one.mpr ⟨rfl, held, isMature⟩)).2.2
    · exact fun isMature => (one.mp (two.mpr ⟨rfl, (holds u).mpr held, isMature⟩)).2.2
  · intro same
    have again := sorted.congr same
    constructor
    · ext key u
      rw [sorted'.spendable, again.spendable, holds]
    · ext key u
      rw [sorted'.immature, again.immature, holds]

/-! ### Redeeming -/

/-- A spendable coin and its row are removed. -/
def take (c : Coins) (key : Coin) (coin : Int) : Coins :=
  { c with unspents := c.unspents.delete coin, spendables := c.spendables.erase key }

theorem take_holds {u v : Unspent} (held : c.Holds u) :
    (c.take u.key u.coin).Holds v ↔ c.Holds v ∧ v ≠ u := by
  show (c.unspents.rows.erase u.coin)[v.coin]? = some v.row ↔ _
  rw [Map.lookup_erase]
  by_cases same : u.coin = v.coin
  · rw [if_pos same]
    constructor
    · intro absurd
      cases absurd
    · rintro ⟨held', different⟩
      exact absurd (held'.unique held same.symm) different
  · rw [if_neg same]
    exact ⟨fun held' => ⟨held', fun equal => same (congrArg Unspent.coin equal.symm)⟩, And.left⟩

theorem Spends.redeem (spends : Spends mature c) {u : Unspent} {key : Coin}
    (found : c.spendables[key]? = some u) : Spends mature (c.take key u.coin) := by
  obtain ⟨rfl, held, isMature⟩ := (spends.spendable key u).mp found
  refine ⟨spends.unindexed, fun v w first second same => ?_, fun key v => ?_⟩
  · exact spends.distinct v w ((take_holds held).mp first).1 ((take_holds held).mp second).1 same
  · rw [take_holds held]
    show (c.spendables.erase u.key)[key]? = some v ↔ _
    rw [Map.lookup_erase]
    by_cases same : u.key = key
    · rw [if_pos same]
      constructor
      · intro absurd
        cases absurd
      · rintro ⟨key', ⟨held', different⟩, -⟩
        exact absurd (spends.distinct v u held' held (key'.trans same.symm)) different
    · rw [if_neg same, spends.spendable]
      constructor
      · rintro ⟨key', held', isMature'⟩
        exact ⟨key', ⟨held', fun equal => same (equal ▸ key')⟩, isMature'⟩
      · rintro ⟨key', ⟨held', -⟩, isMature'⟩
        exact ⟨key', held', isMature'⟩

theorem Sorted.redeem (sorted : Sorted mature c) {u : Unspent} {key : Coin}
    (found : c.spendables[key]? = some u) : Sorted mature (c.take key u.coin) := by
  refine ⟨sorted.toSpends.redeem found, fun key' v => ?_⟩
  obtain ⟨rfl, held, isMature⟩ := (sorted.spendable key u).mp found
  rw [take_holds held]
  show c.immatureCoinbases[key']? = some v ↔ _
  rw [sorted.immature]
  constructor
  · rintro ⟨same, held', notMature⟩
    refine ⟨same, ⟨held', fun equal => ?_⟩, notMature⟩
    rw [equal, isMature] at notMature
    cases notMature
  · rintro ⟨same, ⟨held', -⟩, notMature⟩
    exact ⟨same, held', notMature⟩

/-! ### Issuing -/

/-- The element that `issue` makes of a row. -/
def issued (c : Coins) (row : UnspentRow) : Unspent := row.unspent c.unspents.nextId

theorem issue_unspents (row : UnspentRow) (coinbase : Bool) :
    (c.issue row coinbase).unspents = c.unspents.insertAuto row := by
  cases coinbase <;> rfl

theorem issue_holds {row : UnspentRow} {coinbase : Bool} {v : Unspent} :
    (c.issue row coinbase).Holds v ↔ c.Holds v ∨ v = c.issued row := by
  unfold Holds
  rw [issue_unspents]
  show (c.unspents.rows.insert c.unspents.nextId row)[v.coin]? = some v.row ↔ _
  rw [Map.lookup_insert]
  by_cases same : c.unspents.nextId = v.coin
  · rw [if_pos same, ← same, Table.nextId_fresh]
    constructor
    · intro equal
      refine .inr ?_
      rw [← v.row_unspent, ← Option.some.inj equal, ← same]
      rfl
    · rintro (absurd | rfl)
      · cases absurd
      · rfl
  · rw [if_neg same]
    exact ⟨.inl, fun either => either.resolve_right fun equal => same (by rw [equal]; rfl)⟩

/-- A trie of the rows with one maturity that gets a new element of this maturity. -/
theorem insertNew_issued {row : UnspentRow} (fresh : ∀ u, c.Holds u → u.key ≠ row.key)
    {tree : Map Coin Unspent} {kind : Bool} (isKind : mature (c.issued row) = kind)
    (rule : ∀ (key : Coin) u, tree[key]? = some u ↔ u.key = key ∧ c.Holds u ∧ mature u = kind)
    (key : Coin) (v : Unspent) :
    (tree.insertNew row.key (c.issued row))[key]? = some v ↔
      v.key = key ∧ (c.Holds v ∨ v = c.issued row) ∧ mature v = kind := by
  have missing : tree[row.key]? = none := by
    cases found : tree[row.key]? with
    | none => rfl
    | some u =>
      obtain ⟨same, held, -⟩ := (rule _ u).mp found
      exact absurd same (fresh u held)
  rw [Map.insertNew_of_fresh missing, Map.lookup_insert]
  by_cases same : row.key = key
  · rw [if_pos same]
    constructor
    · intro equal
      obtain rfl := Option.some.inj equal
      exact ⟨same, .inr rfl, isKind⟩
    · rintro ⟨key', held | rfl, -⟩
      · exact absurd (key'.trans same.symm) (fresh v held)
      · rfl
  · rw [if_neg same, rule]
    constructor
    · rintro ⟨key', held, isKind'⟩
      exact ⟨key', .inl held, isKind'⟩
    · rintro ⟨key', held | rfl, isKind'⟩
      · exact ⟨key', held, isKind'⟩
      · exact absurd key' same

/-- A trie of the rows with one maturity keeps to them when a row of the other is issued. -/
theorem lookup_issued {row : UnspentRow} {tree : Map Coin Unspent} {kind : Bool}
    (other : mature (c.issued row) = !kind)
    (rule : ∀ (key : Coin) u, tree[key]? = some u ↔ u.key = key ∧ c.Holds u ∧ mature u = kind)
    (key : Coin) (v : Unspent) :
    tree[key]? = some v ↔ v.key = key ∧ (c.Holds v ∨ v = c.issued row) ∧ mature v = kind := by
  rw [rule]
  constructor
  · rintro ⟨key', held, isKind⟩
    exact ⟨key', .inl held, isKind⟩
  · rintro ⟨key', held | rfl, isKind⟩
    · exact ⟨key', held, isKind⟩
    · rw [other] at isKind
      cases kind <;> cases isKind

theorem Spends.issue (spends : Spends mature c) {row : UnspentRow} {coinbase : Bool}
    (fresh : ∀ u, c.Holds u → u.key ≠ row.key) (kind : mature (c.issued row) = !coinbase) :
    Spends mature (c.issue row coinbase) := by
  refine ⟨?_, fun u v first second same => ?_, fun key v => ?_⟩
  · cases coinbase <;> exact spends.unindexed
  · rcases issue_holds.mp first with held | rfl
    · rcases issue_holds.mp second with held' | rfl
      · exact spends.distinct u v held held' same
      · exact absurd same (fresh u held)
    · rcases issue_holds.mp second with held' | rfl
      · exact absurd same.symm (fresh v held')
      · rfl
  · rw [issue_holds]
    cases coinbase with
    | true => exact lookup_issued kind spends.spendable key v
    | false => exact insertNew_issued fresh kind spends.spendable key v

theorem Sorted.issue (sorted : Sorted mature c) {row : UnspentRow} {coinbase : Bool}
    (fresh : ∀ u, c.Holds u → u.key ≠ row.key) (kind : mature (c.issued row) = !coinbase) :
    Sorted mature (c.issue row coinbase) := by
  refine ⟨sorted.toSpends.issue fresh kind, fun key v => ?_⟩
  rw [issue_holds]
  cases coinbase with
  | true => exact insertNew_issued fresh kind sorted.immature key v
  | false => exact lookup_issued kind sorted.immature key v

/-! ### Maturing -/

theorem Spends.promote (spends : Spends mature c) {u : Unspent} (held : c.Holds u) :
    Spends (fun v => mature v || decide (v = u)) (c.promote u) := by
  refine ⟨spends.unindexed, spends.distinct, fun key v => ?_⟩
  show (c.spendables.insertNew u.key u)[key]? = some v ↔ v.key = key ∧ c.Holds v ∧ _
  rw [Map.lookup_insertNew, Bool.or_eq_true, decide_eq_true_eq]
  by_cases same : u.key = key
  · subst same
    rw [if_pos rfl]
    -- an element under this key is `u` itself
    have stored : (c.spendables[u.key]?).getD u = u := by
      cases found : c.spendables[u.key]? with
      | none => rfl
      | some w =>
        obtain ⟨key', held', -⟩ := (spends.spendable _ w).mp found
        exact spends.distinct w u held' held key'
    rw [stored]
    constructor
    · intro equal
      obtain rfl := Option.some.inj equal
      exact ⟨rfl, held, .inr rfl⟩
    · rintro ⟨key', held', -⟩
      rw [spends.distinct v u held' held key']
  · rw [if_neg same, spends.spendable]
    constructor
    · rintro ⟨key', held', isMature⟩
      exact ⟨key', held', .inl isMature⟩
    · rintro ⟨key', held', isMature | rfl⟩
      · exact ⟨key', held', isMature⟩
      · exact absurd key' same

theorem Sorted.promote (sorted : Sorted mature c) {u : Unspent} (held : c.Holds u) :
    Sorted (fun v => mature v || decide (v = u)) (c.promote u) := by
  refine ⟨sorted.toSpends.promote held, fun key v => ?_⟩
  show (c.immatureCoinbases.erase u.key)[key]? = some v ↔ v.key = key ∧ c.Holds v ∧ _
  rw [Map.lookup_erase, Bool.or_eq_false_iff, decide_eq_false_iff_not]
  by_cases same : u.key = key
  · rw [if_pos same]
    constructor
    · intro absurd
      cases absurd
    · rintro ⟨key', held', -, different⟩
      exact absurd (sorted.distinct v u held' held (key'.trans same.symm)) different
  · rw [if_neg same, sorted.immature]
    constructor
    · rintro ⟨key', held', notMature⟩
      exact ⟨key', held', notMature, fun equal => same (equal ▸ key')⟩
    · rintro ⟨key', held', notMature, -⟩
      exact ⟨key', held', notMature⟩

/-- An invariant of the coins that says what is spendable, and that `redeem`, `issue` and a coinbase
that matures keep. -/
structure Stable (Inv : (Unspent → Bool) → Coins → Prop) : Prop where
  spends : ∀ {mature c}, Inv mature c → c.Spends mature
  congr : ∀ {mature mature' c}, Inv mature c → (∀ u, c.Holds u → mature u = mature' u) → Inv mature' c
  redeem : ∀ {mature c u} {key : Coin}, Inv mature c → c.spendables[key]? = some u →
    Inv mature (c.take key u.coin)
  issue : ∀ {mature c row coinbase}, Inv mature c → (∀ u, c.Holds u → u.key ≠ row.key) →
    mature (c.issued row) = !coinbase → Inv mature (c.issue row coinbase)
  promote : ∀ {mature c u}, Inv mature c → c.Holds u →
    Inv (fun v => mature v || decide (v = u)) (c.promote u)

theorem stable_spends : Stable Spends where
  spends spends := spends
  congr spends := spends.congr
  redeem spends := spends.redeem
  issue spends := spends.issue
  promote spends := spends.promote

theorem stable_sorted : Stable Sorted where
  spends sorted := sorted.toSpends
  congr sorted := sorted.congr
  redeem sorted := sorted.redeem
  issue sorted := sorted.issue
  promote sorted := sorted.promote

section Stable

variable {Inv : (Unspent → Bool) → Coins → Prop}

theorem Stable.promoteAll (stable : Stable Inv) (inv : Inv mature c) (unspents : List Unspent)
    (held : ∀ u ∈ unspents, c.Holds u) :
    Inv (fun v => mature v || decide (v ∈ unspents)) (unspents.foldl Coins.promote c) ∧
      (unspents.foldl Coins.promote c).unspents = c.unspents := by
  induction unspents generalizing c mature with
  | nil => exact ⟨stable.congr inv fun u _ => by simp, rfl⟩
  | cons u unspents ih =>
    obtain ⟨rest, table⟩ := ih (stable.promote inv (held u List.mem_cons_self))
      fun v member => held v (List.mem_cons_of_mem _ member)
    refine ⟨stable.congr rest fun v _ => ?_, table⟩
    rw [Bool.or_assoc, ← Bool.decide_or]
    simp only [List.mem_cons]

/-- The coinbase with a count becomes mature. -/
theorem Stable.maturate (stable : Stable Inv) (inv : Inv mature c) (count : Int) :
    Inv (fun v => mature v || decide (v.count = -count))
        ((c.coinbaseOf count).foldl Coins.promote c) ∧
      ((c.coinbaseOf count).foldl Coins.promote c).unspents = c.unspents := by
  obtain ⟨inv', table⟩ := stable.promoteAll inv (c.coinbaseOf count) (coinbaseOf_rows c count)
  refine ⟨stable.congr inv' fun v held => ?_, table⟩
  have held' : c.Holds v := by
    unfold Holds at held ⊢
    rwa [table] at held
  have member : v ∈ c.coinbaseOf count ↔ v.count = -count := by
    unfold coinbaseOf
    rw [List.mem_map]
    constructor
    · rintro ⟨⟨coin, row⟩, selected, rfl⟩
      exact of_decide_eq_true (Table.mem_select.mp selected).2
    · intro counted
      exact ⟨(v.coin, v.row), Table.mem_select.mpr ⟨held', decide_eq_true counted⟩, v.row_unspent⟩
  simp only [member]

end Stable

end Coins

/-! ### Keys that are issued once -/

/-- The keys of the rows after a list of events, where they were `live` before. -/
def liveAfter : List Coin → List Event → List Coin
  | live, [] => live
  | live, .redeemed coin :: events => liveAfter (live.filter (· ≠ coin)) events
  | live, .issued coin :: events => liveAfter (coin :: live) events

/-- No coin is issued whose key a row has. -/
def NoReissue : List Coin → List Event → Prop
  | _, [] => True
  | live, .redeemed coin :: events => NoReissue (live.filter (· ≠ coin)) events
  | live, .issued coin :: events => coin ∉ live ∧ NoReissue (coin :: live) events

instance decidableNoReissue : ∀ live events, Decidable (NoReissue live events)
  | _, [] => isTrue trivial
  | live, .redeemed coin :: events => decidableNoReissue (live.filter (· ≠ coin)) events
  | live, .issued coin :: events =>
    have := decidableNoReissue (coin :: live) events
    inferInstanceAs (Decidable (coin ∉ live ∧ NoReissue (coin :: live) events))

theorem liveAfter_append (live : List Coin) (first second : List Event) :
    liveAfter live (first ++ second) = liveAfter (liveAfter live first) second := by
  induction first generalizing live with
  | nil => rfl
  | cons event first ih =>
    cases event with
    | redeemed coin => exact ih _
    | issued coin => exact ih _

theorem noReissue_append (live : List Coin) (first second : List Event) :
    NoReissue live (first ++ second) ↔ NoReissue live first ∧ NoReissue (liveAfter live first) second := by
  induction first generalizing live with
  | nil => exact (true_and _).symm.to_iff
  | cons event first ih =>
    cases event with
    | redeemed coin => exact ih _
    | issued coin =>
      show coin ∉ live ∧ NoReissue (coin :: live) (first ++ second) ↔ _
      rw [ih, ← and_assoc]
      rfl

/-- The invariant of a run in trie mode: the tries are in order, `live` are the keys of the rows, and
every row is good. -/
structure Accounts (Inv : (Unspent → Bool) → Coins → Prop) (mature : Int → Bool)
    (good : Unspent → Prop) (live : List Coin) (c : Coins) : Prop where
  sorted : Inv (fun u => mature u.count) c
  live : ∀ key, (∃ u, c.Holds u ∧ u.key = key) ↔ key ∈ live
  rows : ∀ u, c.Holds u → good u

/-- Only the set of the keys matters, and only what is said of the rows. -/
theorem Accounts.congr {Inv : (Unspent → Bool) → Coins → Prop} {mature : Int → Bool}
    {good good' : Unspent → Prop} {live live' : List Coin} {c : Coins}
    (accounts : Accounts Inv mature good live c) (same : ∀ key, key ∈ live ↔ key ∈ live')
    (weaker : ∀ u, c.Holds u → good u → good' u) : Accounts Inv mature good' live' c :=
  { sorted := accounts.sorted
    live := fun key => (accounts.live key).trans (same key)
    rows := fun u held => weaker u held (accounts.rows u held) }

section Accounts

variable {Inv : (Unspent → Bool) → Coins → Prop} {env : Setting} {s s' : Ledger} {mature : Int → Bool}
  {good : Unspent → Prop} {live : List Coin}

theorem redeem_accounts (stable : Coins.Stable Inv) (trie : env.validationDepth ≠ 0)
    (accounts : Accounts Inv mature good live s.coins)
    {input : Input} {iidx : Int} {iconf : Confirmation} {coin : Unspent}
    (run : redeem env input iidx iconf s = .ok coin s') :
    Accounts Inv mature good (live.filter (· ≠ input.prevout)) s'.coins := by
  obtain ⟨found, -, after⟩ := redeem_coins_trie trie run
  have taken : s'.coins = s.coins.take input.prevout coin.coin := after
  have sorted := stable.redeem accounts.sorted found
  obtain ⟨key, held, -⟩ := ((stable.spends accounts.sorted).spendable _ _).mp found
  rw [taken]
  refine ⟨sorted, fun key' => ?_, fun u held' => ?_⟩
  · rw [List.mem_filter, ← accounts.live, decide_eq_true_eq, ← key]
    constructor
    · rintro ⟨u, held', rfl⟩
      obtain ⟨old, different⟩ := (Coins.take_holds held).mp held'
      exact ⟨⟨u, old, rfl⟩, fun same => different ((stable.spends accounts.sorted).distinct u coin old held same)⟩
    · rintro ⟨⟨u, old, rfl⟩, different⟩
      exact ⟨u, (Coins.take_holds held).mpr ⟨old, fun same => different (congrArg Unspent.key same)⟩, rfl⟩
  · rw [← key] at held'
    exact accounts.rows u ((Coins.take_holds held).mp held').1

theorem redeemAll_accounts (stable : Coins.Stable Inv) (trie : env.validationDepth ≠ 0)
    (accounts : Accounts Inv mature good live s.coins) {conf : Confirmation} {inputs : List Input}
    {idx : Nat} {valueIn : Int} {op : NameOperation} {scripts : List Script}
    {result : Int × NameOperation × List Script}
    (run : redeemAll env conf inputs idx valueIn op scripts s = .ok result s') :
    Accounts Inv mature good
      (liveAfter live (inputs.map fun input => .redeemed input.prevout)) s'.coins := by
  induction inputs generalizing s idx valueIn op scripts live with
  | nil =>
    obtain ⟨-, rfl⟩ := pure_ok.mp run
    exact accounts
  | cons input inputs ih =>
    unfold redeemAll at run
    obtain ⟨coin, one, redeemed, run⟩ := bind_ok.mp run
    obtain ⟨op, two, named, run⟩ := bind_ok.mp run
    have same : two.coins = one.coins := (nameInput_keeps _ _).ok named
    have next := redeem_accounts stable trie accounts redeemed
    rw [← same] at next
    exact ih next run

/-- The count of the rows of a confirmation. -/
def Confirmation.signed (conf : Confirmation) : Int :=
  if conf.isCoinbase then -conf.count else conf.count

/-- A number that is not negative is of no coinbase. -/
theorem Confirmation.signed_ordinary {conf : Confirmation} (number : 0 ≤ conf.cnf) :
    conf.isCoinbase = false ∧ conf.signed = conf.count := by
  have ordinary : conf.isCoinbase = false := decide_eq_false (not_lt.mpr number)
  unfold Confirmation.signed
  rw [ordinary, if_neg Bool.false_ne_true]
  exact ⟨rfl, rfl⟩

theorem Confirmation.signed_coinbase {conf : Confirmation} (number : conf.cnf < 0) :
    conf.isCoinbase = true ∧ conf.signed = -conf.count := by
  have coinbase : conf.isCoinbase = true := decide_eq_true number
  unfold Confirmation.signed
  rw [coinbase, if_pos rfl]
  exact ⟨rfl, rfl⟩

theorem issue_accounts (stable : Coins.Stable Inv) (trie : env.validationDepth ≠ 0)
    (accounts : Accounts Inv mature good live s.coins)
    {output : Output} {hash : Uint256} {outIdx : Nat} {conf : Confirmation} {unique : Bool} {coin : Int}
    (fresh : { hash := hash, index := outIdx } ∉ live)
    (kind : mature conf.signed = !conf.isCoinbase)
    (new : ∀ coin, good ((issueRow output hash outIdx conf).unspent coin))
    (run : issue env output hash outIdx conf unique s = .ok coin s') :
    Accounts Inv mature good ({ hash := hash, index := outIdx } :: live) s'.coins := by
  obtain ⟨after, -⟩ := issue_coins_trie trie (stable.spends accounts.sorted).unindexed run
  have apart : ∀ u, s.coins.Holds u → u.key ≠ (issueRow output hash outIdx conf).key :=
    fun u held same => fresh ((accounts.live _).mp ⟨u, held, same⟩)
  rw [after]
  refine ⟨stable.issue accounts.sorted apart kind, fun key => ?_, fun u held => ?_⟩
  · rw [List.mem_cons, ← accounts.live]
    constructor
    · rintro ⟨u, held, rfl⟩
      rcases Coins.issue_holds.mp held with old | rfl
      · exact .inr ⟨u, old, rfl⟩
      · exact .inl rfl
    · rintro (rfl | ⟨u, old, rfl⟩)
      · exact ⟨_, Coins.issue_holds.mpr (.inr rfl), rfl⟩
      · exact ⟨u, Coins.issue_holds.mpr (.inl old), rfl⟩
  · rcases Coins.issue_holds.mp held with old | rfl
    · exact accounts.rows u old
    · exact new _

theorem issueAll_accounts (stable : Coins.Stable Inv) (trie : env.validationDepth ≠ 0)
    (accounts : Accounts Inv mature good live s.coins) {version : Int} {hash : Uint256}
    {conf : Confirmation} {outputs : List Output} {idx : Nat} {op op' : NameOperation}
    (fresh : NoReissue live ((issuedCoins hash outputs idx).map .issued))
    (kind : mature conf.signed = !conf.isCoinbase)
    (new : ∀ output i coin, i < idx + outputs.length → good ((issueRow output hash i conf).unspent coin))
    (run : issueAll env version hash conf outputs idx op s = .ok op' s') :
    Accounts Inv mature good (liveAfter live ((issuedCoins hash outputs idx).map .issued)) s'.coins := by
  induction outputs generalizing s idx op live with
  | nil =>
    obtain ⟨-, rfl⟩ := pure_ok.mp run
    exact accounts
  | cons output outputs ih =>
    unfold issueAll at run
    obtain ⟨coin, one, issued, run⟩ := bind_ok.mp run
    obtain ⟨op, two, named, run⟩ := bind_ok.mp run
    rw [List.length_cons] at new
    have same : two.coins = one.coins := (nameOutput_keeps coins_names _ _ _ _ _).ok named
    have next := issue_accounts stable trie accounts fresh.1 kind (fun coin => new _ _ coin (by omega)) issued
    rw [← same] at next
    exact ih next fresh.2 (fun output i coin within => new output i coin (by omega)) run

theorem issueCoinbase_accounts (stable : Coins.Stable Inv) (trie : env.validationDepth ≠ 0)
    (accounts : Accounts Inv mature good live s.coins) {hash : Uint256} {conf : Confirmation}
    {unique : Bool} {outputs : List Output} {idx : Nat} {done : Unit}
    (fresh : NoReissue live ((issuedCoins hash outputs idx).map .issued))
    (kind : mature conf.signed = !conf.isCoinbase)
    (new : ∀ output i coin, i < idx + outputs.length → good ((issueRow output hash i conf).unspent coin))
    (run : issueCoinbase env hash conf unique outputs idx s = .ok done s') :
    Accounts Inv mature good (liveAfter live ((issuedCoins hash outputs idx).map .issued)) s'.coins := by
  induction outputs generalizing s idx live with
  | nil =>
    obtain ⟨-, rfl⟩ := pure_ok.mp run
    exact accounts
  | cons output outputs ih =>
    unfold issueCoinbase at run
    obtain ⟨coin, one, issued, run⟩ := bind_ok.mp run
    rw [List.length_cons] at new
    exact ih (issue_accounts stable trie accounts fresh.1 kind (fun coin => new _ _ coin (by omega)) issued)
      fresh.2 (fun output i coin within => new output i coin (by omega)) run

end Accounts

/-! ### Numbers of confirmations -/

/-- Transactions get positive numbers, and no number is below `-n`. -/
structure Confirmed (n : Int) (t : Table ConfirmationRow) : Prop where
  seq : 0 ≤ t.seq
  low : ∀ (cnf : Int) row, t.rows[cnf]? = some row → -n ≤ cnf

/-- The table of confirmations. -/
def Ledger.confirmations (s : Ledger) : Table ConfirmationRow := s.db.confirmations

theorem confirmations_blocks : KeepsBlocks Ledger.confirmations where
  block _ _ := insertUnless_keeps fun _ _ => rfl
  auxProofOfWork _ := insert_keeps fun _ _ => rfl

theorem confirmations_unspents : KeepsUnspents Ledger.confirmations where
  insert _ := insertUnless_keeps fun _ _ => rfl
  replace _ := insert_keeps fun _ _ => rfl
  delete _ := keeps_modify fun _ => rfl

theorem confirmations_spendings : KeepsSpendings Ledger.confirmations :=
  fun _ _ => insertUnless_keeps fun _ _ => rfl

theorem confirmations_names : KeepsNames Ledger.confirmations := fun _ => insertUnless_keeps fun _ _ => rfl

theorem confirmations_spendables : KeepsSpendables Ledger.confirmations := fun _ _ => rfl

theorem confirmations_immature : KeepsImmature Ledger.confirmations := fun _ _ => rfl

section Confirmed

variable {env : Setting} {s s' : Ledger} {n : Int}

theorem confirm_number (confirmed : Confirmed n s.confirmations) (low : 0 ≤ n) {txn : Transaction}
    {count idx cnf : Int} (run : confirm env txn count idx s = .ok cnf s') :
    0 < cnf ∧ Confirmed n s'.confirmations := by
  unfold confirm at run
  split at run
  · obtain ⟨rfl, rfl⟩ := Prod.mk.inj (query_ok.mp run)
    have above := s.confirmations.seq_lt_nextId
    have seq := confirmed.seq
    refine ⟨by show 0 < s.confirmations.nextId; omega, ⟨?_, fun cnf row stored => ?_⟩⟩
    · show 0 ≤ s.confirmations.nextId
      omega
    · have found : (s.confirmations.rows.insert s.confirmations.nextId _)[cnf]? = some row := stored
      rw [Map.lookup_insert] at found
      split at found
      · omega
      · exact confirmed.low cnf row found
  · obtain ⟨rfl, rfl⟩ := pure_ok.mp run
    exact ⟨by decide, confirmed⟩

theorem confirmCoinbase_number (confirmed : Confirmed n s.confirmations)
    {txn : Transaction} {count cnf : Int} (above : n < count)
    (run : confirmCoinbase env txn count s = .ok cnf s') :
    cnf = -count ∧ Confirmed count s'.confirmations := by
  unfold confirmCoinbase at run
  split at run
  · have free : s.db.confirmations.rows[-count]? = none := by
      cases stored : s.db.confirmations.rows[-count]? with
      | none => rfl
      | some row =>
        have bound := confirmed.low _ row stored
        omega
    have inserted := query_ok.mp run
    unfold Ledger.afterQuery Database.insertConfirmationAt at inserted
    rw [Map.contains_of_absent free] at inserted
    obtain ⟨rfl, rfl⟩ := Prod.mk.inj inserted
    have seq := confirmed.seq
    refine ⟨rfl, ⟨?_, fun cnf row stored => ?_⟩⟩
    · show 0 ≤ max s.confirmations.seq (-count)
      omega
    · have found : (s.confirmations.rows.insert (-count) _)[cnf]? = some row := stored
      rw [Map.lookup_insert] at found
      split at found
      · omega
      · have bound := confirmed.low cnf row found
        omega
  · obtain ⟨rfl, rfl⟩ := pure_ok.mp run
    refine ⟨rfl, confirmed.seq, fun cnf row stored => ?_⟩
    have bound := confirmed.low cnf row stored
    omega

end Confirmed

/-! ### Blocks in trie mode -/

/-- Whether a count is mature after `n` blocks: those of transactions, and those that `maturate` has
been called for. The block with height `n` has the count `n + 1`. -/
def matured (maturity : Int → Int) : Nat → Int → Bool
  | 0, count => decide (0 < count)
  | n + 1, count => matured maturity n count ||
      decide (maturity n < n + 1 ∧ count = -((n : Int) + 1 - maturity n + 1))

theorem matured_succ (maturity : Int → Int) (n : Nat) (count : Int) :
    matured maturity (n + 1) count = (matured maturity n count ||
      decide (maturity n < n + 1 ∧ count = -((n : Int) + 1 - maturity n + 1))) := rfl

theorem matured_of_pos (maturity : Int → Int) (n : Nat) {count : Int} (positive : 0 < count) :
    matured maturity n count = true := by
  induction n with
  | zero => exact decide_eq_true positive
  | succ n ih => rw [matured_succ, ih, Bool.true_or]

/-- Only coinbases up to now mature. -/
theorem matured_low {maturity : Int → Int} (positive : ∀ height, 1 ≤ maturity height) {n : Nat}
    {count : Int} (isMature : matured maturity n count = true) : -(n : Int) ≤ count := by
  induction n with
  | zero =>
    have pos := of_decide_eq_true isMature
    omega
  | succ n ih =>
    rw [matured_succ, Bool.or_eq_true, decide_eq_true_eq] at isMature
    have one := positive n
    rcases isMature with before | ⟨-, now⟩
    · have bound := ih before
      omega
    · omega

/-- The coinbase of the next block has not matured. -/
theorem matured_next {maturity : Int → Int} (positive : ∀ height, 1 ≤ maturity height) (n : Nat) :
    matured maturity n (-((n : Int) + 1)) = false := by
  by_contra isMature
  have low := matured_low positive (Bool.not_eq_false _ ▸ isMature)
  omega

/-- With a constant maturity the window has passed over the counts from 2 on. -/
theorem matured_const {maturity : Int → Int} {m : Int} (constant : ∀ height, maturity height = m)
    (positive : 1 ≤ m) (n : Nat) {count : Int} (negative : count < 0) :
    matured maturity n count = true ↔ 2 ≤ -count ∧ -count ≤ n - m + 1 := by
  induction n with
  | zero =>
    show decide (0 < count) = true ↔ _
    rw [decide_eq_true_eq]
    omega
  | succ n ih =>
    rw [matured_succ, Bool.or_eq_true, ih, decide_eq_true_eq, constant]
    push_cast
    omega

/-- A row that a block with a count can issue, from a transaction of the block. -/
def IssuedBy (prim : Primitives) (count : Int) (transactions : List Transaction) (u : Unspent) : Prop :=
  ∃ txn ∈ transactions, u.key.hash = prim.txnHash txn ∧ u.key.index < txn.outputs.length ∧
    (u.count = count ∧ 0 < u.cnf ∨ u.count = -count ∧ u.cnf = -count)

section Blocks

variable {Inv : (Unspent → Bool) → Coins → Prop} {env : Setting} {s s' : Ledger}
  {good : Unspent → Prop} {live : List Coin} {n : Nat}

theorem postTransaction_accounts (stable : Coins.Stable Inv) (trie : env.validationDepth ≠ 0)
    (accounts : Accounts Inv (matured env.chain.maturity n) good live s.coins)
    (confirmed : Confirmed n s.confirmations) {txn : Transaction} {fees minFee fees' : Int} {blk : Blk}
    {idx : Int} {verify : Bool} (count : blk.count = n + 1)
    (new : ∀ u, IssuedBy env.prim (n + 1) [txn] u → good u)
    (fresh : NoReissue live (txn.redeems ++ txn.issues env.prim))
    (run : postTransaction env txn fees minFee blk idx verify s = .ok fees' s') :
    Accounts Inv (matured env.chain.maturity n) good
        (liveAfter live (txn.redeems ++ txn.issues env.prim)) s'.coins ∧
      Confirmed n s'.confirmations := by
  obtain ⟨cnf, one, _, valueIn, op, scripts, two, _, confirming, redeemed, -, -, -, issued⟩ :=
    postTransaction_ok run
  obtain ⟨positive, confirmed⟩ := confirm_number confirmed (by omega) confirming
  have first : one.coins = s.coins := (confirm_keeps coins_confirmations _ _ _).ok confirming
  rw [← first] at accounts
  have next := redeemAll_accounts stable trie accounts redeemed
  have kept : two.confirmations = one.confirmations := (redeemAll_keeps confirmations_unspents
    confirmations_spendings confirmations_spendables _ _ _ _ _ _).ok redeemed
  have pushed := pushed_coins verify
    { scripts := scripts, txn := txn
      strictPayToScriptHash := decide (env.chain.timeStamp16 < blk.time) } two
  rw [← pushed] at next
  rw [noReissue_append] at fresh
  obtain ⟨kind, signed⟩ := @Confirmation.signed_ordinary { cnf := cnf, count := blk.count } positive.le
  have signed := signed.trans count
  have last := issueAll_accounts stable trie next fresh.2
    (by rw [kind, signed]; exact matured_of_pos _ _ (by omega))
    (fun output i coin within => new _
      ⟨txn, List.mem_singleton_self txn, rfl, by rw [Nat.zero_add] at within; exact within,
        .inl ⟨signed, positive⟩⟩) issued
  have kept' := (issueAll_keeps confirmations_unspents confirmations_names confirmations_spendables
    _ _ _ _ _ _ fun _ => confirmations_immature).ok issued
  rw [liveAfter_append]
  refine ⟨last, ?_⟩
  rw [kept']
  have same : (two.pushed verify
    { scripts := scripts, txn := txn
      strictPayToScriptHash := decide (env.chain.timeStamp16 < blk.time) }).confirmations =
      two.confirmations := by
    cases verify <;> rfl
  rw [same, kept]
  exact confirmed

theorem postAll_accounts (stable : Coins.Stable Inv) (trie : env.validationDepth ≠ 0)
    (accounts : Accounts Inv (matured env.chain.maturity n) good live s.coins)
    (confirmed : Confirmed n s.confirmations) {blk : Blk} (count : blk.count = n + 1)
    {txns : List Transaction} {idx fees : Int} {verify : Bool} {unconfirmed : Txns}
    {confirmedHashes : Hashes} {result : Int × Txns × Hashes}
    (new : ∀ u, IssuedBy env.prim (n + 1) txns u → good u)
    (fresh : NoReissue live (txns.flatMap fun txn => txn.redeems ++ txn.issues env.prim))
    (run : postAll env blk txns idx fees verify unconfirmed confirmedHashes s = .ok result s') :
    Accounts Inv (matured env.chain.maturity n) good
        (liveAfter live (txns.flatMap fun txn => txn.redeems ++ txn.issues env.prim)) s'.coins ∧
      Confirmed n s'.confirmations := by
  induction txns generalizing s idx fees verify unconfirmed confirmedHashes live with
  | nil =>
    obtain ⟨-, rfl⟩ := pure_ok.mp run
    exact ⟨accounts, confirmed⟩
  | cons txn txns ih =>
    unfold postAll at run
    obtain ⟨fees', one, posted, run⟩ := bind_ok.mp run
    rw [List.flatMap_cons, noReissue_append] at fresh
    rw [List.flatMap_cons, liveAfter_append]
    have first (u) (issued : IssuedBy env.prim (n + 1) [txn] u) : good u := by
      obtain ⟨only, member, issued⟩ := issued
      exact new u ⟨only, List.mem_cons.mpr (.inl (List.mem_singleton.mp member)), issued⟩
    have later (u) (issued : IssuedBy env.prim (n + 1) txns u) : good u := by
      obtain ⟨other, member, issued⟩ := issued
      exact new u ⟨other, List.mem_cons_of_mem _ member, issued⟩
    obtain ⟨accounts, confirmed⟩ :=
      postTransaction_accounts stable trie accounts confirmed count first fresh.1 posted
    exact ih accounts confirmed later fresh.2 run

theorem maturateNext_accounts (stable : Coins.Stable Inv) (trie : 0 < env.validationDepth) {blk : Blk}
    (accounts : Accounts Inv (matured env.chain.maturity n) good live s.coins)
    (height : blk.height = n) {done : Unit} (run : maturateNext env blk s = .ok done s') :
    Accounts Inv (matured env.chain.maturity (n + 1)) good live s'.coins := by
  have count : blk.count = n + 1 := by
    unfold Blk.count
    rw [height]
    omega
  unfold maturateNext at run
  rw [count, height] at run
  by_cases due : env.chain.maturity n < n + 1
  · rw [if_pos ⟨trie, due⟩] at run
    have after := maturate_coins (by omega) run
    obtain ⟨sorted, table⟩ := stable.maturate accounts.sorted ((n : Int) + 1 - env.chain.maturity n + 1)
    rw [← after] at sorted table
    have holds : ∀ u, s'.coins.Holds u ↔ s.coins.Holds u := fun u => by
      unfold Coins.Holds
      rw [table]
    refine ⟨stable.congr sorted fun u _ => ?_, fun key => ?_, fun u held => ?_⟩
    · rw [matured_succ]
      simp only [due, true_and]
    · simp only [holds]
      exact accounts.live key
    · exact accounts.rows u ((holds u).mp held)
  · rw [if_neg fun both => due both.2] at run
    obtain ⟨-, rfl⟩ := pure_ok.mp run
    refine ⟨stable.congr accounts.sorted fun u _ => ?_, accounts.live, accounts.rows⟩
    rw [matured_succ]
    simp only [due, false_and, decide_false, Bool.or_false]

theorem postSubsidy_accounts (stable : Coins.Stable Inv) (trie : 0 < env.validationDepth)
    (positive : ∀ height, 1 ≤ env.chain.maturity height)
    (accounts : Accounts Inv (matured env.chain.maturity n) good live s.coins)
    (confirmed : Confirmed n s.confirmations) {txn : Transaction} {blk : Blk} {fees : Int} {done : Unit}
    (height : blk.height = n) (new : ∀ u, IssuedBy env.prim (n + 1) [txn] u → good u)
    (fresh : NoReissue live (txn.issues env.prim))
    (run : postSubsidy env txn blk fees s = .ok done s') :
    Accounts Inv (matured env.chain.maturity (n + 1)) good (liveAfter live (txn.issues env.prim)) s'.coins ∧
      Confirmed (n + 1) s'.confirmations := by
  have count : blk.count = n + 1 := by
    unfold Blk.count
    rw [height]
    omega
  obtain ⟨cnf, input, one, two, three, -, -, -, confirming, -, recorded, issued, maturing⟩ :=
    postSubsidy_ok run
  obtain ⟨rfl, confirmed⟩ := confirmCoinbase_number confirmed (by omega) confirming
  have first : one.coins = s.coins := (confirmCoinbase_keeps coins_confirmations _ _).ok confirming
  have second : two.coins = one.coins := (recordCoinbase_keeps coins_spendings _ _ _).ok recorded
  rw [← first, ← second] at accounts
  rw [count] at issued confirmed
  obtain ⟨kind, signed⟩ := @Confirmation.signed_coinbase { cnf := -((n : Int) + 1), count := n + 1 }
    (show -((n : Int) + 1) < 0 by omega)
  have notYet := matured_next positive n
  have next := issueCoinbase_accounts stable (by omega) accounts fresh (by rw [kind, signed]; exact notYet)
    (fun output i coin within => new _
      ⟨txn, List.mem_singleton_self txn, rfl, by rw [Nat.zero_add] at within; exact within,
        .inr ⟨signed, rfl⟩⟩) issued
  refine ⟨maturateNext_accounts stable trie next height maturing, ?_⟩
  have kept : s'.confirmations = one.confirmations := by
    have first := (recordCoinbase_keeps confirmations_spendings _ _ _).ok recorded
    have second := (issueCoinbase_keeps confirmations_unspents confirmations_spendables _ _ _ _ _
      fun _ => confirmations_immature).ok issued
    have third := (maturateNext_keeps confirmations_spendables confirmations_immature _).ok maturing
    exact third.trans (second.trans first)
  rw [kept]
  exact confirmed

/-- A block that issues no key again keeps the accounts. -/
theorem attach_accounts (stable : Coins.Stable Inv) (trie : 0 < env.validationDepth)
    (positive : ∀ height, 1 ≤ env.chain.maturity height)
    (accounts : Accounts Inv (matured env.chain.maturity n) good live s.coins)
    (confirmed : Confirmed n s.confirmations) {blk : Blk} {block : Block} {unconfirmed : Txns}
    {confirmedHashes : Hashes} {result : Txns × Hashes} (height : blk.height = n)
    (new : ∀ u, IssuedBy env.prim (n + 1) block.transactions u → good u)
    (fresh : NoReissue live (block.events env.prim))
    (run : attach env blk block unconfirmed confirmedHashes s = .ok result s') :
    Accounts Inv (matured env.chain.maturity (n + 1)) good (liveAfter live (block.events env.prim))
        s'.coins ∧
      Confirmed (n + 1) s'.confirmations := by
  have count : blk.count = n + 1 := by
    unfold Blk.count
    rw [height]
    omega
  obtain ⟨coinbase, txns, one, fees, two, transactions, -, -, header, posted, subsidy, -⟩ :=
    attach_ok run
  have coins : one.coins = s.coins :=
    (insertBlockHeader_keeps coins_blocks _ _).ok (s := { s with pending := [] }) header
  have confirmations : one.confirmations = s.confirmations :=
    (insertBlockHeader_keeps confirmations_blocks _ _).ok (s := { s with pending := [] }) header
  rw [← coins] at accounts
  rw [← confirmations] at confirmed
  rw [transactions] at new
  unfold Block.events at fresh ⊢
  rw [transactions, List.tail_cons, List.head?_cons] at fresh ⊢
  rw [noReissue_append] at fresh
  rw [liveAfter_append]
  obtain ⟨accounts, confirmed⟩ := postAll_accounts stable (by omega) accounts confirmed count
    (fun u ⟨txn, member, issued⟩ => new u ⟨txn, List.mem_cons_of_mem _ member, issued⟩) fresh.1 posted
  exact postSubsidy_accounts stable trie positive accounts confirmed height
    (fun u ⟨txn, member, issued⟩ =>
      new u ⟨txn, List.mem_cons.mpr (.inl (List.mem_singleton.mp member)), issued⟩) fresh.2 subsidy

end Blocks

/-! ### Runs in trie mode -/

/-- The blocks of a run have the heights from `n` on. -/
def Follow : Nat → List Offer → Prop
  | _, [] => True
  | n, offer :: offers => offer.blk.height = n ∧ Follow (n + 1) offers

instance decidableFollow : ∀ n offers, Decidable (Follow n offers)
  | _, [] => isTrue trivial
  | n, offer :: offers =>
    have := decidableFollow (n + 1) offers
    inferInstanceAs (Decidable (offer.blk.height = n ∧ Follow (n + 1) offers))

/-- After `n` blocks the counts of the rows lie between `-n` and `n`, and are not 0. -/
def Counted (n : Int) (u : Unspent) : Prop := u.count ≠ 0 ∧ -n ≤ u.count ∧ u.count ≤ n

theorem Counted.next {n : Int} {u : Unspent} (counted : Counted n u) : Counted (n + 1) u := by
  unfold Counted at counted ⊢
  omega

theorem IssuedBy.counted {prim : Primitives} {n : Nat} {transactions : List Transaction} {u : Unspent}
    (issued : IssuedBy prim (n + 1) transactions u) : Counted (n + 1) u := by
  obtain ⟨-, -, -, -, which⟩ := issued
  unfold Counted
  omega

/-- The invariant between the blocks of a run in trie mode. -/
structure Books (maturity : Int → Int) (n : Nat) (live : List Coin) (s : Ledger) : Prop where
  accounts : Accounts Coins.Sorted (matured maturity n) (Counted n) live s.coins
  confirmed : Confirmed n s.confirmations

variable {chain : Chain} {prim : Primitives} {validationDepth : Int} {s s' : Ledger}

theorem attachAll_books (trie : 0 < validationDepth) (positive : ∀ height, 1 ≤ chain.maturity height)
    {n : Nat} {live : List Coin} {offers : List Offer} (books : Books chain.maturity n live s)
    (heights : Follow n offers) (fresh : NoReissue live (runEvents prim offers)) {done : Unit}
    (run : attachAll chain prim validationDepth offers s = .ok done s') :
    Books chain.maturity (n + offers.length) (liveAfter live (runEvents prim offers)) s' := by
  induction offers generalizing s n live with
  | nil =>
    obtain ⟨-, rfl⟩ := pure_ok.mp run
    exact books
  | cons offer offers ih =>
    unfold attachAll at run
    obtain ⟨_, one, attached, run⟩ := bind_ok.mp run
    unfold runEvents at fresh ⊢
    rw [List.flatMap_cons, noReissue_append] at fresh
    rw [List.flatMap_cons, liveAfter_append, List.length_cons]
    have attached : attach (offer.setting chain prim validationDepth) offer.blk offer.block
      offer.unconfirmed offer.confirmed s = .ok _ one := attached
    obtain ⟨accounts, confirmed⟩ := attach_accounts
      Coins.stable_sorted trie positive (books.accounts.congr (fun _ => Iff.rfl) fun _ _ => Counted.next)
      books.confirmed
      heights.1 (fun _ => IssuedBy.counted) fresh.1 attached
    have next : Books chain.maturity (n + 1) (liveAfter live (offer.block.events prim)) one :=
      ⟨by exact_mod_cast accounts, by exact_mod_cast confirmed⟩
    have last := ih next heights.2 fresh.2 run
    rwa [show n + (offers.length + 1) = n + 1 + offers.length by omega]

theorem holds_empty (unspentIndex : Bool) (u : Unspent) : ¬ (Ledger.empty unspentIndex).coins.Holds u := by
  intro held
  have none : (∅ : Map Int UnspentRow)[u.coin]? = some u.row := held
  rw [Map.lookup_empty] at none
  cases none

theorem accounts_empty (mature : Int → Bool) (good : Unspent → Prop) :
    Accounts Coins.Sorted mature good [] (Ledger.empty false).coins := by
  refine ⟨⟨⟨rfl, fun u _ held => absurd held (holds_empty _ u), fun key u => ?_⟩, fun key u => ?_⟩,
    fun key => ?_, fun u held => absurd held (holds_empty _ u)⟩
  · show (∅ : Map Coin Unspent)[key]? = some u ↔ _
    rw [Map.lookup_empty]
    simp [holds_empty]
  · show (∅ : Map Coin Unspent)[key]? = some u ↔ _
    rw [Map.lookup_empty]
    simp [holds_empty]
  · simp [holds_empty]

theorem confirmed_empty (unspentIndex : Bool) :
    Confirmed 0 (Ledger.empty unspentIndex).confirmations := by
  refine ⟨le_refl 0, fun cnf row stored => ?_⟩
  have none : (∅ : Map Int ConfirmationRow)[cnf]? = some row := stored
  rw [Map.lookup_empty] at none
  cases none

theorem books_empty (maturity : Int → Int) : Books maturity 0 [] (Ledger.empty false) :=
  ⟨accounts_empty _ _, confirmed_empty _⟩

end Libcoin
