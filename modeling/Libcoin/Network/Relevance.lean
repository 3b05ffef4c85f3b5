/-
`isRelevantAndUpdate`, with the iterators that it takes.

* `script()` and `signature()` return copies, and each turn of a loop has a new one. An iterator of the first copy is
  used with the others, which is only defined where the script is empty, or as far as the copies are at one address
  (`Copies`). `updateRelevant` is the function with this.
* `told_iff`: in a run, transactions are reported as they should be if and only if all that is read is of that kind.
-/

import Libcoin.Network.BloomFilter

namespace Libcoin

/-- Whether the copies of a script are at one address: where a block that is freed is given to the next request of its
size. -/
structure Copies where
  output : Nat → Bool
  input : Nat → Bool

namespace BloomFilter

section Relevance

variable (txnHash : Transaction → Uint256) (paysToKeys : Script → Bool)

/-- The loop over the instructions of a script, with `pc` in its first copy. The iterators of an empty one are null. -/
def scan (same : Bool) (f : BloomFilter) (script : Script) : Option Bool :=
  if script.isEmpty || same then f.containsAny (elements script) else none

/-- The loop over the outputs. -/
def scanOutputs (copies : Nat → Bool) (hash : Uint256) :
    List Output → Nat → BloomFilter → Option (Bool × List Data × BloomFilter)
  | [], _, f => some (false, [], f)
  | output :: outputs, i, f => do
    let found ← f.scan (copies i) output.script
    if found && updates paysToKeys f output.script then do
      let key := writeCoin { hash := hash, index := i }
      let f ← f.insert key
      let (_, keys, f) ← scanOutputs copies hash outputs (i + 1) f
      return (true, key :: keys, f)
    else do
      let (later, keys, f) ← scanOutputs copies hash outputs (i + 1) f
      return (found || later, keys, f)

/-- The loop over the inputs. -/
def scanInputs (copies : Nat → Bool) (f : BloomFilter) : List Input → Nat → Option Bool
  | [], _ => some false
  | input :: inputs, i => do
    let spent ← f.contains (writeCoin input.prevout)
    if spent then return true
    else do
      let found ← f.scan (copies i) input.signature
      if found then return true else scanInputs copies f inputs (i + 1)

/-- `isRelevantAndUpdate`. -/
def updateRelevant (copies : Copies) (txn : Transaction) (f : BloomFilter) :
    Option (Bool × List Data × BloomFilter) :=
  if f.full then some (true, [], f)
  else if f.empty then some (false, [], f)
  else do
    let hash := txnHash txn
    let known ← f.contains (writeHash hash)
    let (found, keys, f) ← scanOutputs paysToKeys copies.output hash txn.outputs 0 f
    if known || found then return (true, keys, f)
    else do
      let relevant ← f.scanInputs copies.input txn.inputs 0
      return (relevant, keys, f)

/-! ### What is read -/

/-- The scripts of the outputs, which are all read. -/
def OutputsFit (copies : Nat → Bool) : List Output → Nat → Prop
  | [], _ => True
  | output :: outputs, i => (output.script = [] ∨ copies i = true) ∧ OutputsFit copies outputs (i + 1)

/-- The scripts of the inputs, up to the first that matches. -/
def InputsFit (copies : Nat → Bool) (f : BloomFilter) : List Input → Nat → Prop
  | [], _ => True
  | input :: inputs, i =>
    f.contains (writeCoin input.prevout) = some true ∨
      (input.signature = [] ∨ copies i = true) ∧
        (f.containsAny (elements input.signature) = some true ∨ InputsFit copies f inputs (i + 1))

/-- The hash or an output matches: then no input is read. -/
def MatchedBefore (f : BloomFilter) (txn : Transaction) : Prop :=
  f.contains (writeHash (txnHash txn)) = some true ∨
    ∃ output ∈ txn.outputs, ∃ data ∈ elements output.script, data ≠ [] ∧ f.contains data = some true

/-- Every script that is read is empty, or its copies are at one address. -/
def ReadsFit (copies : Copies) (txn : Transaction) (f : BloomFilter) : Prop :=
  OutputsFit copies.output txn.outputs 0 ∧
    (MatchedBefore txnHash f txn ∨ InputsFit copies.input f txn.inputs 0)

/-! ### Scans -/

variable {txnHash} {paysToKeys} {f f' : BloomFilter} {copies : Nat → Bool}

theorem scan_fits {same : Bool} {script : Script} (fits : script = [] ∨ same = true) :
    f.scan same script = f.containsAny (elements script) := by
  unfold scan
  rcases fits with rfl | rfl <;> simp

theorem scan_undefined {same : Bool} {script : Script} (unfit : ¬(script = [] ∨ same = true)) :
    f.scan same script = none := by
  unfold scan
  rw [if_neg]
  simpa using unfit

theorem scanOutputs_fits {hash : Uint256} {outputs : List Output} {i : Nat} (fits : OutputsFit copies outputs i) :
    scanOutputs paysToKeys copies hash outputs i f = matchOutputs paysToKeys hash outputs i f := by
  induction outputs generalizing i f with
  | nil => rfl
  | cons output outputs ih =>
    have rest (f : BloomFilter) := @ih f (i + 1) fits.2
    unfold scanOutputs matchOutputs
    rw [scan_fits fits.1]
    simp only [rest]

theorem scanOutputs_undefined {hash : Uint256} {outputs : List Output} {i : Nat}
    (unfit : ¬OutputsFit copies outputs i) : scanOutputs paysToKeys copies hash outputs i f = none := by
  induction outputs generalizing i f with
  | nil => exact absurd trivial unfit
  | cons output outputs ih =>
    unfold scanOutputs
    by_cases first : output.script = [] ∨ copies i = true
    · have rest (f : BloomFilter) : scanOutputs paysToKeys copies hash outputs (i + 1) f = none :=
        ih fun fits => unfit ⟨first, fits⟩
      simp only [rest]
      cases f.scan (copies i) output.script with
      | none => rfl
      | some found =>
        show (if _ then (f.insert _).bind _ else _) = _
        split
        · cases f.insert (writeCoin { hash := hash, index := i }) <;> rfl
        · rfl
    · rw [scan_undefined first]
      rfl

theorem scanInputs_fits {inputs : List Input} {i : Nat} (fits : InputsFit copies f inputs i) :
    f.scanInputs copies inputs i = f.matchInputs inputs := by
  induction inputs generalizing i with
  | nil => rfl
  | cons input inputs ih =>
    unfold scanInputs matchInputs
    rcases fits with spent | ⟨first, rest⟩
    · rw [spent]
      rfl
    · rw [scan_fits first]
      rcases rest with found | rest
      · rw [found]
        rfl
      · rw [ih rest]

theorem scanInputs_undefined {inputs : List Input} {i : Nat} (open_ : f.full = false) (bytes : f.data ≠ [])
    (unfit : ¬InputsFit copies f inputs i) : f.scanInputs copies inputs i = none := by
  induction inputs generalizing i with
  | nil => exact absurd trivial unfit
  | cons input inputs ih =>
    unfold InputsFit at unfit
    push Not at unfit
    obtain ⟨unspent, unfit⟩ := unfit
    obtain ⟨spent, run, -⟩ := contains_spec (writeCoin input.prevout) open_ bytes
    unfold scanInputs
    rw [run] at unspent ⊢
    cases spent with
    | true => exact absurd rfl unspent
    | false =>
      by_cases first : input.signature = [] ∨ copies i = true
      · obtain ⟨notHere, later⟩ := unfit first
        obtain ⟨found, run⟩ := containsAny_defined open_ bytes (elements input.signature)
        rw [run] at notHere
        cases found with
        | true => exact absurd rfl notHere
        | false =>
          show (f.scan (copies i) input.signature).bind _ = none
          rw [scan_fits first, run]
          exact ih later
      · show (f.scan (copies i) input.signature).bind _ = none
        rw [scan_undefined first]
        rfl

/-! ### What matches -/

theorem containsAny_iff (open_ : f.full = false) (bytes : f.data ≠ []) {values : List Data} :
    f.containsAny values = some true ↔ ∃ data ∈ values, data ≠ [] ∧ f.contains data = some true := by
  induction values with
  | nil => exact iff_of_false nofun nofun
  | cons value values ih =>
    rw [List.exists_mem_cons_iff, ← ih]
    rw [containsAny]
    by_cases empty : value = []
    · subst empty
      simp
    · rw [if_neg (by simpa using empty)]
      obtain ⟨found, run, -⟩ := contains_spec value open_ bytes
      rw [run]
      cases found with
      | true => exact iff_of_true rfl (.inl ⟨empty, rfl⟩)
      | false => simp

/-- An output has matched if and only if one matches the filter from before. -/
theorem matchOutputs_found {hash : Uint256} {outputs : List Output} {i : Nat} (open_ : f.full = false)
    (bytes : f.data ≠ []) {found : Bool} {keys : List Data}
    (run : matchOutputs paysToKeys hash outputs i f = some (found, keys, f')) :
    (found = true ↔ ∃ output ∈ outputs, f.containsAny (elements output.script) = some true) ∧
      (found = false → keys = [] ∧ f' = f) := by
  induction outputs generalizing i found keys with
  | nil =>
    cases run
    exact ⟨iff_of_false nofun nofun, fun _ => ⟨rfl, rfl⟩⟩
  | cons output outputs ih =>
    rw [List.exists_mem_cons_iff]
    obtain ⟨here, scanned⟩ := containsAny_defined open_ bytes (elements output.script)
    rw [matchOutputs, scanned] at run
    rw [scanned]
    dsimp only [Option.bind_eq_bind, Option.bind_some] at run
    split at run
    · rename_i inserts
      obtain ⟨f₁, -, run⟩ := Option.bind_eq_some_iff.mp run
      obtain ⟨⟨later, keys', f''⟩, -, same⟩ := Option.bind_eq_some_iff.mp run
      cases same
      rw [(Bool.and_eq_true_iff.mp inserts).1]
      exact ⟨iff_of_true rfl (.inl rfl), nofun⟩
    · obtain ⟨⟨later, keys', f''⟩, rest, same⟩ := Option.bind_eq_some_iff.mp run
      cases same
      obtain ⟨iff, quiet⟩ := ih rest
      cases here with
      | false => exact ⟨by simpa using iff, quiet⟩
      | true => exact ⟨iff_of_true rfl (.inl rfl), nofun⟩

theorem matchInputs_iff (open_ : f.full = false) (bytes : f.data ≠ []) {inputs : List Input} :
    f.matchInputs inputs = some true ↔ ∃ input ∈ inputs, f.contains (writeCoin input.prevout) = some true ∨
      f.containsAny (elements input.signature) = some true := by
  induction inputs with
  | nil => exact iff_of_false nofun nofun
  | cons input inputs ih =>
    rw [List.exists_mem_cons_iff, ← ih]
    rw [matchInputs]
    obtain ⟨spent, run, -⟩ := contains_spec (writeCoin input.prevout) open_ bytes
    rw [run]
    cases spent with
    | true => exact iff_of_true rfl (.inl (.inl rfl))
    | false =>
      obtain ⟨found, run⟩ := containsAny_defined open_ bytes (elements input.signature)
      rw [run]
      cases found with
      | true => exact iff_of_true rfl (.inl (.inr rfl))
      | false => simp

/-- The outputs one after the other. -/
theorem matchOutputs_append {hash : Uint256} {outputs others : List Output} {i : Nat} {found : Bool}
    {keys : List Data} (run : matchOutputs paysToKeys hash (outputs ++ others) i f = some (found, keys, f')) :
    ∃ found₁ keys₁ mid found₂ keys₂, matchOutputs paysToKeys hash outputs i f = some (found₁, keys₁, mid) ∧
      matchOutputs paysToKeys hash others (i + outputs.length) mid = some (found₂, keys₂, f') := by
  induction outputs generalizing i f found keys with
  | nil => exact ⟨false, [], f, found, keys, rfl, run⟩
  | cons output outputs ih =>
    have shift : i + (output :: outputs).length = i + 1 + outputs.length := by
      rw [List.length_cons]
      omega
    rw [shift]
    rw [List.cons_append, matchOutputs] at run
    obtain ⟨here, scanned, run⟩ := Option.bind_eq_some_iff.mp run
    rw [matchOutputs, scanned]
    dsimp only [Option.bind_eq_bind, Option.bind_some]
    split at run
    · rename_i inserts
      obtain ⟨f₁, inserted, run⟩ := Option.bind_eq_some_iff.mp run
      obtain ⟨⟨later, keys', f''⟩, rest, same⟩ := Option.bind_eq_some_iff.mp run
      cases same
      obtain ⟨found₁, keys₁, mid, found₂, keys₂, first, second⟩ := ih rest
      refine ⟨true, writeCoin { hash := hash, index := i } :: keys₁, mid, found₂, keys₂, ?_, second⟩
      rw [if_pos inserts, inserted]
      dsimp only [Option.bind_some]
      rw [first]
      rfl
    · rename_i keeps
      obtain ⟨⟨later, keys', f''⟩, rest, same⟩ := Option.bind_eq_some_iff.mp run
      cases same
      obtain ⟨found₁, keys₁, mid, found₂, keys₂, first, second⟩ := ih rest
      refine ⟨here || found₁, keys₁, mid, found₂, keys₂, ?_, second⟩
      rw [if_neg keeps, first]
      rfl

/-! ### One transaction -/

variable {txn : Transaction} {reuse : Copies}

/-- What a transaction is reported for. -/
def Relevant (txnHash : Transaction → Uint256) (f : BloomFilter) (txn : Transaction) : Prop :=
  f.contains (writeHash (txnHash txn)) = some true ∨
    (∃ output ∈ txn.outputs, ∃ data ∈ elements output.script, data ≠ [] ∧ f.contains data = some true) ∨
    ∃ input ∈ txn.inputs, f.contains (writeCoin input.prevout) = some true ∨
      ∃ data ∈ elements input.signature, data ≠ [] ∧ f.contains data = some true

/-- The transaction is reported because of an output: that one has a value that is contained when it is looked at, after
the outputs before it. -/
def MatchedOutput (txnHash : Transaction → Uint256) (paysToKeys : Script → Bool) (f : BloomFilter) (txn : Transaction)
    (i : Nat) : Prop :=
  ∃ output found keys mid, txn.outputs[i]? = some output ∧
    matchOutputs paysToKeys (txnHash txn) (txn.outputs.take i) 0 f = some (found, keys, mid) ∧
    ∃ data ∈ elements output.script, data ≠ [] ∧ mid.contains data = some true

/-- A filter as it is asked for: not full, not empty, with a byte, and the flag `BLOOM_UPDATE_ALL`. -/
structure Updating (f : BloomFilter) : Prop where
  full : f.full = false
  empty : f.empty = false
  bytes : f.data ≠ []
  flags : f.flags &&& 3 = 1

theorem Updating.grown {keys : List Data} (updating : f.Updating) (grown : Grown keys f f') : f'.Updating where
  full := grown.full.trans updating.full
  empty := by rw [grown.empty updating.full, updating.empty, Bool.false_and]
  bytes := grown.bytes updating.bytes
  flags := by rw [grown.flags, updating.flags]

theorem Updating.contains_iff (updating : f.Updating) {key : Data} : f.contains key = some true ↔ f.Holds key := by
  obtain ⟨found, run, iff⟩ := contains_spec key updating.full updating.bytes
  rw [run, Option.some.injEq, iff, and_iff_right updating.empty]

theorem matchedBefore_iff (updating : f.Updating) {found : Bool} {keys : List Data}
    (run : matchOutputs paysToKeys (txnHash txn) txn.outputs 0 f = some (found, keys, f')) {known : Bool}
    (hashed : f.contains (writeHash (txnHash txn)) = some known) :
    (known || found) = true ↔ MatchedBefore txnHash f txn := by
  have outputs := (matchOutputs_found updating.full updating.bytes run).1
  simp only [containsAny_iff updating.full updating.bytes] at outputs
  unfold MatchedBefore
  rw [Bool.or_eq_true, outputs, hashed, Option.some.injEq]

/-- Where what is read is not fit to be read, nothing is said. -/
theorem updateRelevant_undefined (updating : f.Updating) (unfit : ¬ReadsFit txnHash reuse txn f) :
    f.updateRelevant txnHash paysToKeys reuse txn = none := by
  obtain ⟨known, hashed, -⟩ := contains_spec (writeHash (txnHash txn)) updating.full updating.bytes
  unfold updateRelevant
  rw [if_neg (Bool.eq_false_iff.mp updating.full), if_neg (Bool.eq_false_iff.mp updating.empty)]
  dsimp only
  rw [hashed]
  dsimp only [Option.bind_eq_bind, Option.bind_some]
  by_cases outputs : OutputsFit reuse.output txn.outputs 0
  · obtain ⟨found, keys, f', run, grown⟩ :=
      matchOutputs_grown paysToKeys (txnHash txn) txn.outputs 0 updating.full updating.bytes
    have before := matchedBefore_iff updating run hashed
    rw [scanOutputs_fits outputs, run]
    dsimp only [Option.bind_some]
    rw [if_neg fun matched => unfit ⟨outputs, .inl (before.mp matched)⟩]
    have unmatched : found = false := by
      by_contra matched
      refine unfit ⟨outputs, .inl (before.mp ?_)⟩
      rw [Bool.not_eq_false] at matched
      rw [matched, Bool.or_true]
    obtain ⟨-, rfl⟩ := (matchOutputs_found updating.full updating.bytes run).2 unmatched
    rw [scanInputs_undefined updating.full updating.bytes fun inputs => unfit ⟨outputs, .inr inputs⟩]
    rfl
  · rw [scanOutputs_undefined outputs]
    rfl

/-- **Where it is, the result is `isRelevantAndUpdate`.** -/
theorem updateRelevant_eq (updating : f.Updating) (fits : ReadsFit txnHash reuse txn f) :
    f.updateRelevant txnHash paysToKeys reuse txn = f.isRelevantAndUpdate txnHash paysToKeys txn := by
  obtain ⟨outputs, inputs⟩ := fits
  obtain ⟨known, hashed, -⟩ := contains_spec (writeHash (txnHash txn)) updating.full updating.bytes
  obtain ⟨found, keys, f', run, grown⟩ :=
    matchOutputs_grown paysToKeys (txnHash txn) txn.outputs 0 updating.full updating.bytes
  have before := matchedBefore_iff updating run hashed
  unfold updateRelevant isRelevantAndUpdate
  dsimp only
  rw [scanOutputs_fits outputs, hashed, run]
  dsimp only [Option.bind_eq_bind, Option.bind_some]
  by_cases matched : (known || found) = true
  · rw [if_pos matched, if_pos matched]
  · have unmatched : found = false := by
      rw [Bool.or_eq_true, not_or, Bool.not_eq_true, Bool.not_eq_true] at matched
      exact matched.2
    obtain ⟨-, rfl⟩ := (matchOutputs_found updating.full updating.bytes run).2 unmatched
    rw [scanInputs_fits (inputs.resolve_left fun prior => matched (before.mpr prior))]

/-- An output that matches is inserted. -/
theorem holds_of_matched (updating : f.Updating) {found : Bool} {keys : List Data}
    (run : matchOutputs paysToKeys (txnHash txn) txn.outputs 0 f = some (found, keys, f')) {i : Nat}
    (matched : MatchedOutput txnHash paysToKeys f txn i) :
    f'.Holds (writeCoin { hash := txnHash txn, index := i }) := by
  obtain ⟨output, found₀, keys₀, mid, place, first, contained⟩ := matched
  obtain ⟨inside, rfl⟩ := List.getElem?_eq_some_iff.mp place
  have split : txn.outputs = txn.outputs.take i ++ txn.outputs[i] :: txn.outputs.drop (i + 1) := by
    rw [← List.drop_eq_getElem_cons inside, List.take_append_drop]
  rw [split] at run
  obtain ⟨found₁, keys₁, mid', found₂, keys₂, first', second⟩ := matchOutputs_append run
  obtain ⟨found₃, keys₃, mid'', again, grown⟩ :=
    matchOutputs_grown paysToKeys (txnHash txn) (txn.outputs.take i) 0 updating.full updating.bytes
  rw [first] at first' again
  cases first'
  cases again
  have between := updating.grown grown
  rw [Nat.zero_add, List.length_take_of_le inside.le, matchOutputs,
    (containsAny_iff between.full between.bytes).mpr contained] at second
  have updates : updates paysToKeys mid txn.outputs[i].script = true := if_pos between.flags
  dsimp only [Option.bind_eq_bind, Option.bind_some] at second
  rw [updates, Bool.and_self, if_pos rfl] at second
  obtain ⟨f₁, inserted, grown₁⟩ :=
    insert_grown (writeCoin { hash := txnHash txn, index := i }) between.full between.bytes
  have after := between.grown grown₁
  obtain ⟨found₄, keys₄, f₂, rest, grown₂⟩ :=
    matchOutputs_grown paysToKeys (txnHash txn) (txn.outputs.drop (i + 1)) (i + 1) after.full after.bytes
  rw [inserted] at second
  dsimp only [Option.bind_some] at second
  rw [rest] at second
  cases second
  exact grown₂.still (grown₁.holds between.full _ (List.mem_singleton_self _))

/-- **A transaction is reported if and only if it is relevant**, and the outputs that matched are inserted. -/
theorem updateRelevant_spec (updating : f.Updating) (fits : ReadsFit txnHash reuse txn f) :
    ∃ found keys f', f.updateRelevant txnHash paysToKeys reuse txn = some (found, keys, f') ∧
      (found = true ↔ Relevant txnHash f txn) ∧ Grown keys f f' ∧
      ∀ i, MatchedOutput txnHash paysToKeys f txn i → f'.Holds (writeCoin { hash := txnHash txn, index := i }) := by
  obtain ⟨known, hashed, -⟩ := contains_spec (writeHash (txnHash txn)) updating.full updating.bytes
  obtain ⟨found, keys, f', run, grown⟩ :=
    matchOutputs_grown paysToKeys (txnHash txn) txn.outputs 0 updating.full updating.bytes
  have before := matchedBefore_iff updating run hashed
  have inserted (i : Nat) := @holds_of_matched txnHash paysToKeys f f' txn updating found keys run i
  have relevant : Relevant txnHash f txn ↔ MatchedBefore txnHash f txn ∨ f.matchInputs txn.inputs = some true := by
    rw [matchInputs_iff updating.full updating.bytes]
    simp only [containsAny_iff updating.full updating.bytes]
    exact or_assoc.symm
  rw [updateRelevant_eq updating fits]
  unfold isRelevantAndUpdate
  rw [if_neg (Bool.eq_false_iff.mp updating.full), if_neg (Bool.eq_false_iff.mp updating.empty)]
  dsimp only
  rw [hashed]
  dsimp only [Option.bind_eq_bind, Option.bind_some]
  rw [run]
  dsimp only [Option.bind_some]
  by_cases matched : (known || found) = true
  · rw [if_pos matched]
    exact ⟨true, keys, f', rfl, iff_of_true rfl (relevant.mpr (.inl (before.mp matched))), grown, inserted⟩
  · have unmatched : found = false := by
      rw [Bool.or_eq_true, not_or, Bool.not_eq_true, Bool.not_eq_true] at matched
      exact matched.2
    obtain ⟨rfl, rfl⟩ := (matchOutputs_found updating.full updating.bytes run).2 unmatched
    obtain ⟨reported, inputs⟩ := matchInputs_defined updating.full updating.bytes txn.inputs
    rw [if_neg matched, inputs]
    refine ⟨reported, [], f', rfl, ?_, grown, inserted⟩
    rw [relevant, inputs, Option.some.injEq, or_iff_right fun prior => matched (before.mpr prior)]

/-! ### Runs -/

/-- What is said of some transactions is what should be: each is reported if and only if it is relevant to the filter
before it, and whenever it spends an output that was the reason for an earlier one. -/
def Told (txnHash : Transaction → Uint256) (paysToKeys : Script → Bool) :
    List (Copies × Transaction) → (Coin → Prop) → BloomFilter → Prop
  | [], _, _ => True
  | (reuse, txn) :: calls, watched, f =>
    ∃ found keys f', f.updateRelevant txnHash paysToKeys reuse txn = some (found, keys, f') ∧
      (found = true ↔ Relevant txnHash f txn) ∧ ((∃ input ∈ txn.inputs, watched input.prevout) → found = true) ∧
        Told txnHash paysToKeys calls
          (fun coin => watched coin ∨ coin.hash = txnHash txn ∧ MatchedOutput txnHash paysToKeys f txn coin.index) f'

/-- Every script that is read in a run is empty, or its copies are at one address. -/
def AllReadsFit (txnHash : Transaction → Uint256) (paysToKeys : Script → Bool) :
    List (Copies × Transaction) → BloomFilter → Prop
  | [], _ => True
  | (reuse, txn) :: calls, f =>
    ReadsFit txnHash reuse txn f ∧
      ∀ found keys f', f.updateRelevant txnHash paysToKeys reuse txn = some (found, keys, f') →
        AllReadsFit txnHash paysToKeys calls f'

theorem told_iff_of_watched {calls : List (Copies × Transaction)} {watched : Coin → Prop} (updating : f.Updating)
    (holds : ∀ coin, watched coin → f.Holds (writeCoin coin)) :
    Told txnHash paysToKeys calls watched f ↔ AllReadsFit txnHash paysToKeys calls f := by
  induction calls generalizing f watched with
  | nil => exact Iff.rfl
  | cons call calls ih =>
    obtain ⟨reuse, txn⟩ := call
    unfold Told AllReadsFit
    by_cases fits : ReadsFit txnHash reuse txn f
    · obtain ⟨found, keys, f', run, iff, grown, inserted⟩ :=
        @updateRelevant_spec txnHash paysToKeys f txn reuse updating fits
      have later := @ih f' (fun coin => watched coin ∨
        coin.hash = txnHash txn ∧ MatchedOutput txnHash paysToKeys f txn coin.index) (updating.grown grown) (by
          rintro coin (earlier | ⟨same, matched⟩)
          · exact grown.still (holds coin earlier)
          · have holds := inserted coin.index matched
            rwa [← same] at holds)
      rw [run, and_iff_right fits]
      constructor
      · rintro ⟨_, _, _, same, -, -, told⟩ _ _ _ again
        cases same
        cases again
        exact later.mp told
      · intro fit
        refine ⟨found, keys, f', rfl, iff, ?_, later.mpr (fit _ _ _ rfl)⟩
        rintro ⟨input, member, watched⟩
        exact iff.mpr (.inr (.inr ⟨input, member, .inl (updating.contains_iff.mpr (holds _ watched))⟩))
    · rw [updateRelevant_undefined updating fits]
      exact iff_of_false (fun ⟨_, _, _, same, _⟩ => nomatch same) fun both => fits both.1

/-- **A filter tells which transactions are relevant, in every run, if and only if every script that is read is empty or
its copies are at one address.** -/
theorem told_iff (txnHash : Transaction → Uint256) (paysToKeys : Script → Bool) {f : BloomFilter}
    (updating : f.Updating) (calls : List (Copies × Transaction)) :
    Told txnHash paysToKeys calls (fun _ => False) f ↔ AllReadsFit txnHash paysToKeys calls f :=
  told_iff_of_watched updating fun _ none => none.elim

end Relevance

end BloomFilter

namespace Small

/-- Pays to a script that pushes one byte. -/
def scripted : Transaction :=
  { version := 1, inputs := [], outputs := [{ value := 50, script := [1, 7] }], lockTime := 0 }

/-- Spends the output of `scripted`. -/
def respent : Transaction :=
  { version := 1, inputs := [{ prevout := ⟨7, 0⟩, signature := [1, 9], sequence := 0 }], outputs := [], lockTime := 0 }

/-- The hashes of the two. -/
def hashOf (txn : Transaction) : Uint256 := if txn.inputs = [] then 7 else 8

/-- A filter of eight bytes that the byte has been inserted in. -/
def watching : BloomFilter := { fresh 3 with data := [1, 0, 0, 0, 2, 0, 1, 0] }

theorem watching_inserted :
    ({ fresh 3 with data := List.replicate 8 0, empty := true } : BloomFilter).insert [7] = some watching := by
  decide +kernel

theorem fresh_updating : (fresh 3).Updating := ⟨rfl, rfl, by decide, by decide⟩

end Small

namespace BloomFilter

/-- Copies at one address: an output that pushes the byte, and the input that spends it. -/
theorem told_iff_reuse : ∃ f,
    ({ Small.fresh 3 with data := List.replicate 8 0, empty := true } : BloomFilter).insert [7] = some f ∧
      Told Small.hashOf (fun _ => true)
        [(⟨fun _ => true, fun _ => true⟩, Small.scripted), (⟨fun _ => true, fun _ => true⟩, Small.respent)]
        (fun _ => False) f := by
  have updating : Small.watching.Updating := ⟨rfl, rfl, by decide, by decide⟩
  refine ⟨_, Small.watching_inserted, (told_iff Small.hashOf (fun _ => true) updating _).mpr ?_⟩
  refine ⟨⟨⟨.inr rfl, trivial⟩, .inr trivial⟩, fun _ _ _ _ => ?_⟩
  exact ⟨⟨trivial, .inr (.inr ⟨.inr rfl, .inr trivial⟩)⟩, fun _ _ _ _ => trivial⟩

/-- Copies at different addresses: an iterator of the first one is compared with the end of the second. -/
theorem told_not : ¬∀ f : BloomFilter, f.Updating → ∀ calls : List (Copies × Transaction),
    Told (fun _ => 7) (fun _ => true) calls (fun _ => False) f := by
  intro all
  obtain ⟨found, keys, f', run, -⟩ :=
    all (Small.fresh 3) Small.fresh_updating [(⟨fun _ => false, fun _ => false⟩, Small.scripted)]
  have undefined : (Small.fresh 3).updateRelevant (fun _ => 7) (fun _ => true)
      ⟨fun _ => false, fun _ => false⟩ Small.scripted = none := by decide +kernel
  rw [undefined] at run
  cases run

end BloomFilter

end Libcoin
