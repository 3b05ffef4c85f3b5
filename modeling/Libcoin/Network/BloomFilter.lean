/-
`BloomFilter`: the filter that a peer loads, and what `FilterHandler` does with it.

* `hash` is the index of a bit. A remainder by zero is `none`.
* `filterload` reads a filter; after it, a `FilterOp` is a `filteradd` message or a call of `isRelevantAndUpdate`.
* `Grown` is what these do to a filter: bits are set, those of the keys that are inserted among them.

`Solver` is a parameter, as the type of a script decides only whether an output is inserted.
-/

import Libcoin.Library.Bits
import Libcoin.Library.ReadBack
import Libcoin.Ledger.Serialization
import Libcoin.Script.Evaluator

namespace Libcoin

open Reader

/-! ### MurmurHash3 -/

namespace Murmur

def rotl32 (x r : UInt32) : UInt32 := (x <<< r) ||| (x >>> (32 - r))

/-- The number that up to four bytes are. -/
def word (bytes : Data) : UInt32 := UInt32.ofNat (littleEndian bytes)

def mix (k1 : UInt32) : UInt32 := rotl32 (k1 * 0xcc9e2d51) 15 * 0x1b873593

/-- The loop over the blocks of four bytes: the hash, and the tail. -/
def body (h1 : UInt32) : Data → UInt32 × Data
  | b0 :: b1 :: b2 :: b3 :: rest =>
    body (rotl32 (h1 ^^^ mix (word [b0, b1, b2, b3])) 13 * 5 + 0xe6546b64) rest
  | tail => (h1, tail)

/-- `MurmurHash3`. -/
def hash3 (seed : UInt32) (data : Data) : UInt32 :=
  let (h1, tail) := body seed data
  let h1 := if tail.isEmpty then h1 else h1 ^^^ mix (word tail)
  let h1 := h1 ^^^ UInt32.ofNat data.length
  let h1 := (h1 ^^^ (h1 >>> 16)) * 0x85ebca6b
  let h1 := (h1 ^^^ (h1 >>> 13)) * 0xc2b2ae35
  h1 ^^^ (h1 >>> 16)

end Murmur

/-! ### The filter -/

/-- The members of `BloomFilter`. -/
structure BloomFilter where
  data : Data
  full : Bool
  empty : Bool
  hashFuncs : Nat
  tweak : UInt32
  flags : UInt8
  deriving DecidableEq, Repr

namespace BloomFilter

/-- `hash`. -/
def hash (size : Nat) (tweak : UInt32) (num : Nat) (key : Data) : Option Nat :=
  if size * 8 = 0 then none
  else some ((Murmur.hash3 (UInt32.ofNat num * 0xFBA4C795 + tweak) key).toNat % (size * 8))

/-- The loop of `insert` over hash functions. -/
def setBits (tweak : UInt32) (key : Data) : List Nat → Data → Option Data
  | [], data => some data
  | num :: nums, data => do
    let index ← hash data.length tweak num key
    setBits tweak key nums (setBit data index)

/-- `insert`. -/
def insert (key : Data) (f : BloomFilter) : Option BloomFilter :=
  if f.full then some f
  else do
    let data ← setBits f.tweak key (List.range f.hashFuncs) f.data
    return { f with data := data, empty := false }

/-- The loop of `contains` over hash functions. -/
def hasBits (tweak : UInt32) (key : Data) (data : Data) : List Nat → Option Bool
  | [] => some true
  | num :: nums => do
    let index ← hash data.length tweak num key
    if !testBit data index then return false else hasBits tweak key data nums

/-- `contains`. -/
def contains (f : BloomFilter) (key : Data) : Option Bool :=
  if f.full then some true
  else if f.empty then some false
  else hasBits f.tweak key f.data (List.range f.hashFuncs)

/-- `isWithinSizeConstraints`. -/
def isWithinSizeConstraints (f : BloomFilter) : Bool := decide (f.data.length ≤ 36000 ∧ f.hashFuncs ≤ 50)

/-- `updateEmptyFull`. -/
def updateEmptyFull (f : BloomFilter) : BloomFilter :=
  { f with
    full := f.data.all fun byte => decide (byte = 0xff)
    empty := f.data.all fun byte => decide (byte = 0) }

/-! ### Transactions -/

section Relevant

variable (txnHash : Transaction → Uint256) (paysToKeys : Script → Bool)

/-- The values that the instructions of a script push, up to one that cannot be read. -/
def elements (script : Script) : List Data := (Script.ops script).filterMap fun op => op.map Prod.snd

/-- The loop over the instructions of a script: one of the values is contained. -/
def containsAny (f : BloomFilter) : List Data → Option Bool
  | [] => some false
  | data :: rest =>
    if data.isEmpty then containsAny f rest
    else do
      let found ← f.contains data
      if found then return true else containsAny f rest

/-- Whether the outpoint of an output that has matched is inserted. -/
def updates (f : BloomFilter) (script : Script) : Bool :=
  if f.flags &&& 3 = 1 then true else if f.flags &&& 3 = 2 then paysToKeys script else false

/-- The loop over the outputs: whether one has matched, and the keys that are inserted. -/
def matchOutputs (hash : Uint256) : List Output → Nat → BloomFilter → Option (Bool × List Data × BloomFilter)
  | [], _, f => some (false, [], f)
  | output :: outputs, i, f => do
    let found ← f.containsAny (elements output.script)
    if found && updates paysToKeys f output.script then do
      let key := writeCoin { hash := hash, index := i }
      let f ← f.insert key
      let (_, keys, f) ← matchOutputs hash outputs (i + 1) f
      return (true, key :: keys, f)
    else do
      let (later, keys, f) ← matchOutputs hash outputs (i + 1) f
      return (found || later, keys, f)

/-- The loop over the inputs. -/
def matchInputs (f : BloomFilter) : List Input → Option Bool
  | [] => some false
  | input :: inputs => do
    let spent ← f.contains (writeCoin input.prevout)
    if spent then return true
    else do
      let found ← f.containsAny (elements input.signature)
      if found then return true else matchInputs f inputs

/-- `isRelevantAndUpdate`: the result, and the keys that are inserted. The iterators of two copies of a script that it
compares are left out, see `updateRelevant`. -/
def isRelevantAndUpdate (txn : Transaction) (f : BloomFilter) : Option (Bool × List Data × BloomFilter) :=
  if f.full then some (true, [], f)
  else if f.empty then some (false, [], f)
  else do
    let hash := txnHash txn
    let known ← f.contains (writeHash hash)
    let (found, keys, f) ← matchOutputs paysToKeys hash txn.outputs 0 f
    if known || found then return (true, keys, f)
    else do
      let relevant ← f.matchInputs txn.inputs
      return (relevant, keys, f)

end Relevant

/-! ### Messages -/

/-- `operator<<`. -/
def write (f : BloomFilter) : Data :=
  writeVector writeByte f.data ++ (writeInt 4 f.hashFuncs ++ (littleBytes 4 f.tweak.toNat ++ [f.flags]))

/-- `operator>>` into a filter without values. -/
def read : Reader BloomFilter :=
  (fun read =>
    { data := read.1, full := true, empty := false, hashFuncs := littleEndian read.2.1
      tweak := UInt32.ofNat (littleEndian read.2.2.1), flags := read.2.2.2.headD 0 }) <$>
    (readVector readByte).pair ((readFresh 4).pair ((readFresh 4).pair (readFresh 1)))

/-- `filterload`: the filter of the peer after the message. -/
def filterload (payload : Data) (old : BloomFilter) : Option BloomFilter := do
  let (filter, _) ← read { bytes := payload, good := true }
  if filter.isWithinSizeConstraints then return filter.updateEmptyFull else return old

/-- What is done with the filter of a peer: a `filteradd` message, or a call of `isRelevantAndUpdate`. -/
inductive FilterOp
  | add (data : Data)
  | relevant (txn : Transaction)
  deriving DecidableEq, Repr

/-- The keys that are inserted, and the filter. -/
def apply (txnHash : Transaction → Uint256) (paysToKeys : Script → Bool) (op : FilterOp) (f : BloomFilter) :
    Option (List Data × BloomFilter) :=
  match op with
  | .add data =>
    if data.length ≤ 520 then do
      let f ← f.insert data
      return ([data], f)
    else some ([], f)
  | .relevant txn => do
    let (_, keys, f) ← f.isRelevantAndUpdate txnHash paysToKeys txn
    return (keys, f)

/-- One after the other: all keys that are inserted, and the filter. -/
def applyAll (txnHash : Transaction → Uint256) (paysToKeys : Script → Bool) :
    List FilterOp → BloomFilter → Option (List Data × BloomFilter)
  | [], f => some ([], f)
  | op :: ops, f => do
    let (keys, f) ← apply txnHash paysToKeys op f
    let (more, f) ← applyAll txnHash paysToKeys ops f
    return (keys ++ more, f)

/-- The keys of a set, one after the other. -/
def insertAll : List Data → BloomFilter → Option BloomFilter
  | [], f => some f
  | key :: keys, f => do
    let f ← f.insert key
    insertAll keys f

/-! ### Bits -/

variable {data : Data} {tweak : UInt32} {key : Data}

/-- The index is that of a bit. -/
theorem hash_inside {num index : Nat} (found : hash data.length tweak num key = some index) :
    index / 8 < data.length := by
  unfold hash at found
  split at found
  · cases found
  · obtain rfl := Option.some.inj found
    have below := Nat.mod_lt (Murmur.hash3 (UInt32.ofNat num * 0xFBA4C795 + tweak) key).toNat
      (show 0 < data.length * 8 by omega)
    omega

/-- **No remainder by zero**, unless there are no bytes. -/
theorem hash_defined (tweak : UInt32) (key : Data) (bytes : data ≠ []) (num : Nat) :
    ∃ index, hash data.length tweak num key = some index := by
  have positive := List.length_pos_iff.mpr bytes
  unfold hash
  rw [if_neg (by omega)]
  exact ⟨_, rfl⟩

/-- The bits of a key are set, for some hash functions. -/
def BitsOf (tweak : UInt32) (key data : Data) (nums : List Nat) : Prop :=
  ∀ num ∈ nums, ∀ index ∈ hash data.length tweak num key, testBit data index = true

/-- The bytes with more bits. -/
structure MoreBits (data data' : Data) : Prop where
  length : data'.length = data.length
  bits : ∀ index, testBit data index = true → testBit data' index = true

theorem MoreBits.refl (data : Data) : MoreBits data data := ⟨rfl, fun _ set => set⟩

theorem MoreBits.trans {data₁ data₂ data₃ : Data} (one : MoreBits data₁ data₂) (two : MoreBits data₂ data₃) :
    MoreBits data₁ data₃ :=
  ⟨two.length.trans one.length, fun index set => two.bits index (one.bits index set)⟩

theorem BitsOf.mono {data' : Data} {nums : List Nat} (bits : BitsOf tweak key data nums)
    (more : MoreBits data data') :
    BitsOf tweak key data' nums := by
  intro num member index found
  rw [more.length] at found
  exact more.bits index (bits num member index found)

theorem setBits_spec (tweak : UInt32) (key : Data) (nums : List Nat) (bytes : data ≠ []) :
    ∃ data', setBits tweak key nums data = some data' ∧ MoreBits data data' ∧ BitsOf tweak key data' nums := by
  induction nums generalizing data with
  | nil => exact ⟨data, rfl, MoreBits.refl data, nofun⟩
  | cons num nums ih =>
    obtain ⟨index, found⟩ := hash_defined tweak key bytes num
    have still : setBit data index ≠ [] := by
      rw [← List.length_pos_iff, setBit_length]
      exact List.length_pos_iff.mpr bytes
    obtain ⟨data', run, more, bits⟩ := ih still
    have first : MoreBits data (setBit data index) :=
      ⟨setBit_length data index, fun _ => testBit_setBit_mono index⟩
    refine ⟨data', ?_, first.trans more, ?_⟩
    · unfold setBits
      rw [found]
      exact run
    · intro other member place here
      rcases List.mem_cons.mp member with rfl | member
      · rw [(first.trans more).length, found] at here
        obtain rfl := Option.some.inj here
        exact more.bits index (testBit_setBit_self (hash_inside found))
      · exact bits other member place here

theorem hasBits_spec (tweak : UInt32) (key : Data) (nums : List Nat) (bytes : data ≠ []) :
    ∃ found, hasBits tweak key data nums = some found ∧ (found = true ↔ BitsOf tweak key data nums) := by
  induction nums with
  | nil => exact ⟨true, rfl, iff_of_true rfl nofun⟩
  | cons num nums ih =>
    obtain ⟨index, found⟩ := hash_defined tweak key bytes num
    obtain ⟨rest, run, iff⟩ := ih
    unfold hasBits
    rw [found]
    cases set : testBit data index with
    | false =>
      refine ⟨false, ?_, iff_of_false nofun fun bits => ?_⟩
      · simp [set]
      · rw [bits num List.mem_cons_self index found] at set
        cases set
    | true =>
      refine ⟨rest, ?_, iff.trans ⟨fun bits => ?_, fun bits num member =>
        bits num (List.mem_cons_of_mem _ member)⟩⟩
      · simp [set, run]
      · intro other member place here
        rcases List.mem_cons.mp member with rfl | member
        · rw [found] at here
          obtain rfl := Option.some.inj here
          exact set
        · exact bits other member place here

/-! ### Filters that have grown -/

variable {f f' f₁ f₂ f₃ : BloomFilter} {keys : List Data}

/-- All bits of a key are set. -/
def Holds (f : BloomFilter) (key : Data) : Prop := BitsOf f.tweak key f.data (List.range f.hashFuncs)

/-- A filter after some keys were inserted. -/
structure Grown (keys : List Data) (f f' : BloomFilter) : Prop where
  more : MoreBits f.data f'.data
  full : f'.full = f.full
  hashFuncs : f'.hashFuncs = f.hashFuncs
  tweak : f'.tweak = f.tweak
  flags : f'.flags = f.flags
  empty : f.full = false → f'.empty = (f.empty && keys.isEmpty)
  holds : f.full = false → ∀ key ∈ keys, f'.Holds key

theorem Grown.refl (f : BloomFilter) : Grown [] f f :=
  ⟨MoreBits.refl f.data, rfl, rfl, rfl, rfl, fun _ => (Bool.and_true _).symm, fun _ => nofun⟩

theorem Grown.still (grown : Grown keys f f') (held : f.Holds key) : f'.Holds key := by
  unfold Holds at held ⊢
  rw [grown.hashFuncs, grown.tweak]
  exact held.mono grown.more

theorem Grown.trans {more : List Data} (one : Grown keys f₁ f₂) (two : Grown more f₂ f₃) :
    Grown (keys ++ more) f₁ f₃ where
  more := one.more.trans two.more
  full := two.full.trans one.full
  hashFuncs := two.hashFuncs.trans one.hashFuncs
  tweak := two.tweak.trans one.tweak
  flags := two.flags.trans one.flags
  empty open_ := by
    rw [two.empty (one.full.trans open_), one.empty open_, Bool.and_assoc]
    cases keys <;> rfl
  holds open_ key member := by
    rcases List.mem_append.mp member with first | second
    · exact two.still (one.holds open_ key first)
    · exact two.holds (one.full.trans open_) key second

theorem Grown.bytes (grown : Grown keys f f') (bytes : f.data ≠ []) : f'.data ≠ [] := by
  rw [← List.length_pos_iff, grown.more.length]
  exact List.length_pos_iff.mpr bytes

theorem insert_full (key : Data) (full : f.full = true) : f.insert key = some f := by
  unfold insert
  rw [if_pos full]

theorem insert_grown (key : Data) (open_ : f.full = false) (bytes : f.data ≠ []) :
    ∃ f', f.insert key = some f' ∧ Grown [key] f f' := by
  obtain ⟨data', run, more, bits⟩ := setBits_spec f.tweak key (List.range f.hashFuncs) bytes
  refine ⟨{ f with data := data', empty := false }, ?_, ?_⟩
  · unfold insert
    rw [open_, if_neg Bool.false_ne_true, run]
    rfl
  · refine ⟨more, rfl, rfl, rfl, rfl, fun _ => (Bool.and_false _).symm, fun _ other member => ?_⟩
    rw [List.mem_singleton.mp member]
    exact bits

/-- What is contained in a filter that is not full. -/
theorem contains_spec (key : Data) (open_ : f.full = false) (bytes : f.data ≠ []) :
    ∃ found, f.contains key = some found ∧ (found = true ↔ f.empty = false ∧ f.Holds key) := by
  unfold contains
  rw [open_, if_neg Bool.false_ne_true]
  cases empty : f.empty with
  | true => exact ⟨false, rfl, iff_of_false nofun nofun⟩
  | false =>
    rw [if_neg Bool.false_ne_true]
    obtain ⟨found, run, iff⟩ := hasBits_spec f.tweak key (List.range f.hashFuncs) bytes
    exact ⟨found, run, iff.trans (and_iff_right rfl).symm⟩

/-! ### What the calls do -/

section Calls

variable (txnHash : Transaction → Uint256) (paysToKeys : Script → Bool)

theorem containsAny_defined (open_ : f.full = false) (bytes : f.data ≠ []) (values : List Data) :
    ∃ found, f.containsAny values = some found := by
  induction values with
  | nil => exact ⟨false, rfl⟩
  | cons value values ih =>
    unfold containsAny
    split
    · exact ih
    · obtain ⟨found, run, -⟩ := contains_spec value open_ bytes
      rw [run]
      cases found with
      | false => exact ih
      | true => exact ⟨true, rfl⟩

theorem matchInputs_defined (open_ : f.full = false) (bytes : f.data ≠ []) (inputs : List Input) :
    ∃ found, f.matchInputs inputs = some found := by
  induction inputs with
  | nil => exact ⟨false, rfl⟩
  | cons input inputs ih =>
    unfold matchInputs
    obtain ⟨spent, run, -⟩ := contains_spec (writeCoin input.prevout) open_ bytes
    rw [run]
    cases spent with
    | true => exact ⟨true, rfl⟩
    | false =>
      obtain ⟨found, run⟩ := containsAny_defined open_ bytes (elements input.signature)
      show ∃ found, (f.containsAny (elements input.signature)).bind _ = some found
      rw [run]
      cases found with
      | true => exact ⟨true, rfl⟩
      | false => exact ih

theorem matchOutputs_grown (hash : Uint256) (outputs : List Output) (i : Nat) (open_ : f.full = false)
    (bytes : f.data ≠ []) :
    ∃ found keys f', matchOutputs paysToKeys hash outputs i f = some (found, keys, f') ∧ Grown keys f f' := by
  induction outputs generalizing i f with
  | nil => exact ⟨false, [], f, rfl, Grown.refl f⟩
  | cons output outputs ih =>
    obtain ⟨found, run⟩ := containsAny_defined open_ bytes (elements output.script)
    unfold matchOutputs
    rw [run]
    dsimp only [Option.bind_eq_bind, Option.bind_some]
    split
    · obtain ⟨f₁, inserted, grown⟩ := insert_grown (writeCoin { hash := hash, index := i }) open_ bytes
      obtain ⟨later, keys, f₂, rest, more⟩ := ih (i + 1) (grown.full.trans open_) (grown.bytes bytes)
      rw [inserted]
      dsimp only [Option.bind_some]
      rw [rest]
      exact ⟨true, _, f₂, rfl, grown.trans more⟩
    · obtain ⟨later, keys, f₂, rest, more⟩ := ih (i + 1) open_ bytes
      rw [rest]
      exact ⟨_, keys, f₂, rfl, more⟩

theorem isRelevantAndUpdate_grown (txn : Transaction) (sane : f.data = [] → f.full = true) :
    ∃ found keys f', f.isRelevantAndUpdate txnHash paysToKeys txn = some (found, keys, f') ∧ Grown keys f f' ∧
      (f.empty = true → keys = []) := by
  unfold isRelevantAndUpdate
  by_cases full : f.full = true
  · rw [if_pos full]
    exact ⟨true, [], f, rfl, Grown.refl f, fun _ => rfl⟩
  have bytes : f.data ≠ [] := fun none => full (sane none)
  have open_ : f.full = false := Bool.eq_false_iff.mpr full
  rw [if_neg full]
  by_cases empty : f.empty = true
  · rw [if_pos empty]
    exact ⟨false, [], f, rfl, Grown.refl f, fun _ => rfl⟩
  rw [if_neg empty]
  obtain ⟨known, run, -⟩ := contains_spec (writeHash (txnHash txn)) open_ bytes
  obtain ⟨found, keys, f', matched, grown⟩ := matchOutputs_grown paysToKeys
    (txnHash txn) txn.outputs 0 open_ bytes
  dsimp only
  rw [run]
  dsimp only [Option.bind_eq_bind, Option.bind_some]
  rw [matched]
  dsimp only [Option.bind_some]
  split
  · exact ⟨true, keys, f', rfl, grown, fun is => absurd is empty⟩
  · obtain ⟨relevant, inputs⟩ := matchInputs_defined (grown.full.trans open_) (grown.bytes bytes) txn.inputs
    rw [inputs]
    exact ⟨relevant, keys, f', rfl, grown, fun is => absurd is empty⟩

/-- A key is inserted by a `filteradd` message. -/
def Adds : FilterOp → Prop
  | .add data => data.length ≤ 520
  | .relevant _ => False

/-- One message or call. -/
theorem apply_grown (op : FilterOp) (sane : f.data = [] → f.full = true) :
    ∃ keys f', apply txnHash paysToKeys op f = some (keys, f') ∧ (f.full = false → Grown keys f f') ∧
      (f.full = true → f' = f) ∧ (f.empty = true → (keys = [] ↔ ¬Adds op)) := by
  cases op with
  | add data =>
    unfold apply
    dsimp only
    by_cases short : data.length ≤ 520
    · rw [if_pos short]
      by_cases full : f.full = true
      · rw [insert_full data full]
        refine ⟨[data], f, rfl, fun open_ => ?_, fun _ => rfl, fun _ => iff_of_false nofun (not_not.mpr short)⟩
        rw [full] at open_
        cases open_
      · have open_ := Bool.eq_false_iff.mpr full
        obtain ⟨f', inserted, grown⟩ := insert_grown data open_ fun none => full (sane none)
        rw [inserted]
        exact ⟨[data], f', rfl, fun _ => grown, fun is => absurd is full,
          fun _ => iff_of_false nofun (not_not.mpr short)⟩
    · rw [if_neg short]
      exact ⟨[], f, rfl, fun _ => Grown.refl f, fun _ => rfl, fun _ => iff_of_true rfl short⟩
  | relevant txn =>
    obtain ⟨found, keys, f', run, grown, quiet⟩ := isRelevantAndUpdate_grown txnHash paysToKeys txn sane
    unfold apply
    dsimp only
    rw [run]
    refine ⟨keys, f', rfl, fun _ => grown, fun full => ?_, fun empty => iff_of_true (quiet empty) id⟩
    unfold isRelevantAndUpdate at run
    rw [if_pos full] at run
    obtain ⟨-, same⟩ := Prod.mk.inj (Option.some.inj run)
    exact (Prod.mk.inj same).2.symm

/-- Any messages and calls. -/
theorem applyAll_grown (ops : List FilterOp) (sane : f.data = [] → f.full = true) :
    ∃ keys f', applyAll txnHash paysToKeys ops f = some (keys, f') ∧ (f.full = false → Grown keys f f') ∧
      (f.full = true → f' = f) ∧ (f.empty = true → (keys = [] ↔ ∀ op ∈ ops, ¬Adds op)) := by
  induction ops generalizing f with
  | nil => exact ⟨[], f, rfl, fun _ => Grown.refl f, fun _ => rfl, fun _ => iff_of_true rfl nofun⟩
  | cons op ops ih =>
    obtain ⟨keys, f₁, run, grown, full, quiet⟩ := apply_grown txnHash paysToKeys op sane
    have sane₁ : f₁.data = [] → f₁.full = true := by
      by_cases is : f.full = true
      · rw [full is]
        exact sane
      · have open_ := Bool.eq_false_iff.mpr is
        exact fun none => absurd none ((grown open_).bytes fun none => is (sane none))
    obtain ⟨more, f₂, rest, grown₂, full₂, quiet₂⟩ := ih sane₁
    refine ⟨keys ++ more, f₂, ?_, fun open_ => ?_, fun is => ?_, fun empty => ?_⟩
    · unfold applyAll
      rw [run]
      dsimp only [Option.bind_eq_bind, Option.bind_some]
      rw [rest]
      rfl
    · exact (grown open_).trans (grown₂ ((grown open_).full.trans open_))
    · obtain rfl := full is
      exact full₂ is
    · rw [List.append_eq_nil_iff, List.forall_mem_cons]
      have still (none : ¬Adds op) : f₁.empty = true := by
        by_cases is : f.full = true
        · rw [full is, empty]
        · rw [(grown (Bool.eq_false_iff.mpr is)).empty (Bool.eq_false_iff.mpr is), empty, (quiet empty).mpr none]
          rfl
      rw [quiet empty]
      exact and_congr_right fun none => quiet₂ (still none)

end Calls

/-! ### The filter of the other side -/

theorem setBits_length {nums : List Nat} {data' : Data} (run : setBits tweak key nums data = some data') :
    data'.length = data.length := by
  induction nums generalizing data with
  | nil => rw [← Option.some.inj run]
  | cons num nums ih =>
    obtain ⟨index, -, run⟩ := Option.bind_eq_some_iff.mp run
    rw [ih run, setBit_length]

theorem insert_same (inserted : f.insert key = some f') :
    f'.data.length = f.data.length ∧ f'.full = f.full ∧ (f.full = true → f' = f) := by
  unfold insert at inserted
  split at inserted
  · obtain rfl := Option.some.inj inserted
    exact ⟨rfl, rfl, fun _ => rfl⟩
  · obtain ⟨data', run, same⟩ := Option.bind_eq_some_iff.mp inserted
    obtain rfl := Option.some.inj same
    exact ⟨setBits_length run, rfl, fun is => absurd is ‹_›⟩

/-- The keys of a set are inserted, unless the filter is full or has no bytes. -/
theorem insertAll_spec (built : insertAll keys f = some f') :
    f'.data.length = f.data.length ∧ (f.full = true → f' = f) ∧
      (f.full = false → f.data ≠ [] → Grown keys f f') := by
  induction keys generalizing f with
  | nil =>
    obtain rfl := Option.some.inj built
    exact ⟨rfl, fun _ => rfl, fun _ _ => Grown.refl f⟩
  | cons key keys ih =>
    obtain ⟨f₁, inserted, rest⟩ := Option.bind_eq_some_iff.mp built
    obtain ⟨length, full, same⟩ := insert_same inserted
    obtain ⟨length', same', grown'⟩ := ih rest
    refine ⟨length'.trans length, fun is => (same' (full.trans is)).trans (same is), fun open_ bytes => ?_⟩
    obtain ⟨f₂, inserted₂, grown⟩ := insert_grown key open_ bytes
    obtain rfl := Option.some.inj (inserted.symm.trans inserted₂)
    exact grown.trans (grown' (full.trans open_) (grown.bytes bytes))

/-- A filter that is not too large is read as it was written, without its flags. -/
theorem read_back (fits : f.isWithinSizeConstraints = true) :
    read { bytes := f.write, good := true } =
      some ({ f with full := true, empty := false }, { bytes := [], good := true }) := by
  obtain ⟨small, few⟩ := of_decide_eq_true fits
  have back : ReadsBack (fun f : BloomFilter => f.data.length ≤ 36000 ∧ f.hashFuncs ≤ 50 ∧ f.full = true ∧
      f.empty = false) write read := by
    refine (readByte_back.vector.pair (readFresh_back.pair (readFresh_back.pair readFresh_back))).map
      (fun f => (f.data, writeInt 4 f.hashFuncs, littleBytes 4 f.tweak.toNat, [f.flags])) ?_ ?_ fun _ _ => rfl
    · rintro ⟨data, full, empty, hashFuncs, tweak, flags⟩ ⟨-, few, isFull, isOpen⟩
      obtain rfl : full = true := isFull
      obtain rfl : empty = false := isOpen
      have funcs : littleEndian (writeInt 4 hashFuncs) = hashFuncs := by
        have few : hashFuncs ≤ 50 := few
        unfold writeInt
        rw [Int.emod_eq_of_lt (by omega) (by omega), Int.toNat_natCast, littleEndian_littleBytes (by omega)]
      have number : littleEndian (littleBytes 4 tweak.toNat) = tweak.toNat :=
        littleEndian_littleBytes tweak.toNat_lt
      dsimp only
      rw [funcs, number, UInt32.ofNat_toNat]
      rfl
    · rintro f ⟨small, -⟩
      exact ⟨⟨small.trans (by decide), fun _ _ => trivial⟩, writeInt_length 4 _, littleBytes_length 4 _, rfl⟩
  have read := back { f with full := true, empty := false } ⟨small, few, rfl, rfl⟩ []
  rw [List.append_nil] at read
  exact read

theorem filterload_write {sender : BloomFilter} (fits : sender.isWithinSizeConstraints = true)
    (old : BloomFilter) :
    filterload sender.write old = some sender.updateEmptyFull := by
  unfold filterload
  rw [read_back fits]
  exact if_pos fits

/-- **A filter that was loaded contains the keys it was sent with and those that were inserted since, if and only
if it is not one with zero hash functions and bytes that are all zero, that was sent with a key and into which
nothing was inserted since.** No index is computed with a remainder by zero. -/
theorem kept_iff (txnHash : Transaction → Uint256) (paysToKeys : Script → Bool) {sender₀ sender : BloomFilter}
    {keys : List Data} (consistent : sender₀.full = true → ∀ byte ∈ sender₀.data, byte = 0xff)
    (built : insertAll keys sender₀ = some sender) (fits : sender.isWithinSizeConstraints = true)
    (old : BloomFilter) (ops : List FilterOp) :
    ∃ f₀ inserted f, filterload sender.write old = some f₀ ∧
      applyAll txnHash paysToKeys ops f₀ = some (inserted, f) ∧ (∀ key, ∃ found, f.contains key = some found) ∧
      ((∀ key ∈ keys ++ inserted, f.contains key = some true) ↔
        ¬(keys ≠ [] ∧ sender.hashFuncs = 0 ∧ sender.data ≠ [] ∧ (∀ byte ∈ sender.data, byte = 0) ∧
          ∀ op ∈ ops, ¬Adds op)) := by
  have full_iff : sender.updateEmptyFull.full = true ↔ ∀ byte ∈ sender.data, byte = 0xff := by
    simp [updateEmptyFull]
  have empty_iff : sender.updateEmptyFull.empty = true ↔ ∀ byte ∈ sender.data, byte = 0 := by
    simp [updateEmptyFull]
  have sane : sender.updateEmptyFull.data = [] → sender.updateEmptyFull.full = true := by
    intro none
    rw [full_iff, show sender.data = [] from none]
    exact nofun
  obtain ⟨inserted, f, run, grown, same, quiet⟩ := applyAll_grown txnHash paysToKeys ops sane
  refine ⟨_, inserted, f, filterload_write fits old, run, ?_⟩
  obtain ⟨length, same₀, grown₀⟩ := insertAll_spec built
  by_cases full : sender.updateEmptyFull.full = true
  · -- everything is contained
    have all (key : Data) : f.contains key = some true := by
      rw [same full]
      exact if_pos full
    refine ⟨fun key => ⟨true, all key⟩, iff_of_true (fun key _ => all key) ?_⟩
    rintro ⟨-, -, bytes, zeros, -⟩
    obtain ⟨byte, member⟩ := List.exists_mem_of_ne_nil _ bytes
    have ones := full_iff.mp full byte member
    rw [zeros byte member] at ones
    cases ones
  have open_ := Bool.eq_false_iff.mpr full
  have bytes : sender.data ≠ [] := fun none => full (sane none)
  have open₀ : sender₀.full = false := by
    refine Bool.eq_false_iff.mpr fun is => full (full_iff.mpr ?_)
    rw [same₀ is]
    exact consistent is
  have bytes₀ : sender₀.data ≠ [] := by
    rw [← List.length_pos_iff, ← length]
    exact List.length_pos_iff.mpr bytes
  have grown₀ := grown₀ open₀ bytes₀
  have grown := grown open_
  have defined (key : Data) := contains_spec key (grown.full.trans open_) (grown.bytes bytes)
  have holds : ∀ key ∈ keys ++ inserted, f.Holds key := by
    intro key member
    rcases List.mem_append.mp member with sent | since
    · exact grown.still (grown₀.holds open₀ key sent)
    · exact grown.holds open_ key since
  have flag := grown.empty open_
  refine ⟨fun key => ?_, ?_⟩
  · obtain ⟨found, run, -⟩ := defined key
    exact ⟨found, run⟩
  have contained : (∀ key ∈ keys ++ inserted, f.contains key = some true) ↔ keys ++ inserted = [] ∨
    f.empty = false := by
    constructor
    · intro all
      by_cases none : keys ++ inserted = []
      · exact .inl none
      · obtain ⟨key, member⟩ := List.exists_mem_of_ne_nil _ none
        obtain ⟨found, run, iff⟩ := defined key
        rw [all key member] at run
        exact .inr (iff.mp (Option.some.inj run).symm).1
    · rintro (none | empty) key member
      · rw [none] at member
        cases member
      · obtain ⟨found, run, iff⟩ := defined key
        rw [run, iff.mpr ⟨empty, holds key member⟩]
  rw [contained]
  by_cases empty : sender.updateEmptyFull.empty = true
  · have zeros := empty_iff.mp empty
    rw [empty, Bool.true_and] at flag
    by_cases none : inserted = []
    · have still : f.empty = true := by rw [flag, none]; rfl
      rw [still, none, List.append_nil]
      constructor
      · rintro (no | no) ⟨some, -⟩
        · exact some no
        · cases no
      · intro kept
        left
        by_contra some
        refine kept ⟨some, ?_, bytes, zeros, (quiet empty).mp none⟩
        -- with a hash function, a key that was sent has set a bit
        by_contra positive
        obtain ⟨key, member⟩ := List.exists_mem_of_ne_nil _ some
        obtain ⟨index, found⟩ := hash_defined sender.tweak key bytes 0
        have set := grown₀.holds open₀ key member 0 (List.mem_range.mpr (Nat.pos_of_ne_zero positive)) index found
        rw [testBit_zeros zeros] at set
        cases set
    · have some : f.empty = false := by rw [flag, List.isEmpty_eq_false_iff.mpr none]
      exact iff_of_true (.inr some) fun ⟨_, _, _, _, quiet'⟩ => none ((quiet empty).mpr quiet')
  · rw [Bool.eq_false_iff.mpr empty, Bool.false_and] at flag
    exact iff_of_true (.inr flag) fun ⟨_, _, _, zeros, _⟩ => empty (empty_iff.mpr zeros)

end BloomFilter

namespace Small

/-- A filter of one byte with so many hash functions, before anything was inserted. -/
def fresh (hashFuncs : Nat) : BloomFilter :=
  { data := [0], full := false, empty := false, hashFuncs := hashFuncs, tweak := 5, flags := 1 }

end Small

namespace BloomFilter

open Libcoin.Small

/-- A filter with zero hash functions does not contain the key that it was sent with. -/
theorem kept_not : ∃ sender, insertAll [[1, 2, 3]] (fresh 0) = some sender ∧
    sender.isWithinSizeConstraints = true ∧
    (filterload sender.write (fresh 0)).bind (fun f => f.contains [1, 2, 3]) = some false :=
  ⟨{ fresh 0 with empty := false }, by decide +kernel, by decide, by decide +kernel⟩

/-- A filter with three hash functions, a `filteradd` message and one that is too long. -/
theorem kept_iff_fresh : ∃ sender f₀ inserted f, insertAll [[1, 2, 3]] (fresh 3) = some sender ∧
    filterload sender.write (fresh 0) = some f₀ ∧
    applyAll (fun _ => 7) (fun _ => true) [.add [4], .add (List.replicate 521 0)] f₀ = some (inserted, f) ∧
    (∀ key, ∃ found, f.contains key = some found) ∧
    ((∀ key ∈ [[1, 2, 3]] ++ inserted, f.contains key = some true) ↔
      ¬([[(1 : UInt8), 2, 3]] ≠ [] ∧ sender.hashFuncs = 0 ∧ sender.data ≠ [] ∧ (∀ byte ∈ sender.data, byte = 0) ∧
        ∀ op ∈ [FilterOp.add [4], .add (List.replicate 521 0)], ¬Adds op)) := by
  have built : ((insertAll [[1, 2, 3]] (fresh 3)).any fun f => f.isWithinSizeConstraints) =
    true := by decide +kernel
  obtain ⟨sender, run, fits⟩ := (Option.any_eq_true ..).mp built
  obtain ⟨f₀, inserted, f, loaded, applied, kept⟩ := kept_iff (fun _ => 7) (fun _ => true)
    (show (fresh 3).full = true → ∀ byte ∈ (fresh 3).data, byte = 0xff from nofun) run fits (fresh 0)
    [.add [4], .add (List.replicate 521 0)]
  exact ⟨sender, f₀, inserted, f, run, loaded, applied, kept⟩

end BloomFilter

end Libcoin
