/-
The Merkle trie refines a finite map.

* `Represents` relates an ordered trie to the map from keys to elements with the same elements.
* `find_represents`, `insert_represents` and `remove_represents` are the simulation of the three
  operations; `perform_represents` is one step and `run_represents` a whole sequence of operations, with
  the same answers on both sides.
-/

import Libcoin.Trie.Updates
import Libcoin.Library.OrderedMap

namespace Libcoin

variable {E Key Hash : Type}

/-- A call of a member function of the trie. -/
inductive TrieOp (E Key : Type)
  | find (key : Key)
  | insert (elem : E)
  | remove (key : Key)
  | authenticated (on : Bool)

/-- What a call answers: the element that the iterator points at, or the returned Boolean. -/
inductive TrieAnswer (E : Type)
  | found (elem : Option E)
  | changed (done : Bool)
  | none
  deriving DecidableEq, Repr

namespace MerkleTrie

/-- The element of a leaf iterator that `find` returns. -/
def findElem (ops : Elem E Key Hash) (trie : MerkleTrie E Key Hash) (key : Key) : Option E :=
  (trie.find ops key).bind Iterator.elem?

def perform (ops : Elem E Key Hash) (trie : MerkleTrie E Key Hash) :
    TrieOp E Key → TrieAnswer E × MerkleTrie E Key Hash
  | .find key => (.found (trie.findElem ops key), trie)
  | .insert elem => ((trie.insert ops elem).map .changed id)
  | .remove key => ((trie.remove ops key).map .changed id)
  | .authenticated on => (.none, trie.setAuthenticated ops on)

/-- A sequence of calls, with the answers in their order. -/
def run (ops : Elem E Key Hash) : MerkleTrie E Key Hash → List (TrieOp E Key) →
    List (TrieAnswer E) × MerkleTrie E Key Hash
  | trie, [] => ([], trie)
  | trie, call :: calls =>
    let (answer, trie) := trie.perform ops call
    let (answers, trie) := run ops trie calls
    (answer :: answers, trie)

end MerkleTrie

/-! ### The finite map -/

namespace TrieOp

variable [LinearOrder Key]

/-- The calls on a finite map: a stored key is not replaced. -/
def onMap (ops : Elem E Key Hash) (stored : Map Key E) : TrieOp E Key → TrieAnswer E × Map Key E
  | find key => (.found stored[key]?, stored)
  | insert elem =>
    if stored[ops.key elem]?.isSome then (.changed false, stored)
    else (.changed true, stored.insert (ops.key elem) elem)
  | remove key =>
    if stored[key]?.isSome then (.changed true, stored.erase key) else (.changed false, stored)
  | authenticated _ => (.none, stored)

def runOnMap (ops : Elem E Key Hash) : Map Key E → List (TrieOp E Key) → List (TrieAnswer E) × Map Key E
  | stored, [] => ([], stored)
  | stored, call :: calls =>
    let (answer, stored) := onMap ops stored call
    let (answers, stored) := runOnMap ops stored calls
    (answer :: answers, stored)

end TrieOp

namespace MerkleTrie

variable {bits : BitElem E Key Hash}

def Ordered (bits : BitElem E Key Hash) (trie : MerkleTrie E Key Hash) : Prop :=
  ∀ root, trie.root = some root → root.Ordered bits

/-- What `find` returns in terms of the elements. -/
theorem Ordered.findElem_eq {trie : MerkleTrie E Key Hash} (ordered : trie.Ordered bits) {key : Key} {e : E} :
    trie.findElem bits.toElem key = some e ↔ e ∈ trie.elems ∧ bits.key e = key := by
  obtain ⟨root, on⟩ := trie
  cases root with
  | none => exact ⟨nofun, fun stored => absurd stored.1 (List.not_mem_nil)⟩
  | some root =>
    have root_ordered := ordered root rfl
    unfold findElem find
    by_cases enters : root.descends bits.toElem key = true
    · obtain ⟨steps, back, reaches⟩ := Reaches.exists_of_descends enters
      simp only [if_pos enters, reaches.find, Option.bind_some]
      constructor
      · intro found
        cases back with
        | leaf elem =>
          cases found
          exact reaches.mem
        | branch => cases found
      · rintro ⟨member, rfl⟩
        rw [reaches.of_mem root_ordered member]
        rfl
    · simp only [if_neg enters, Option.bind_some]
      refine ⟨nofun, ?_⟩
      rintro ⟨member, rfl⟩
      exact absurd (root_ordered.descends member) enters

/-- Insertion refuses a stored key, and otherwise adds the element. -/
theorem Ordered.insert_spec {trie : MerkleTrie E Key Hash} (ordered : trie.Ordered bits) (elem : E) :
    (∃ e ∈ trie.elems, bits.key e = bits.key elem ∧ trie.insert bits.toElem elem = (false, trie)) ∨
      ((∀ e ∈ trie.elems, bits.key e ≠ bits.key elem) ∧ (trie.insert bits.toElem elem).1 = true ∧
        (trie.insert bits.toElem elem).2.Ordered bits ∧
        (trie.insert bits.toElem elem).2.elems.Perm (elem :: trie.elems)) := by
  obtain ⟨root, on⟩ := trie
  cases root with
  | none =>
    refine .inr ⟨nofun, rfl, ?_, List.Perm.refl _⟩
    intro root is_root
    cases is_root
    trivial
  | some root =>
    have root_ordered := ordered root rfl
    unfold insert find
    by_cases enters : root.descends bits.toElem (bits.key elem) = true
    · obtain ⟨steps, back, reaches⟩ := Reaches.exists_of_descends enters
      simp only [if_pos enters, reaches.find]
      cases back with
      | leaf e => exact .inl ⟨e, reaches.mem.1, reaches.mem.2, rfl⟩
      | branch left right own depth hash =>
        obtain ⟨changed, perm⟩ := Node.insertAt_spec on reaches root_ordered enters nofun
        refine .inr ⟨fun e member same => ?_, rfl, fun _ is_root => ?_, perm⟩
        · rw [← same] at reaches
          cases reaches.of_mem root_ordered member
        · cases is_root
          exact changed
    · have outside := Bool.eq_false_iff.mpr enters
      have short : (root.compare bits.toElem (bits.key elem)).natAbs < endCompare := by
        rw [Node.natAbs_compare]
        exact (HighBit.distance_le_of_lt (bits.number_lt _) (bits.number_lt _)).trans_lt bits.width_lt
      simp only [if_neg enters, if_pos short]
      refine .inr ⟨fun e member same => ?_, trivial, fun _ is_root => ?_, ?_⟩
      · rw [← same] at enters
        exact enters (root_ordered.descends member)
      · cases is_root
        rw [Node.ordered_hashed]
        exact Node.splice_ordered root_ordered outside
      · change (Node.elems _).Perm _
        rw [Node.elems_hashed]
        exact Node.splice_elems outside

/-- Removal takes the element of a stored key away, and otherwise changes nothing. -/
theorem Ordered.remove_spec {trie : MerkleTrie E Key Hash} (ordered : trie.Ordered bits) (key : Key) :
    (∃ e, bits.key e = key ∧ (trie.remove bits.toElem key).1 = true ∧
        (trie.remove bits.toElem key).2.Ordered bits ∧
        trie.elems.Perm (e :: (trie.remove bits.toElem key).2.elems)) ∨
      ((∀ e ∈ trie.elems, bits.key e ≠ key) ∧ trie.remove bits.toElem key = (false, trie)) := by
  obtain ⟨root, on⟩ := trie
  cases root with
  | none => exact .inr ⟨nofun, rfl⟩
  | some root =>
    have root_ordered := ordered root rfl
    unfold remove find
    by_cases enters : root.descends bits.toElem key = true
    · obtain ⟨steps, back, reaches⟩ := Reaches.exists_of_descends enters
      simp only [if_pos enters, reaches.find]
      cases back with
      | leaf e =>
        obtain ⟨keeps, perm⟩ := Node.removeAt_spec on reaches root_ordered
        exact .inl ⟨e, reaches.mem.2, rfl, keeps, perm⟩
      | branch left right own depth hash =>
        refine .inr ⟨fun e member same => ?_, rfl⟩
        rw [← same] at reaches
        cases reaches.of_mem root_ordered member
    · simp only [if_neg enters]
      refine .inr ⟨fun e member same => ?_, trivial⟩
      rw [← same] at enters
      exact enters (root_ordered.descends member)

theorem Ordered.setAuthenticated {trie : MerkleTrie E Key Hash} (ordered : trie.Ordered bits) (on : Bool) :
    (trie.setAuthenticated bits.toElem on).Ordered bits ∧
      (trie.setAuthenticated bits.toElem on).elems = trie.elems := by
  unfold MerkleTrie.setAuthenticated
  split_ifs with same turned_on
  · exact ⟨ordered, rfl⟩
  · obtain ⟨root, was⟩ := trie
    cases root with
    | none => exact ⟨nofun, rfl⟩
    | some root =>
      refine ⟨fun _ is_root => ?_, Node.elems_rehashAll _ root⟩
      cases is_root
      exact Node.ordered_rehashAll bits (ordered root rfl)
  · exact ⟨ordered, rfl⟩

theorem Ordered.perform {trie : MerkleTrie E Key Hash} (ordered : trie.Ordered bits)
    (call : TrieOp E Key) : (trie.perform bits.toElem call).2.Ordered bits := by
  cases call with
  | find key => exact ordered
  | insert elem =>
    rcases ordered.insert_spec elem with ⟨-, -, -, refused⟩ | ⟨-, -, changed, -⟩
    · rw [MerkleTrie.perform, refused]
      exact ordered
    · exact changed
  | remove key =>
    rcases ordered.remove_spec key with ⟨-, -, -, changed, -⟩ | ⟨-, refused⟩
    · exact changed
    · rw [MerkleTrie.perform, refused]
      exact ordered
  | authenticated on => exact (ordered.setAuthenticated on).1

theorem Ordered.run {trie : MerkleTrie E Key Hash} (ordered : trie.Ordered bits)
    (calls : List (TrieOp E Key)) : (trie.run bits.toElem calls).2.Ordered bits := by
  induction calls generalizing trie with
  | nil => exact ordered
  | cons call calls ih => exact ih (ordered.perform call)

theorem ordered_empty : (empty : MerkleTrie E Key Hash).Ordered bits := nofun

end MerkleTrie

section Simulation

variable [LinearOrder Key] {bits : BitElem E Key Hash}

/-- An ordered trie and the map with the same elements. -/
structure Represents (bits : BitElem E Key Hash) (trie : MerkleTrie E Key Hash) (stored : Map Key E) :
    Prop where
  ordered : trie.Ordered bits
  lookup : ∀ key e, stored[key]? = some e ↔ e ∈ trie.elems ∧ bits.key e = key

namespace Represents

variable {trie : MerkleTrie E Key Hash} {stored : Map Key E}

theorem empty : Represents bits MerkleTrie.empty ∅ where
  ordered := MerkleTrie.ordered_empty
  lookup _ _ := by simp [MerkleTrie.elems, MerkleTrie.empty, Node.elemsOf]

theorem findElem_eq (same : Represents bits trie stored) (key : Key) :
    trie.findElem bits.toElem key = stored[key]? := by
  ext e
  rw [same.ordered.findElem_eq, same.lookup]

/-- A trie with a new element stands for the map with it. -/
theorem insertMap (same : Represents bits trie stored) {elem : E} {trie' : MerkleTrie E Key Hash}
    (missing : stored[bits.key elem]? = none) (ordered : trie'.Ordered bits)
    (perm : trie'.elems.Perm (elem :: trie.elems)) :
    Represents bits trie' (stored.insert (bits.key elem) elem) where
  ordered := ordered
  lookup key e := by
    rw [Map.lookup_insert, perm.mem_iff, List.mem_cons]
    by_cases own : bits.key elem = key
    · have absent : ∀ e, ¬ (e ∈ trie.elems ∧ bits.key e = key) := by
        intro e stored_e
        rw [← same.lookup, ← own, missing] at stored_e
        cases stored_e
      rw [if_pos own]
      constructor
      · intro equal
        cases equal
        exact ⟨.inl rfl, own⟩
      · rintro ⟨rfl | member, key_e⟩
        · rfl
        · exact absurd ⟨member, key_e⟩ (absent e)
    · rw [if_neg own, same.lookup]
      constructor
      · exact fun ⟨member, key_e⟩ => ⟨.inr member, key_e⟩
      · rintro ⟨rfl | member, key_e⟩
        · exact absurd key_e own
        · exact ⟨member, key_e⟩

/-- A trie without one of its elements stands for the map without its key. -/
theorem eraseMap (same : Represents bits trie stored) {elem : E} {trie' : MerkleTrie E Key Hash}
    (distinct : (trie.elems.map bits.num).Nodup) (ordered : trie'.Ordered bits)
    (perm : trie.elems.Perm (elem :: trie'.elems)) :
    Represents bits trie' (stored.erase (bits.key elem)) where
  ordered := ordered
  lookup key e := by
    rw [Map.lookup_erase]
    have split := (perm.map bits.num).nodup_iff.mp distinct
    rw [List.map_cons, List.nodup_cons] at split
    by_cases own : bits.key elem = key
    · rw [if_pos own]
      refine ⟨nofun, ?_⟩
      rintro ⟨member, key_e⟩
      refine absurd (List.mem_map.mpr ⟨e, member, ?_⟩) split.1
      unfold BitElem.num
      rw [key_e, own]
    · rw [if_neg own, same.lookup, perm.mem_iff, List.mem_cons]
      constructor
      · rintro ⟨rfl | member, key_e⟩
        · exact absurd key_e own
        · exact ⟨member, key_e⟩
      · exact fun ⟨member, key_e⟩ => ⟨.inr member, key_e⟩

theorem nodup (same : Represents bits trie stored) : (trie.elems.map bits.num).Nodup := by
  obtain ⟨root, on⟩ := trie
  cases root with
  | none => exact List.nodup_nil
  | some root => exact (same.ordered root rfl).nodup

theorem insert (same : Represents bits trie stored) (elem : E) :
    (trie.perform bits.toElem (.insert elem)).1 = (TrieOp.onMap bits.toElem stored (.insert elem)).1 ∧
      Represents bits (trie.perform bits.toElem (.insert elem)).2
        (TrieOp.onMap bits.toElem stored (.insert elem)).2 := by
  unfold MerkleTrie.perform TrieOp.onMap
  rcases same.ordered.insert_spec elem with ⟨e, member, own, refused⟩ | ⟨absent, done, ordered, perm⟩
  · have present : stored[bits.key elem]? = some e := (same.lookup _ e).mpr ⟨member, own⟩
    simp only [refused, present, Option.isSome_some, if_true]
    exact ⟨rfl, same⟩
  · have missing : stored[bits.key elem]? = none := by
      refine Option.eq_none_iff_forall_ne_some.mpr fun e present => ?_
      obtain ⟨member, own⟩ := (same.lookup _ e).mp present
      exact absent e member own
    simp only [missing, Option.isSome_none]
    exact ⟨congrArg TrieAnswer.changed done, same.insertMap missing ordered perm⟩

theorem remove (same : Represents bits trie stored) (key : Key) :
    (trie.perform bits.toElem (.remove key)).1 = (TrieOp.onMap bits.toElem stored (.remove key)).1 ∧
      Represents bits (trie.perform bits.toElem (.remove key)).2
        (TrieOp.onMap bits.toElem stored (.remove key)).2 := by
  unfold MerkleTrie.perform TrieOp.onMap
  rcases same.ordered.remove_spec key with ⟨e, rfl, done, ordered, perm⟩ | ⟨absent, refused⟩
  · have present : stored[bits.key e]? = some e :=
      (same.lookup _ e).mpr ⟨perm.mem_iff.mpr List.mem_cons_self, rfl⟩
    simp only [present, Option.isSome_some, if_true]
    exact ⟨congrArg TrieAnswer.changed done, same.eraseMap same.nodup ordered perm⟩
  · have missing : stored[key]? = none := by
      refine Option.eq_none_iff_forall_ne_some.mpr fun e present => ?_
      obtain ⟨member, own⟩ := (same.lookup _ e).mp present
      exact absent e member own
    simp only [refused, missing, Option.isSome_none]
    exact ⟨rfl, same⟩

/-- One call. -/
theorem perform (same : Represents bits trie stored) (call : TrieOp E Key) :
    (trie.perform bits.toElem call).1 = (TrieOp.onMap bits.toElem stored call).1 ∧
      Represents bits (trie.perform bits.toElem call).2 (TrieOp.onMap bits.toElem stored call).2 := by
  cases call with
  | find key => exact ⟨congrArg TrieAnswer.found (same.findElem_eq key), same⟩
  | insert elem => exact same.insert elem
  | remove key => exact same.remove key
  | authenticated on =>
    obtain ⟨ordered, elems⟩ := same.ordered.setAuthenticated on
    refine ⟨rfl, ordered, fun key e => ?_⟩
    change stored[key]? = some e ↔ e ∈ (trie.setAuthenticated bits.toElem on).elems ∧ bits.key e = key
    rw [elems]
    exact same.lookup key e

/-- A sequence of calls. -/
theorem run (same : Represents bits trie stored) (calls : List (TrieOp E Key)) :
    (trie.run bits.toElem calls).1 = (TrieOp.runOnMap bits.toElem stored calls).1 ∧
      Represents bits (trie.run bits.toElem calls).2 (TrieOp.runOnMap bits.toElem stored calls).2 := by
  induction calls generalizing trie stored with
  | nil => exact ⟨rfl, same⟩
  | cons call calls ih =>
    obtain ⟨answer, same⟩ := same.perform call
    obtain ⟨answers, same⟩ := ih same
    exact ⟨congrArg₂ List.cons answer answers, same⟩

end Represents

end Simulation

end Libcoin
