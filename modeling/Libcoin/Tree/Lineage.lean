/-
What a block tree is about, without its representation: a list of known blocks, newest first, every
one of them with a fresh hash and the hash of an older block as its predecessor.

* `lineage known h` is the path from the block with hash `h` down to the genesis.
* `Grown known` says that the list was grown from a genesis one block at a time.
* `lineage_below` and `lineage_next`: a path is made of the paths of its blocks, so two paths that
  meet stay together (`exists_fork`).
-/

import Libcoin.Tree.SparseTree
import Mathlib.Data.List.Nodup

namespace Libcoin

open TreeElem

section Lineage

variable {Elem Hash : Type} [TreeElem Elem Hash]

/-- The hashes of the blocks of a list. -/
abbrev hashes (blocks : List Elem) : List Hash := blocks.map TreeElem.hash

theorem hashes_append (first second : List Elem) :
    hashes (first ++ second) = hashes first ++ hashes second := List.map_append

/-- The known blocks of a tree, newest first: a genesis, and then blocks with a fresh hash on top of
a known one. -/
inductive Grown : List Elem → Prop
  | genesis (e : Elem) : Grown [e]
  | grow {known : List Elem} {e : Elem} (older : Grown known) (fresh : hash e ∉ hashes known)
      (connected : prev e ∈ hashes known) : Grown (e :: known)

namespace Grown

variable {known : List Elem}

theorem hashes_nodup (grown : Grown known) : (hashes known).Nodup := by
  induction grown with
  | genesis e => simp
  | grow older fresh connected ih => exact List.nodup_cons.mpr ⟨fresh, ih⟩

theorem ne_nil (grown : Grown known) : known ≠ [] := by
  cases grown <;> exact List.cons_ne_nil _ _

theorem eq_of_hash (grown : Grown known) {a b : Elem} (first : a ∈ known) (second : b ∈ known)
    (same : hash a = hash b) : a = b :=
  List.inj_on_of_nodup_map grown.hashes_nodup first second same

end Grown

theorem Grown.mem_hashes_of_sub {known : List Elem} (grown : Grown known) {part : List Elem}
    (sub : ∀ b ∈ part, b ∈ known) {b : Elem} (member : b ∈ known) :
    TreeElem.hash b ∈ hashes part ↔ b ∈ part := by
  constructor
  · intro inside
    obtain ⟨c, inPart, same⟩ := List.mem_map.mp inside
    exact grown.eq_of_hash (sub c inPart) member same ▸ inPart
  · exact fun inside => List.mem_map_of_mem inside

theorem mem_hashes_cons {e : Elem} {known : List Elem} {h : Hash} :
    h ∈ hashes (e :: known) ↔ h = TreeElem.hash e ∨ h ∈ hashes known := by
  rw [hashes, List.map_cons, List.mem_cons]

section Paths

variable [DecidableEq Hash]

/-- The blocks from the one with hash `h` down to the genesis, among blocks listed newest first. -/
def lineage : List Elem → Hash → List Elem
  | [], _ => []
  | e :: older, h => if hash e = h then e :: lineage older (prev e) else lineage older h

/-- The number of steps from the block with hash `h` to the genesis. -/
def depth (known : List Elem) (h : Hash) : Int := (lineage known h).length - 1

/-! ### Paths in any list -/

theorem lineage_cons_self (e : Elem) (older : List Elem) :
    lineage (e :: older) (hash e) = e :: lineage older (prev e) := by
  rw [lineage, if_pos rfl]

theorem lineage_cons_of_ne {e : Elem} {h : Hash} (different : hash e ≠ h) (older : List Elem) :
    lineage (e :: older) h = lineage older h := by
  rw [lineage, if_neg different]

theorem lineage_eq_nil {known : List Elem} {h : Hash} :
    lineage known h = [] ↔ h ∉ hashes known := by
  induction known with
  | nil => simp [lineage]
  | cons e older ih =>
    by_cases same : hash e = h
    · subst same
      simp [lineage_cons_self]
    · rw [lineage_cons_of_ne same, ih, mem_hashes_cons, not_or]
      exact ⟨fun fresh => ⟨Ne.symm same, fresh⟩, And.right⟩

theorem lineage_sublist (known : List Elem) (h : Hash) : (lineage known h).Sublist known := by
  induction known generalizing h with
  | nil => exact List.Sublist.slnil
  | cons e older ih =>
    unfold lineage
    by_cases same : hash e = h
    · rw [if_pos same]
      exact (ih (prev e)).cons_cons e
    · rw [if_neg same]
      exact (ih h).cons e

theorem depth_cons_of_ne {e : Elem} {h : Hash} (different : TreeElem.hash e ≠ h)
    (older : List Elem) : depth (e :: older) h = depth older h := by
  rw [depth, depth, lineage_cons_of_ne different]

theorem mem_of_mem_lineage {known : List Elem} {h : Hash} {b : Elem} (member : b ∈ lineage known h) :
    b ∈ known :=
  (lineage_sublist known h).subset member

theorem hash_of_lineage {known : List Elem} {h : Hash} {b : Elem} {below : List Elem}
    (path : lineage known h = b :: below) : hash b = h := by
  induction known with
  | nil => cases path
  | cons e older ih =>
    by_cases same : hash e = h
    · rw [lineage, if_pos same] at path
      rw [← (List.cons.inj path).1, same]
    · rw [lineage_cons_of_ne same] at path
      exact ih path

/-- A block that no path runs through can be left out of the list. -/
theorem lineage_erase [DecidableEq Elem] {known : List Elem} {gone : Elem} {h : Hash}
    (avoided : gone ∉ lineage known h) : lineage (known.erase gone) h = lineage known h := by
  induction known generalizing h with
  | nil => rfl
  | cons e older ih =>
    by_cases same : hash e = h
    · subst same
      rw [lineage_cons_self, List.mem_cons, not_or] at avoided
      have kept : (e == gone) = false := by simpa using Ne.symm avoided.1
      rw [List.erase_cons_tail (by simp [kept]), lineage_cons_self, lineage_cons_self,
        ih avoided.2]
    · rw [lineage_cons_of_ne same] at avoided ⊢
      by_cases first : e = gone
      · subst first
        rw [List.erase_cons_head]
      · rw [List.erase_cons_tail (by simpa using first), lineage_cons_of_ne same, ih avoided]

/-! ### Paths in a grown list -/

namespace Grown

variable {known : List Elem}

theorem lineage_hashes_nodup (grown : Grown known) (h : Hash) :
    (hashes (lineage known h)).Nodup :=
  grown.hashes_nodup.sublist ((lineage_sublist known h).map TreeElem.hash)

/-- The path of a block starts with the block. -/
theorem exists_lineage (grown : Grown known) {b : Elem} (member : b ∈ known) :
    ∃ below, lineage known (hash b) = b :: below := by
  have some : lineage known (hash b) ≠ [] := fun none =>
    lineage_eq_nil.mp none (List.mem_map_of_mem member)
  obtain ⟨head, below, path⟩ := List.exists_cons_of_ne_nil some
  have started : head ∈ known := mem_of_mem_lineage (path ▸ List.mem_cons_self)
  exact ⟨below, grown.eq_of_hash started member (hash_of_lineage path) ▸ path⟩

/-- What lies below a block of a path is the path of that block. -/
theorem lineage_below (grown : Grown known) {h : Hash} (above : List Elem) {below : List Elem}
    {b : Elem} (path : lineage known h = above ++ b :: below) : lineage known (hash b) = b :: below := by
  induction grown generalizing h above with
  | genesis e =>
    by_cases same : hash e = h
    · subst same
      rw [lineage_cons_self] at path
      have single : above = [] ∧ b = e ∧ below = [] := by
        cases above with
        | nil => simpa [lineage, eq_comm] using path
        | cons head tail => simp [lineage] at path
      obtain ⟨-, rfl, rfl⟩ := single
      rw [lineage_cons_self, lineage]
    · rw [lineage_cons_of_ne same, lineage] at path
      simp at path
  | @grow known e older fresh connected ih =>
    have older_eq : ∀ {above : List Elem} {h : Hash}, lineage known h = above ++ b :: below →
        lineage (e :: known) (hash b) = b :: below := by
      intro above h inside
      have member : b ∈ known := mem_of_mem_lineage (h := h) (by rw [inside]; simp)
      have different : hash e ≠ hash b := fun same =>
        fresh (same ▸ List.mem_map_of_mem member)
      rw [lineage_cons_of_ne different, ih _ inside]
    by_cases same : hash e = h
    · subst same
      rw [lineage_cons_self] at path
      cases above with
      | nil =>
        obtain ⟨rfl, rfl⟩ := List.cons.inj path
        exact lineage_cons_self _ _
      | cons head tail => exact older_eq (List.cons.inj path).2
    · rw [lineage_cons_of_ne same] at path
      exact older_eq path

/-- Along a path every block names the next one as its predecessor. -/
theorem lineage_next (grown : Grown known) {h : Hash} {b c : Elem} {below : List Elem}
    (path : lineage known h = b :: c :: below) : prev b = hash c := by
  induction grown with
  | genesis e =>
    by_cases same : hash e = h
    · rw [lineage, if_pos same, lineage] at path
      simp at path
    · rw [lineage_cons_of_ne same, lineage] at path
      cases path
  | @grow known e older fresh connected ih =>
    by_cases same : hash e = h
    · rw [lineage, if_pos same] at path
      obtain ⟨rfl, rest⟩ := List.cons.inj path
      exact (hash_of_lineage rest).symm
    · rw [lineage_cons_of_ne same] at path
      exact ih path

/-- The path of a block that is not its end goes on with the path of its predecessor. -/
theorem lineage_prev (grown : Grown known) {h : Hash} {b c : Elem} {below : List Elem}
    (path : lineage known h = b :: c :: below) : lineage known (prev b) = c :: below := by
  rw [grown.lineage_next path]
  exact grown.lineage_below [b] path

theorem lineage_getLast? (grown : Grown known) {h : Hash} (some : h ∈ hashes known) :
    (lineage known h).getLast? = known.getLast? := by
  induction grown generalizing h with
  | genesis e =>
    rw [List.mem_singleton.mp some, lineage_cons_self, lineage]
  | @grow known e older fresh connected ih =>
    have last : (e :: known).getLast? = known.getLast? := by
      rw [List.getLast?_cons, List.getLast?_eq_some_getLast older.ne_nil, Option.getD_some]
    by_cases same : hash e = h
    · subst same
      obtain ⟨head, below, path⟩ := List.exists_cons_of_ne_nil
        (fun none => lineage_eq_nil.mp none connected : lineage known (prev e) ≠ [])
      rw [lineage_cons_self, last, ← ih connected, path, List.getLast?_cons_cons]
    · rw [lineage_cons_of_ne same, last]
      refine ih ((mem_hashes_cons.mp some).resolve_left (Ne.symm same))

/-- A block that lies on no other path can be left out, unless it is the genesis. -/
theorem erase [DecidableEq Elem] (grown : Grown known) {gone : Elem} (member : gone ∈ known)
    (notGenesis : known.getLast? ≠ some gone)
    (avoided : ∀ b ∈ known, b ≠ gone → gone ∉ lineage known (TreeElem.hash b)) :
    Grown (known.erase gone) := by
  induction grown with
  | genesis e =>
    obtain rfl := List.mem_singleton.mp member
    exact absurd rfl notGenesis
  | @grow older e grown fresh connected ih =>
    by_cases first : e = gone
    · rw [first, List.erase_cons_head]
      exact grown
    · have inOlder : gone ∈ older := (List.mem_cons.mp member).resolve_left (Ne.symm first)
      have last : (e :: older).getLast? = older.getLast? := by
        rw [List.getLast?_cons, List.getLast?_eq_some_getLast grown.ne_nil, Option.getD_some]
      have kept : Grown (older.erase gone) := by
        refine ih inOlder (last ▸ notGenesis) fun b inside different => ?_
        have apart : TreeElem.hash e ≠ TreeElem.hash b := fun same =>
          fresh (same ▸ List.mem_map_of_mem inside)
        have free := avoided b (List.mem_cons_of_mem _ inside) different
        rwa [lineage_cons_of_ne apart] at free
      have free := avoided e List.mem_cons_self first
      obtain ⟨c, below, path⟩ := List.exists_cons_of_ne_nil
        (fun none => lineage_eq_nil.mp none connected : lineage older (prev e) ≠ [])
      rw [lineage_cons_self, path] at free
      have notGone : c ≠ gone := by
        rintro rfl
        exact free (by simp)
      have stays : c ∈ older.erase gone :=
        (List.mem_erase_of_ne notGone).mpr (mem_of_mem_lineage (path ▸ List.mem_cons_self))
      rw [List.erase_cons_tail (by simpa using first)]
      refine .grow kept (fun inside => fresh ?_) ?_
      · exact List.map_subset _ List.erase_subset inside
      · exact hash_of_lineage path ▸ List.mem_map_of_mem stays

/-- Two paths part at a block: above it the first path has no block of the second. -/
theorem exists_fork (grown : Grown known) {h other : Hash} (first : h ∈ hashes known)
    (second : other ∈ hashes known) :
    ∃ up root below above, lineage known h = up ++ root :: below ∧
      lineage known other = above ++ root :: below ∧ ∀ b ∈ up, b ∉ lineage known other := by
  have shared : ∃ b ∈ lineage known h, b ∈ lineage known other := by
    have last := grown.lineage_getLast? first
    rw [← grown.lineage_getLast? second] at last
    have some : lineage known h ≠ [] := fun none => lineage_eq_nil.mp none first
    rw [List.getLast?_eq_some_getLast some] at last
    exact ⟨_, List.getLast_mem some, List.mem_of_getLast? last.symm⟩
  obtain ⟨b, inFirst, inSecond⟩ := shared
  have split : ∀ path : List Elem, b ∈ path → ∃ up root below, path = up ++ root :: below ∧
      root ∈ lineage known other ∧ ∀ c ∈ up, c ∉ lineage known other := by
    intro path
    induction path with
    | nil => intro absurd; cases absurd
    | cons head tail ih =>
      intro member
      by_cases here : head ∈ lineage known other
      · exact ⟨[], head, tail, rfl, here, by simp⟩
      · have inTail : b ∈ tail := (List.mem_cons.mp member).resolve_left
          fun same => here (same ▸ inSecond)
        obtain ⟨up, root, below, rfl, isRoot, free⟩ := ih inTail
        refine ⟨head :: up, root, below, rfl, isRoot, ?_⟩
        intro c inside
        rcases List.mem_cons.mp inside with rfl | inside
        · exact here
        · exact free c inside
  obtain ⟨up, root, below, path, isRoot, free⟩ := split _ inFirst
  obtain ⟨above, below', trunk⟩ := List.append_of_mem isRoot
  have same : root :: below' = root :: below := by
    rw [← grown.lineage_below above trunk, ← grown.lineage_below up path]
  exact ⟨up, root, below, above, path, same ▸ trunk, free⟩

end Grown

end Paths

end Lineage

end Libcoin
