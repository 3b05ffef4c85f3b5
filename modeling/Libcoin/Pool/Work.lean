/-
The work that a pool hands out: `Pool::getWork` and `Pool::getBlockTemplate`, over runs of calls.

* `WorkCall` is what a call finds: the clock, the block chain, the script of the payee, and whether it is for invalid
  work. `work` is the state after the call with the block that is handed out, or with what was thrown. The target that
  goes with the block is `Pool.target`.
* `Extends`: a call leaves all templates but for their times and nonces, unless the latest is not for the best block.
* `HandsIn`: a header for the work is found, and is the work again.
-/

import Libcoin.Pool.Submissions
import Libcoin.Library.Run

namespace Libcoin

open Exec

namespace BlockTree

/-- `best_invalid`: the branch block with the most negative height, the first of them. -/
def bestInvalid {Hash : Type} [LinearOrder Hash] (t : BlockTree Hash) : Except Fault (Option (BlockRef Hash)) := do
  let found ← t.heights.toList.foldlM (fun found entry =>
    if entry.2 < found.2 then do
      let invalid ← t.find entry.1
      return (invalid, entry.2)
    else return found) ((none, 0) : Option (BlockRef Hash) × Int)
  return found.1

end BlockTree

/-- What a call of `getWork` finds. -/
structure WorkCall where
  clock : Clock
  chain : BlockChain
  script : Script
  invalid : Bool

namespace WorkCall

variable (call : WorkCall)

/-- The block that `getBlockTemplate` builds on. -/
def blk : Except Fault (BlockRef Uint256) :=
  if call.invalid then do
    match ← call.chain.tree.bestInvalid with
    | some blk => return blk
    | none => do
      let blk ← call.chain.tree.best
      call.chain.tree.back blk
  else call.chain.tree.best

/-- `getBestChain`. -/
def prev : Except Fault Uint256 := do
  let best ← call.chain.tree.best
  return best.hash

end WorkCall

/-- What a template of the chain has: it builds on the block that was asked for, with a coinbase and its Merkle root. -/
theorem BlockChain.getBlockTemplate_made {cfg : Config} {clock : Clock} {blk : BlockRef Uint256} {payees : List Script}
    {fractions feeFractions : List UInt32} {s : BlockChain} {block : Block}
    (made : getBlockTemplate cfg clock blk payees fractions feeFractions s = .ok block) :
    block.prevBlock = blk.hash ∧ block.transactions ≠ [] ∧ block.merkleRoot = block.buildMerkleTree cfg.prim := by
  unfold getBlockTemplate at made
  split at made
  · cases made
  split at made
  · cases made
  split at made
  · cases made
  split at made
  · cases made
  obtain ⟨count, -, made⟩ := bind_eq_ok.mp made
  obtain ⟨outputs, -, made⟩ := bind_eq_ok.mp made
  rw [← Except.ok.inj made]
  exact ⟨rfl, List.cons_ne_nil _ _, rfl⟩

namespace Pool

section Source

variable (cfg : Config) (pool : Pool)

def getBlockTemplate (call : WorkCall) : Except Fault Block := do
  let blk ← call.blk
  BlockChain.getBlockTemplate cfg call.clock blk [call.script] [] [] call.chain

variable {cfg} in
theorem getBlockTemplate_made {call : WorkCall} {block : Block} (made : getBlockTemplate cfg call = .ok block) :
    (∃ blk, call.blk = .ok blk ∧ block.prevBlock = blk.hash) ∧ block.transactions ≠ [] ∧
      block.merkleRoot = block.buildMerkleTree cfg.prim := by
  obtain ⟨blk, chosen, made⟩ := bind_eq_ok.mp made
  obtain ⟨prev, nonempty, root⟩ := BlockChain.getBlockTemplate_made made
  exact ⟨⟨blk, chosen, prev⟩, nonempty, root⟩

/-- A template is asked for: there is none for the best block, or the time of the latest is not thirty seconds ago. -/
def selects (now : Int) (prev : Uint256) : Bool :=
  match pool.latestBlock with
  | none => true
  | some latest => decide (prev ≠ latest.val.prevBlock ∨ now < latest.val.time + 30)

/-- `_templates.clear()` where there is no template for the best block. -/
def cleared (prev : Uint256) : Pool :=
  match pool.latestBlock with
  | none => empty
  | some latest => if prev ≠ latest.val.prevBlock then empty else pool

/-- The latest work with a new time, which is handed out. -/
def handOut (now : Int) : Pool × Except Fault Block :=
  (pool.restart now,
    match (pool.restart now).latestBlock with
    | some latest => .ok latest.val
    | none => .error .undefined)

/-- `getWork`. What throws leaves the templates as they are by then. -/
def work (call : WorkCall) : Pool × Except Fault Block :=
  match call.prev with
  | .error fault => (pool, .error fault)
  | .ok prev =>
    if pool.selects call.clock.now prev then
      match made : getBlockTemplate cfg call with
      | .error fault => (pool.cleared prev, .error fault)
      | .ok block => ((pool.cleared prev).insert ⟨block, (getBlockTemplate_made made).2.1⟩).handOut call.clock.now
    else pool.handOut call.clock.now

/-- The state after a call. -/
def called (call : WorkCall) : Pool := (pool.work cfg call).1

end Source

/-! ### One call -/

section Calls

variable {cfg : Config} {pool : Pool} {call : WorkCall} {prev : Uint256} {now : Int}

theorem lookup_restart (root : Uint256) :
    (pool.restart now).templates[root]? =
      if pool.latestWork = root then (pool.templates[root]?).map fun latest => latest.setWork now 0
      else pool.templates[root]? := by
  unfold restart
  cases last : pool.latestBlock with
  | none =>
    -- without a latest work there are no templates
    have absent : pool.templates[root]? = none := by
      rw [← Option.not_isSome_iff_eq_none]
      intro there
      have some := pool.latest root there
      unfold latestBlock at last
      rw [last] at some
      cases some
    rw [absent]
    simp
  | some latest =>
    dsimp only
    rw [Map.lookup_insert]
    split
    · rename_i same
      unfold latestBlock at last
      rw [← same, last]
      rfl
    · rfl

/-- What is stored then was stored before, perhaps with another time and nonce. -/
theorem lookup_of_restart {root : Uint256} {found : Template} (stored : (pool.restart now).templates[root]? = some found) :
    ∃ template time nonce, pool.templates[root]? = some template ∧ found = template.setWork time nonce := by
  rw [lookup_restart] at stored
  split at stored
  · obtain ⟨template, is, same⟩ := Option.map_eq_some_iff.mp stored
    exact ⟨template, now, 0, is, same.symm⟩
  · exact ⟨found, found.val.time, found.val.nonce, stored, rfl⟩

theorem lookup_empty (root : Uint256) (template : Template) : empty.templates[root]? ≠ some template := fun stored => by
  cases (Map.lookup_empty root).symm.trans stored

@[simp] theorem latestWork_restart : (pool.restart now).latestWork = pool.latestWork := by
  unfold restart
  split <;> rfl

theorem latestBlock_restart : (pool.restart now).latestBlock = pool.latestBlock.map fun latest => latest.setWork now 0 := by
  unfold latestBlock
  rw [latestWork_restart, lookup_restart, if_pos rfl]

theorem latestBlock_insert (template : Template) :
    (pool.insert template).latestBlock = some ((pool.templates[template.val.merkleRoot]?).getD template) := by
  unfold latestBlock insert
  rw [Map.lookup_insertNew, if_pos rfl]

theorem handOut_of_latest {latest : Template} (last : pool.latestBlock = some latest) :
    pool.handOut now = (pool.restart now, .ok (latest.setWork now 0).val) := by
  unfold handOut
  rw [latestBlock_restart, last]
  rfl

/-- Nothing is asked for where the latest work builds on the best block and is thirty seconds old. -/
theorem selects_eq_false : pool.selects now prev = false ↔
    ∃ latest, pool.latestBlock = some latest ∧ latest.val.prevBlock = prev ∧ latest.val.time + 30 ≤ now := by
  unfold selects
  cases pool.latestBlock with
  | none => simp
  | some latest =>
    simp only [decide_eq_false_iff_not, not_or, not_not, not_lt, Option.some.injEq, exists_eq_left']
    rw [eq_comm]

/-- What a call does once the best block is read. -/
theorem work_cases (best : call.prev = .ok prev) :
    (∃ latest, pool.latestBlock = some latest ∧ latest.val.prevBlock = prev ∧
      latest.val.time + 30 ≤ call.clock.now ∧
      pool.work cfg call = (pool.restart call.clock.now, .ok (latest.setWork call.clock.now 0).val)) ∨
    pool.selects call.clock.now prev = true ∧
      ((∃ fault, getBlockTemplate cfg call = .error fault ∧ pool.work cfg call = (pool.cleared prev, .error fault)) ∨
        ∃ template : Template, getBlockTemplate cfg call = .ok template.val ∧
          pool.work cfg call = (((pool.cleared prev).insert template).restart call.clock.now,
            .ok ((((pool.cleared prev).templates[template.val.merkleRoot]?).getD template).setWork call.clock.now 0).val))
    := by
  unfold work
  rw [best]
  dsimp only
  cases asks : pool.selects call.clock.now prev with
  | false =>
    obtain ⟨latest, last, builds, old⟩ := selects_eq_false.mp asks
    exact .inl ⟨latest, last, builds, old, handOut_of_latest last⟩
  | true =>
    rw [if_pos rfl]
    refine .inr ⟨rfl, ?_⟩
    split
    · rename_i fault thrown
      exact .inl ⟨fault, thrown, rfl⟩
    · rename_i block made
      exact .inr ⟨⟨block, _⟩, made, handOut_of_latest (latestBlock_insert _)⟩

/-- It is `getWork` with the template that it asks for. -/
theorem called_eq_getWork {template : Template} (best : call.prev = .ok prev)
    (made : getBlockTemplate cfg call = .ok template.val) :
    pool.called cfg call = pool.getWork call.clock.now prev template := by
  unfold called getWork
  rcases @work_cases cfg pool call prev best with
    ⟨latest, last, builds, old, run⟩ | ⟨asks, ⟨fault, thrown, -⟩ | ⟨template', made', run⟩⟩
  · rw [run, last]
    dsimp only
    rw [if_neg (not_not.mpr builds.symm), if_neg (not_lt.mpr old)]
  · rw [made] at thrown
    cases thrown
  · obtain rfl : template' = template := Subtype.ext (Except.ok.inj (made'.symm.trans made))
    rw [run]
    unfold cleared
    cases last : pool.latestBlock with
    | none => rfl
    | some latest =>
      dsimp only
      by_cases other : prev ≠ latest.val.prevBlock
      · rw [if_pos other, if_pos other]
      · rw [if_neg other, if_neg other, if_pos]
        unfold selects at asks
        rw [last] at asks
        exact (of_decide_eq_true asks).resolve_left other

end Calls

/-! ### What calls leave -/

section Kept

variable {cfg : Config} {pool other third : Pool} {call : WorkCall} {prev : Uint256} {now : Int} {block : Block}

/-- The Merkle roots of the templates are the keys that they are stored under. -/
def Rooted (prim : Primitives) (pool : Pool) : Prop :=
  ∀ (root : Uint256) (template : Template), pool.templates[root]? = some template →
    template.val.merkleRoot = root ∧ template.val.merkleRoot = template.val.buildMerkleTree prim

/-- All templates are still there, with other times and nonces. -/
def Extends (pool other : Pool) : Prop :=
  ∀ (root : Uint256) (template : Template), pool.templates[root]? = some template →
    ∃ time nonce, other.templates[root]? = some (template.setWork time nonce)

/-- The latest work builds on the block. -/
def Current (pool : Pool) (prev : Uint256) : Prop :=
  ∃ latest, pool.latestBlock = some latest ∧ latest.val.prevBlock = prev

theorem rooted_empty : Rooted cfg.prim empty := fun root template stored => absurd stored (lookup_empty root template)

theorem Rooted.insert (rooted : Rooted cfg.prim pool) {template : Template}
    (root : template.val.merkleRoot = template.val.buildMerkleTree cfg.prim) : Rooted cfg.prim (pool.insert template) := by
  intro key found stored
  rcases Map.lookup_of_insertNew stored with ⟨rfl, rfl⟩ | stored
  · exact ⟨rfl, root⟩
  · exact rooted key found stored

theorem Rooted.restart (rooted : Rooted cfg.prim pool) : Rooted cfg.prim (pool.restart now) := by
  intro key found stored
  obtain ⟨template, time, nonce, is, rfl⟩ := lookup_of_restart stored
  exact rooted key template is

theorem Rooted.cleared (rooted : Rooted cfg.prim pool) : Rooted cfg.prim (pool.cleared prev) := by
  unfold Pool.cleared
  split
  · exact rooted_empty
  · split
    · exact rooted_empty
    · exact rooted

theorem Rooted.called (rooted : Rooted cfg.prim pool) : Rooted cfg.prim (pool.called cfg call) := by
  unfold Pool.called
  cases best : call.prev with
  | error fault =>
    unfold work
    rw [best]
    exact rooted
  | ok prev =>
    rcases work_cases best with ⟨latest, -, -, -, run⟩ | ⟨-, ⟨fault, -, run⟩ | ⟨template, made, run⟩⟩ <;> rw [run]
    · exact rooted.restart
    · exact rooted.cleared
    · exact (rooted.cleared.insert (getBlockTemplate_made made).2.2).restart

theorem rooted_final (calls : List WorkCall) (rooted : Rooted cfg.prim pool) :
    Rooted cfg.prim (Run.final (called cfg) pool calls) := by
  induction calls generalizing pool with
  | nil => exact rooted
  | cons call calls ih => exact ih rooted.called

theorem Extends.refl : Extends pool pool := fun _ template stored => ⟨template.val.time, template.val.nonce, stored⟩

theorem Extends.trans (first : Extends pool other) (second : Extends other third) : Extends pool third := by
  intro root template stored
  obtain ⟨time, nonce, stored⟩ := first root template stored
  obtain ⟨time', nonce', stored⟩ := second root _ stored
  exact ⟨time', nonce', stored⟩

theorem extends_restart : Extends pool (pool.restart now) := by
  intro root template stored
  rw [lookup_restart, stored]
  split
  · exact ⟨now, 0, rfl⟩
  · exact ⟨template.val.time, template.val.nonce, rfl⟩

theorem extends_insert (template : Template) : Extends pool (pool.insert template) := by
  intro root found stored
  refine ⟨found.val.time, found.val.nonce, ?_⟩
  unfold insert
  rw [Map.lookup_insertNew]
  split
  · rename_i same
    rw [same, stored]
    rfl
  · exact stored

theorem cleared_of_current (current : pool.Current prev) : pool.cleared prev = pool := by
  obtain ⟨latest, last, builds⟩ := current
  unfold cleared
  rw [last]
  exact if_neg (not_not.mpr builds.symm)

theorem cleared_of_not_current (other : ¬pool.Current prev) : pool.cleared prev = empty := by
  unfold cleared
  cases last : pool.latestBlock with
  | none => rfl
  | some latest => exact if_pos fun same => other ⟨latest, last, same.symm⟩

theorem lookup_of_cleared {root : Uint256} {template : Template}
    (stored : (pool.cleared prev).templates[root]? = some template) : pool.templates[root]? = some template := by
  by_cases current : pool.Current prev
  · rwa [cleared_of_current current] at stored
  · rw [cleared_of_not_current current] at stored
    exact absurd stored (lookup_empty root template)

/-- A call leaves all templates while the latest builds on the best block. -/
theorem extends_called (best : call.prev = .ok prev) (current : pool.Current prev) :
    Extends pool (pool.called cfg call) := by
  unfold called
  rcases work_cases best with ⟨latest, -, -, -, run⟩ | ⟨-, ⟨fault, -, run⟩ | ⟨template, made, run⟩⟩ <;> rw [run]
  · exact extends_restart
  · rw [cleared_of_current current]
    exact .refl
  · rw [cleared_of_current current]
    exact (extends_insert template).trans extends_restart

/-- The templates that are left for a best block build on it. -/
def OnBest (pool : Pool) (prev : Uint256) : Prop :=
  ∀ (root : Uint256) (template : Template), (pool.cleared prev).templates[root]? = some template →
    template.val.prevBlock = prev

/-- A call finds only templates for the best block among those that it leaves, and if it asks for a template it is for
the best block. -/
structure BuildsOnBest (pool : Pool) (call : WorkCall) : Prop where
  left : ∀ prev, call.prev = .ok prev → pool.OnBest prev
  selected : ∀ prev, call.prev = .ok prev → pool.selects call.clock.now prev = true →
    ∀ blk, call.blk = .ok blk → blk.hash = prev

/-- A call that is not for invalid work asks for a template for the best block. -/
theorem blk_of_valid (valid : call.invalid = false) (best : call.prev = .ok prev) {blk : BlockRef Uint256}
    (chosen : call.blk = .ok blk) : blk.hash = prev := by
  unfold WorkCall.prev at best
  unfold WorkCall.blk at chosen
  rw [valid, if_neg (by decide)] at chosen
  rw [chosen] at best
  exact Except.ok.inj best

theorem onBest_of_current (current : pool.Current prev) : pool.OnBest prev ↔
    ∀ (root : Uint256) (template : Template), pool.templates[root]? = some template → template.val.prevBlock = prev := by
  unfold OnBest
  rw [cleared_of_current current]

theorem onBest_of_not_current (elsewhere : ¬pool.Current prev) : pool.OnBest prev := fun root template stored => by
  rw [cleared_of_not_current elsewhere] at stored
  exact absurd stored (lookup_empty root template)

theorem onBest_empty : empty.OnBest prev :=
  onBest_of_not_current fun ⟨latest, last, _⟩ => absurd last (lookup_empty _ latest)

theorem Current.restart (current : pool.Current prev) : (pool.restart now).Current prev := by
  obtain ⟨latest, last, on⟩ := current
  exact ⟨latest.setWork now 0, by rw [latestBlock_restart, last]; rfl, on⟩

theorem current_of_restart (current : (pool.restart now).Current prev) : pool.Current prev := by
  obtain ⟨latest, last, on⟩ := current
  rw [latestBlock_restart] at last
  obtain ⟨latest, is, rfl⟩ := Option.map_eq_some_iff.mp last
  exact ⟨latest, is, on⟩

theorem OnBest.restart (all : pool.OnBest prev) : (pool.restart now).OnBest prev := by
  by_cases current : (pool.restart now).Current prev
  · rw [onBest_of_current (current_of_restart current)] at all
    rw [onBest_of_current current]
    intro root template stored
    obtain ⟨template, time, nonce, is, rfl⟩ := lookup_of_restart stored
    exact all root template is
  · exact onBest_of_not_current current

/-- A template that was selected for the best block, among those that are left. -/
theorem OnBest.insert (all : pool.OnBest prev) {template : Template} (on : template.val.prevBlock = prev) :
    ((pool.cleared prev).insert template).Current prev ∧ ((pool.cleared prev).insert template).OnBest prev := by
  have every (root : Uint256) (found : Template)
      (stored : ((pool.cleared prev).insert template).templates[root]? = some found) : found.val.prevBlock = prev := by
    rcases Map.lookup_of_insertNew stored with ⟨-, rfl⟩ | stored
    · exact on
    · exact all root found stored
  have current : ((pool.cleared prev).insert template).Current prev :=
    ⟨_, latestBlock_insert template, every _ _ (latestBlock_insert template)⟩
  exact ⟨current, (onBest_of_current current).mpr every⟩

theorem BuildsOnBest.onBest_called (builds : pool.BuildsOnBest call) (best : call.prev = .ok prev) :
    (pool.called cfg call).OnBest prev := by
  have all := builds.left prev best
  unfold called
  rcases work_cases best with
    ⟨latest, last, on, -, run⟩ | ⟨asks, ⟨fault, thrown, run⟩ | ⟨template, made, run⟩⟩ <;> rw [run]
  · exact all.restart
  · by_cases current : pool.Current prev
    · rw [cleared_of_current current]
      exact all
    · rw [cleared_of_not_current current]
      exact onBest_empty
  · obtain ⟨⟨blk, chosen, parent⟩, -, -⟩ := getBlockTemplate_made made
    exact (all.insert (parent.trans (builds.selected prev best asks blk chosen))).2.restart

/-- If such a call hands out work, or the latest work was for the best block, then it is afterwards. -/
theorem BuildsOnBest.current_called (builds : pool.BuildsOnBest call) (best : call.prev = .ok prev)
    (handed : (∃ block, (pool.work cfg call).2 = .ok block) ∨ pool.Current prev) :
    (pool.called cfg call).Current prev := by
  unfold called
  rcases work_cases best with
    ⟨latest, last, on, -, run⟩ | ⟨asks, ⟨fault, thrown, run⟩ | ⟨template, made, run⟩⟩ <;> rw [run]
  · exact Current.restart ⟨latest, last, on⟩
  · rcases handed with ⟨block, handed⟩ | current
    · rw [run] at handed
      cases handed
    · rw [cleared_of_current current]
      exact current
  · obtain ⟨⟨blk, chosen, parent⟩, -, -⟩ := getBlockTemplate_made made
    exact ((builds.left prev best).insert (parent.trans (builds.selected prev best asks blk chosen))).1.restart

/-- Calls that are not for invalid work. -/
theorem buildsOnBest_of_valid (calls : List WorkCall) (valid : ∀ call ∈ calls, call.invalid = false)
    (fixed : ∀ call ∈ calls, call.prev = .ok prev) (all : pool.OnBest prev) :
    Run.AlongSteps (called cfg) BuildsOnBest pool calls := by
  induction calls generalizing pool with
  | nil => trivial
  | cons call calls ih =>
    have best := fixed call List.mem_cons_self
    have here : pool.BuildsOnBest call := by
      constructor
      · intro prev' best'
        obtain rfl := Except.ok.inj (best.symm.trans best')
        exact all
      · intro prev' best' _ blk chosen
        exact blk_of_valid (valid call List.mem_cons_self) best' chosen
    exact ⟨here, ih (fun call member => valid call (List.mem_cons_of_mem _ member))
      (fun call member => fixed call (List.mem_cons_of_mem _ member)) (here.onBest_called best)⟩

end Kept

/-! ### Work that is handed in -/

section HandedIn

variable {cfg : Config} {pool other : Pool} {call : WorkCall} {prev : Uint256} {now : Int} {block : Block}

/-- A header for the work, with any time and nonce, is found, and the block is the work with these. -/
structure HandsIn (prim : Primitives) (pool : Pool) (work : Block) : Prop where
  found : ∀ (stub : Block) (workid : Data), stub.transactions = [] → stub.merkleRoot = work.merkleRoot →
    pool.rebuilt prim stub workid = .ok (some { work with time := stub.time, nonce := stub.nonce })
  answered : ∀ (checkProofOfWork : Block → Except Hazard Bool) (stub : Block) (workid : Data),
    stub.transactions = [] → stub.merkleRoot = work.merkleRoot →
      pool.submitBlock prim checkProofOfWork stub workid ≠ .ok ("block template not found", none)

/-- There is a template that is the work with another time and nonce. -/
def Holds (pool : Pool) (work : Block) : Prop :=
  ∃ template : Template, pool.templates[work.merkleRoot]? = some template ∧
    work = (template.setWork work.time work.nonce).val

theorem Holds.of_extends (holds : pool.Holds block) (kept : Extends pool other) : other.Holds block := by
  obtain ⟨template, stored, same⟩ := holds
  obtain ⟨time, nonce, stored⟩ := kept _ template stored
  exact ⟨_, stored, same⟩

theorem Holds.handsIn (holds : pool.Holds block) (rooted : Rooted cfg.prim pool) : HandsIn cfg.prim pool block := by
  obtain ⟨template, stored, same⟩ := holds
  obtain ⟨-, root⟩ := rooted _ template stored
  have found (stub : Block) (workid : Data) (header : stub.transactions = [])
      (about : stub.merkleRoot = block.merkleRoot) :
      pool.rebuilt cfg.prim stub workid = .ok (some { block with time := stub.time, nonce := stub.nonce }) := by
    unfold rebuilt resolved
    rw [header, about, stored]
    -- the Merkle root is computed from the transactions, which the template has
    have again : ({ template.val with time := stub.time, nonce := stub.nonce } : Block).buildMerkleTree cfg.prim =
        template.val.merkleRoot := root.symm
    have whole : ({ block with time := stub.time, nonce := stub.nonce } : Block) =
        { template.val with time := stub.time, nonce := stub.nonce } := by
      rw [same]
      rfl
    rw [whole]
    simp only [Exec.ok_bind, Option.map_some, again]
    rfl
  refine ⟨found, fun checkProofOfWork stub workid header about answer => ?_⟩
  unfold submitBlock at answer
  rw [found stub workid header about, Exec.ok_bind] at answer
  dsimp only at answer
  obtain ⟨target, -, answer⟩ := bind_eq_ok.mp answer
  split at answer
  · exact absurd (Prod.mk.inj (Except.ok.inj answer)).1 (by decide)
  obtain ⟨mined, -, answer⟩ := bind_eq_ok.mp answer
  split at answer
  · exact absurd (Prod.mk.inj (Except.ok.inj answer)).1 (by decide)
  obtain ⟨shareTarget, -, answer⟩ := bind_eq_ok.mp answer
  split at answer
  · exact absurd (Prod.mk.inj (Except.ok.inj answer)).1 (by decide)
  · cases answer

/-- What a call hands out is the latest work. -/
theorem latestBlock_called (handed : (pool.work cfg call).2 = .ok block) :
    ∃ latest, (pool.called cfg call).latestBlock = some latest ∧ latest.val = block := by
  unfold called
  cases best : call.prev with
  | error fault =>
    unfold work at handed
    rw [best] at handed
    cases handed
  | ok prev =>
    rcases work_cases best with
      ⟨last, is, -, -, run⟩ | ⟨-, ⟨fault, -, run⟩ | ⟨template, made, run⟩⟩ <;> rw [run] at handed ⊢
    · exact ⟨_, by rw [latestBlock_restart, is]; rfl, Except.ok.inj handed⟩
    · cases handed
    · exact ⟨_, by rw [latestBlock_restart, latestBlock_insert]; rfl, Except.ok.inj handed⟩

theorem holds_called (rooted : Rooted cfg.prim pool) (handed : (pool.work cfg call).2 = .ok block) :
    (pool.called cfg call).Holds block := by
  obtain ⟨latest, last, rfl⟩ := latestBlock_called handed
  have root := (rooted.called _ latest last).1
  unfold latestBlock at last
  rw [← root] at last
  exact ⟨latest, last, rfl⟩

/-- Calls for the same best block. -/
theorem Holds.final (holds : pool.Holds block) (current : pool.Current prev) (calls : List WorkCall)
    (fixed : ∀ later ∈ calls, later.prev = .ok prev)
    (builds : Run.AlongSteps (called cfg) BuildsOnBest pool calls.dropLast) :
    (Run.final (called cfg) pool calls).Holds block := by
  induction calls generalizing pool with
  | nil => exact holds
  | cons call calls ih =>
    have best := fixed call List.mem_cons_self
    have kept := holds.of_extends (@extends_called cfg pool call prev best current)
    cases calls with
    | nil => exact kept
    | cons later calls =>
      obtain ⟨here, builds⟩ := builds
      exact ih kept (here.current_called best (.inr current)) (fun later member => fixed later (List.mem_cons_of_mem _ member))
        builds

/-- Work can be handed in after the next call, where that is not for invalid work, exactly if it is for the best
block. -/
theorem handsIn_next_iff {later : WorkCall} (rooted : Rooted cfg.prim pool) (handed : (pool.work cfg call).2 = .ok block)
    (best : later.prev = .ok prev) (valid : later.invalid = false) :
    HandsIn cfg.prim ((pool.called cfg call).called cfg later) block ↔ block.prevBlock = prev := by
  have holds := holds_called rooted handed
  obtain ⟨latest, last, is⟩ := latestBlock_called handed
  have rooted : Rooted cfg.prim (pool.called cfg call) := rooted.called
  generalize pool.called cfg call = pool at *
  constructor
  · intro hands
    by_contra elsewhere
    have stale : ¬pool.Current prev := fun ⟨latest', last', on⟩ => elsewhere (by
      rw [← is, Option.some.inj (last.symm.trans last')]
      exact on)
    -- the header of the work
    have found := hands.found { block with transactions := [] } [] rfl rfl
    unfold rebuilt resolved at found
    dsimp only at found
    obtain ⟨looked, same, found⟩ := bind_eq_ok.mp found
    rw [← Except.ok.inj same] at found
    obtain ⟨base, found, again⟩ := Option.map_eq_some_iff.mp (Except.ok.inj found)
    obtain ⟨template, stored, rfl⟩ := Option.map_eq_some_iff.mp found
    have parent := congrArg (fun made : Block => made.prevBlock) again
    dsimp only at parent
    refine elsewhere (parent.symm.trans ?_)
    unfold called at stored
    rcases work_cases best with
      ⟨latest, last, on, -, run⟩ | ⟨-, ⟨fault, -, run⟩ | ⟨selected, made, run⟩⟩ <;> rw [run] at stored
    · exact absurd ⟨latest, last, on⟩ stale
    · rw [cleared_of_not_current stale] at stored
      exact absurd stored (lookup_empty _ _)
    · obtain ⟨⟨blk, chosen, on⟩, -, -⟩ := getBlockTemplate_made made
      obtain ⟨current, all⟩ := (onBest_of_not_current stale).insert (on.trans (blk_of_valid valid best chosen))
      exact (onBest_of_current current.restart).mp all.restart _ template stored
  · intro on
    exact (holds.of_extends (extends_called best ⟨latest, last, by rw [is]; exact on⟩)).handsIn rooted.called

/-- **Work that was handed out can be handed in**, after any further calls for the same best block of which none but the
last asks for a template for another block. -/
theorem handed_in (cfg : Config) (before after : List WorkCall) (call : WorkCall) (work : Block)
    (handed : ((Run.final (called cfg) empty before).work cfg call).2 = .ok work)
    (fixed : ∀ later ∈ after, later.prev = call.prev)
    (builds : Run.AlongSteps (called cfg) BuildsOnBest (Run.final (called cfg) empty before) (call :: after).dropLast) :
    HandsIn cfg.prim (Run.final (called cfg) empty (before ++ call :: after)) work := by
  rw [Run.final_append]
  have rooted := rooted_final before (@rooted_empty cfg)
  generalize Run.final (called cfg) empty before = pool at handed builds rooted ⊢
  have holds := holds_called rooted handed
  refine Holds.handsIn ?_ (rooted_final (call :: after) rooted)
  cases best : call.prev with
  | error fault =>
    unfold Pool.work at handed
    rw [best] at handed
    cases handed
  | ok prev =>
    rw [best] at fixed
    cases after with
    | nil => exact holds
    | cons later after =>
      obtain ⟨here, builds⟩ := builds
      exact holds.final (here.current_called best (.inl ⟨work, handed⟩)) (later :: after) fixed builds

end HandedIn

end Pool

namespace Small

/-- The small chain where the hash of a transaction also counts its first signature. -/
def signCounting : Config :=
  { config 1 0 with
    prim := { prim with
      txnHash := fun txn => Fin.ofNat _ (txn.version.toNat + 1000 * ((txn.inputs.map fun input =>
        (input.signature.map UInt8.toNat).sum).sum)) } }

/-- Its first two blocks. -/
def minedTwice : Except Fault BlockChain := do
  let s ← BlockChain.create signCounting clock (mined 1 0 [coinbase 1 [50]]) true 0
  match BlockChain.append signCounting clock (mined 2 1 [coinbase 2 [50]]) s with
  | .ok _ s => .ok s
  | .error fault _ => .error fault

/-- A call of `getWork` for the chain. -/
def callAt (s : BlockChain) (now : Int) (invalid : Bool) : WorkCall :=
  { clock := { now := now, adjusted := now }, chain := s, script := [], invalid := invalid }

end Small

namespace Pool

open Libcoin.Small

/-- Invalid work is lost with the next call, a second later. -/
theorem handed_in_lost : ∃ (s : BlockChain) (work : Block), minedTwice = .ok s ∧
    (callAt s 101 false).prev = (callAt s 100 true).prev ∧
    (empty.work signCounting (callAt s 100 true)).2 = .ok work ∧
    (Run.final (called signCounting) empty [callAt s 100 true, callAt s 101 false]).submitBlock signCounting.prim
      (BitcoinChain.checkProofOfWork signCounting.prim BlockTree.limit32) { work with transactions := [] } [] =
        .ok ("block template not found", none) ∧
    ¬HandsIn signCounting.prim (Run.final (called signCounting) empty [callAt s 100 true, callAt s 101 false]) work := by
  have run : (do
      let s ← minedTwice.toOption
      let work ← (empty.work signCounting (callAt s 100 true)).2.toOption
      return ((callAt s 101 false).prev.toOption, (callAt s 100 true).prev.toOption,
        ((Run.final (called signCounting) empty [callAt s 100 true, callAt s 101 false]).submitBlock signCounting.prim
          (BitcoinChain.checkProofOfWork signCounting.prim BlockTree.limit32) { work with transactions := [] } []).toOption)) =
      some (some 2, some 2, some ("block template not found", none)) := by decide +kernel
  obtain ⟨s, made, run⟩ := Option.bind_eq_some_iff.mp run
  obtain ⟨work, handed, run⟩ := Option.bind_eq_some_iff.mp run
  obtain ⟨best', run⟩ := Prod.mk.inj (Option.some.inj run)
  obtain ⟨best, answer⟩ := Prod.mk.inj run
  have answer := toOption_eq_some.mp answer
  exact ⟨s, work, toOption_eq_some.mp made, (toOption_eq_some.mp best').trans (toOption_eq_some.mp best).symm,
    toOption_eq_some.mp handed, answer, fun hands =>
      hands.answered _ { work with transactions := [] } [] rfl rfl answer⟩

/-- Work on the first block is lost when the pool is asked again with the second one. -/
theorem handsIn_next_iff_moved : ∃ (s s' : BlockChain) (work : Block),
    BlockChain.create signCounting clock (mined 1 0 [coinbase 1 [50]]) true 0 = .ok s ∧ minedTwice = .ok s' ∧
    (empty.work signCounting (callAt s 100 false)).2 = .ok work ∧
    ¬HandsIn signCounting.prim
      ((empty.called signCounting (callAt s 100 false)).called signCounting (callAt s' 101 false)) work := by
  have run : (do
      let s ← (BlockChain.create signCounting clock (mined 1 0 [coinbase 1 [50]]) true 0).toOption
      let s' ← minedTwice.toOption
      let work ← (empty.work signCounting (callAt s 100 false)).2.toOption
      return (work.prevBlock, (callAt s' 101 false).prev.toOption)) = some (1, some 2) := by decide +kernel
  obtain ⟨s, made, run⟩ := Option.bind_eq_some_iff.mp run
  obtain ⟨s', made', run⟩ := Option.bind_eq_some_iff.mp run
  obtain ⟨work, handed, run⟩ := Option.bind_eq_some_iff.mp run
  obtain ⟨first, best⟩ := Prod.mk.inj (Option.some.inj run)
  refine ⟨s, s', work, toOption_eq_some.mp made, toOption_eq_some.mp made', toOption_eq_some.mp handed, fun hands => ?_⟩
  have same := (handsIn_next_iff rooted_empty (toOption_eq_some.mp handed) (toOption_eq_some.mp best) rfl).mp hands
  rw [first] at same
  exact absurd same (by decide)

/-- The first work of three is handed in, after forty seconds. -/
theorem handed_in_three : ∃ (s : BlockChain) (work : Block), minedTwice = .ok s ∧
    (empty.work signCounting (callAt s 100 false)).2 = .ok work ∧
    HandsIn signCounting.prim
      (Run.final (called signCounting) empty [callAt s 100 false, callAt s 110 false, callAt s 140 false]) work := by
  have run : (do
      let s ← minedTwice.toOption
      let _ ← (empty.work signCounting (callAt s 100 false)).2.toOption
      return (callAt s 100 false).prev.toOption) = some (some 2) := by decide +kernel
  obtain ⟨s, made, run⟩ := Option.bind_eq_some_iff.mp run
  obtain ⟨work, handed, run⟩ := Option.bind_eq_some_iff.mp run
  have best : (callAt s 100 false).prev = .ok 2 := toOption_eq_some.mp (Option.some.inj run)
  have builds : Run.AlongSteps (called signCounting) BuildsOnBest empty [callAt s 100 false, callAt s 110 false] := by
    refine buildsOnBest_of_valid _ ?_ (fun call member => ?_) (@onBest_empty 2)
    · simp [callAt]
    · rcases List.mem_pair.mp member with rfl | rfl <;> exact best
  refine ⟨s, work, toOption_eq_some.mp made, toOption_eq_some.mp handed,
    handed_in signCounting [] [callAt s 110 false, callAt s 140 false] (callAt s 100 false) work (toOption_eq_some.mp handed)
      (fun later member => ?_) builds⟩
  rcases List.mem_pair.mp member with rfl | rfl <;> rfl

end Pool

end Libcoin
