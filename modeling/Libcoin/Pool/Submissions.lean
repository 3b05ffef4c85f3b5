/-
Submissions to a pool: `Pool::submitBlock`.

* `Pool` are the templates, with the latest of them, which `getWork` hands out. Each has a coinbase.
* `setHex` reads the id of the work, `rebuilt` is the block that a submission is about, and `Crash` is what ends the
  process or is undefined.
-/

import Libcoin.BlockChain.BlockTemplate
import Libcoin.Http.RequestParser
import Libcoin.Ledger.Hazards
import Libcoin.Script.NamePrefix

namespace Libcoin

open RequestParser

/-- What ends the process, or is undefined: `throw;` where no exception is handled, a negative index, or the coinbase
of a block without transactions. -/
inductive Crash
  | terminate
  | negativeIndex
  | noTransactions
  | hazard (found : Hazard)
  deriving DecidableEq, Repr

def Crash.of {A : Type} : Except Hazard A → Except Crash A
  | .ok value => .ok value
  | .error found => .error (.hazard found)

/-! ### The id of the work -/

/-- The loop of `SetHex` from the last digit back, where two digits are a byte, over the room that there is for bytes. -/
def nibbleLoop : Nat → Data → Data
  | room + 1, low :: high :: psz =>
    (UInt8.ofNat (hexDigit low) ||| UInt8.ofNat (hexDigit high) <<< 4) :: nibbleLoop room psz
  | _ + 1, [low] => [UInt8.ofNat (hexDigit low)]
  | _, _ => []

/-- `uint256::SetHex`. The characters are signed, and each one up to the first that is no digit is an index. -/
def setHex (str : Data) : Except Crash Uint256 :=
  let psz := (str.takeWhile fun c => decide (c ≠ 0)).dropWhile isspace
  let psz := if lower (psz.take 2) = text "0x" then psz.drop 2 else psz
  if (psz.dropWhile isxdigit).head?.any fun c => decide (128 ≤ c) then .error .negativeIndex
  else .ok (Fin.ofNat _ (littleEndian (nibbleLoop 32 (psz.takeWhile isxdigit).reverse)))

/-! ### The target of a share -/

namespace Block

variable (block : Block)

/-- `getShareBits`: the fourth operation of the coinbase. -/
def getShareBits : Except Crash Int :=
  match block.transactions with
  | [] => .error .noTransactions
  | txn :: _ => do
    let input ← Crash.of (inputAt txn.inputs 0)
    let (_, cbi) := Script.getOp2 input.signature
    let (_, cbi) := Script.getOp2 cbi
    let (_, cbi) := Script.getOp2 cbi
    match Script.getOp2 cbi with
    | (some (opcode, data), _) => return if opcode < 76 then getint (setvch data) else 0
    | (none, _) => return 0

def getShareTarget : Except Crash Uint256 := do
  let bits ← block.getShareBits
  let target ← Crash.of (setCompactInto bits)
  return getuint256 target

end Block

/-- `BitcoinChain::checkProofOfWork`. The other chains have another hash or another limit, or look for an auxiliary
proof of work. -/
def BitcoinChain.checkProofOfWork (prim : Primitives) (proofOfWorkLimit : Int) (block : Block) :
    Except Hazard Bool := do
  let target ← setCompactInto (block.bits.bmod (2 ^ 32))
  if proofOfWorkLimit ≠ 0 ∧ (target ≤ 0 ∨ proofOfWorkLimit < target) then return false
  return decide (prim.headerHash block.toBlockHeader ≤ getuint256 target)

/-! ### The pool -/

/-- A block with a coinbase. -/
abbrev Template := { block : Block // block.transactions ≠ [] }

/-- `setTime` and `setNonce`. -/
def Template.setWork (template : Template) (time nonce : Int) : Template :=
  ⟨{ template.val with time := time, nonce := nonce }, template.property⟩

/-- `_templates` and `_latest_work`, which is an iterator to one of them if there is one. -/
structure Pool where
  templates : Map Uint256 Template
  latestWork : Uint256
  latest : ∀ key : Uint256, templates[key]?.isSome = true → templates[latestWork]?.isSome = true

namespace Pool

def empty : Pool := { templates := ∅, latestWork := 0, latest := fun key found => by simp at found }

section Source

variable (prim : Primitives) (pool : Pool)

/-- `_latest_work->second`. -/
def latestBlock : Option Template := pool.templates[pool.latestWork]?

/-- `_templates.insert`, and `_latest_work` is where the block is then. -/
def insert (template : Template) : Pool :=
  { templates := pool.templates.insertNew template.val.merkleRoot template
    latestWork := template.val.merkleRoot
    latest := fun _ _ => Map.isSome_insertNew_self _ _ _ }

/-- The latest work gets a new time. -/
def restart (now : Int) : Pool :=
  match pool.latestBlock with
  | none => pool
  | some latest =>
    { templates := pool.templates.insert pool.latestWork (latest.setWork now 0)
      latestWork := pool.latestWork
      latest := fun _ _ => by rw [Map.lookup_insert_self]; rfl }

/-- `getWork` but for its result, with a template that may be asked for: if there is a new best block, which clears the
others, or if the latest has a time that is not thirty seconds ago. -/
def getWork (now : Int) (prev : Uint256) (template : Template) : Pool :=
  match pool.latestBlock with
  | none => (empty.insert template).restart now
  | some latest =>
    if prev ≠ latest.val.prevBlock then (empty.insert template).restart now
    else if now < latest.val.time + 30 then (pool.insert template).restart now
    else pool.restart now

/-- `target`. There is a latest block if there are templates. -/
def target : Except Crash Uint256 := do
  let t ← match pool.latestBlock with
    | some latest => Crash.of (setCompactInto (latest.val.bits.bmod (2 ^ 32)))
    | none => .ok (0xffffffff ^ 7)
  return getuint256 (t * 0xfffffff)

/-- The block that a stub is about: its template with the time and the nonce of the stub, and the coinbase if the stub
has one, or the stub itself. -/
def resolved (stub : Block) (workid : Data) : Except Crash (Option Block) :=
  match stub.transactions with
  | [] => .ok (pool.templates[stub.merkleRoot]?.map fun template =>
      { template.val with time := stub.time, nonce := stub.nonce })
  | [coinbase] => do
    let merkleroot ← setHex workid
    return pool.templates[merkleroot]?.map fun template =>
      { template.val with
        time := stub.time, nonce := stub.nonce, transactions := template.val.transactions.set 0 coinbase }
  | _ => .ok (some stub)

/-- This block with its Merkle root. -/
def rebuilt (stub : Block) (workid : Data) : Except Crash (Option Block) := do
  let block ← pool.resolved stub workid
  return block.map fun block => { block with merkleRoot := block.buildMerkleTree prim }

/-- `submitBlock`: what is returned, and the block that is posted. The check of the chain is a virtual function. -/
def submitBlock (checkProofOfWork : Block → Except Hazard Bool) (stub : Block) (workid : Data) :
    Except Crash (String × Option Block) := do
  match ← pool.rebuilt prim stub workid with
  | none => return ("block template not found", none)
  | some block => do
    let hash := prim.headerHash block.toBlockHeader
    let target ← pool.target
    if target < hash then return ("block hash did not meet target", none)
    else do
      let mined ← Crash.of (checkProofOfWork block)
      if mined then return ("", some block)
      else do
        let shareTarget ← block.getShareTarget
        if hash < shareTarget then return ("", some block)
        else .error .terminate

end Source

/-! ### Answers -/

section Answers

variable (prim : Primitives) (checkProofOfWork : Block → Except Hazard Bool) (pool : Pool)

/-- The block satisfies the proof of work of the chain or its own share target. -/
def Meets (block : Block) : Prop :=
  checkProofOfWork block = .ok true ∨
    ∃ shareTarget, block.getShareTarget = .ok shareTarget ∧ prim.headerHash block.toBlockHeader < shareTarget

/-- A submission is answered, and the block that it is about is posted exactly if it meets one of its targets. -/
structure Answered (stub : Block) (workid : Data) : Prop where
  answers : ∃ result, pool.submitBlock prim checkProofOfWork stub workid = .ok result
  posts : ∀ text posted, pool.submitBlock prim checkProofOfWork stub workid = .ok (text, posted) → ∀ block,
    posted = some block ↔ pool.rebuilt prim stub workid = .ok (some block) ∧ Meets prim checkProofOfWork block

/-- The target of the pool is the one of the two: what is within it meets a target of the block, which is looked at
without harm, and what is not within it meets none. -/
def Apart (block : Block) : Prop :=
  ∃ target, pool.target = .ok target ∧
    if prim.headerHash block.toBlockHeader ≤ target then
      checkProofOfWork block = .ok true ∨ checkProofOfWork block = .ok false ∧ Meets prim checkProofOfWork block
    else ¬Meets prim checkProofOfWork block

variable {prim checkProofOfWork pool} {stub : Block} {workid : Data} {block : Block}

theorem answered_absent (absent : pool.rebuilt prim stub workid = .ok none) :
    pool.Answered prim checkProofOfWork stub workid := by
  have answer : pool.submitBlock prim checkProofOfWork stub workid = .ok ("block template not found", none) := by
    unfold submitBlock
    rw [absent]
    rfl
  refine ⟨⟨_, answer⟩, fun text posted same block => ?_⟩
  obtain ⟨-, rfl⟩ := Prod.mk.inj (Except.ok.inj (answer.symm.trans same))
  rw [absent]
  exact iff_of_false nofun fun both => by cases both.1

/-- The block that a submission is about is the only one that can be posted. -/
theorem answered_of_found (found : pool.rebuilt prim stub workid = .ok (some block)) :
    pool.Answered prim checkProofOfWork stub workid ↔
      ∃ text posted, pool.submitBlock prim checkProofOfWork stub workid = .ok (text, posted) ∧
        (Meets prim checkProofOfWork block ∧ posted = some block ∨
          ¬Meets prim checkProofOfWork block ∧ posted = none) := by
  have only (other : Block) : pool.rebuilt prim stub workid = .ok (some other) ↔ block = other := by
    rw [found, Except.ok.injEq, Option.some.injEq]
  constructor
  · rintro ⟨⟨⟨text, posted⟩, answer⟩, posts⟩
    refine ⟨text, posted, answer, ?_⟩
    by_cases meets : Meets prim checkProofOfWork block
    · exact .inl ⟨meets, (posts text posted answer block).mpr ⟨found, meets⟩⟩
    · refine .inr ⟨meets, Option.eq_none_iff_forall_ne_some.mpr fun other same => meets ?_⟩
      obtain ⟨is, meets⟩ := (posts text posted answer other).mp same
      exact (only other).mp is ▸ meets
  · rintro ⟨text, posted, answer, which⟩
    refine ⟨⟨_, answer⟩, fun text' posted' same other => ?_⟩
    obtain ⟨-, rfl⟩ := Prod.mk.inj (Except.ok.inj (answer.symm.trans same))
    rw [only]
    rcases which with ⟨meets, rfl⟩ | ⟨missed, rfl⟩
    · rw [Option.some.injEq]
      exact ⟨fun same => ⟨same, same ▸ meets⟩, And.left⟩
    · exact iff_of_false nofun fun ⟨same, meets⟩ => missed (same ▸ meets)

/-- **A submission that is about a block is answered as it should be exactly where the target of the pool tells the
blocks apart.** -/
theorem answered_found (found : pool.rebuilt prim stub workid = .ok (some block)) :
    pool.Answered prim checkProofOfWork stub workid ↔ pool.Apart prim checkProofOfWork block := by
  rw [answered_of_found found]
  unfold submitBlock Apart Meets
  rw [found, Exec.ok_bind]
  cases aimed : pool.target with
  | error crash => exact iff_of_false (by rintro ⟨_, _, answer, -⟩; cases answer) (by rintro ⟨_, same, -⟩; cases same)
  | ok target =>
    simp only [Exec.ok_bind, Except.ok.injEq, exists_eq_left']
    generalize prim.headerHash block.toBlockHeader = hash
    by_cases within : hash ≤ target
    · rw [if_neg (not_lt.mpr within), if_pos within]
      cases checkProofOfWork block with
      | error hazard =>
        refine iff_of_false ?_ ?_
        · rintro ⟨_, _, answer, -⟩
          cases answer
        · rintro (same | ⟨same, -⟩) <;> cases same
      | ok mined =>
        cases mined with
        | true => exact iff_of_true ⟨_, _, rfl, .inl ⟨.inl rfl, rfl⟩⟩ (.inl rfl)
        | false =>
          simp only [Crash.of, Exec.ok_bind, Bool.false_eq_true, if_false, Except.ok.injEq, false_or, true_and]
          cases block.getShareTarget with
          | error crash =>
            refine iff_of_false ?_ ?_
            · rintro ⟨_, _, answer, -⟩
              cases answer
            · rintro ⟨_, same, -⟩
              cases same
          | ok shareTarget =>
            simp only [Exec.ok_bind, Except.ok.injEq, exists_eq_left']
            by_cases share : hash < shareTarget
            · rw [if_pos share]
              exact iff_of_true ⟨_, _, rfl, .inl ⟨share, rfl⟩⟩ share
            · rw [if_neg share]
              refine iff_of_false ?_ share
              rintro ⟨_, _, answer, -⟩
              cases answer
    · rw [if_pos (not_le.mp within), if_neg within]
      refine ⟨?_, fun missed => ⟨_, _, rfl, .inr ⟨missed, rfl⟩⟩⟩
      rintro ⟨text, posted, answer, ⟨-, rfl⟩ | ⟨missed, -⟩⟩
      · cases answer
      · exact missed

/-! ### Where nothing is undefined -/

/-! ### A header of the latest work -/

/-- **When a submission is answered and posted as it should be**: where there is no template for it, or where the target
of the pool tells the blocks apart, in any state of the pool, for any stub and for any id of the work. -/
theorem submitBlock_answered_iff (prim : Primitives) (checkProofOfWork : Block → Except Hazard Bool) (pool : Pool)
    (stub : Block) (workid : Data) :
    pool.Answered prim checkProofOfWork stub workid ↔
      pool.rebuilt prim stub workid = .ok none ∨
        ∃ block, pool.rebuilt prim stub workid = .ok (some block) ∧ pool.Apart prim checkProofOfWork block := by
  cases about : pool.rebuilt prim stub workid with
  | error crash =>
    refine iff_of_false ?_ ?_
    · rintro ⟨⟨result, answer⟩, -⟩
      unfold submitBlock at answer
      rw [about] at answer
      cases answer
    · rintro (same | ⟨_, same, -⟩) <;> cases same
  | ok found =>
    cases found with
    | none => exact iff_of_true (answered_absent about) (.inl rfl)
    | some block =>
      rw [answered_found about]
      constructor
      · exact fun apart => .inr ⟨block, rfl, apart⟩
      · rintro (same | ⟨other, same, apart⟩)
        · cases same
        · cases same
          exact apart

end Answers

end Pool

namespace Small

/-- Every header has this hash, which is more than the target of the easiest bits and less than the target of a pool
with them. -/
def nearby : Primitives := { pairing with headerHash := fun _ => Fin.ofNat _ (2 ^ 240) }

/-- A template with the coinbase that `getBlockTemplate` makes. -/
def easyTemplate : Template :=
  ⟨{ version := 3, prevBlock := 1, merkleRoot := 40, time := 100, bits := 0x1d00ffff, nonce := 0
     transactions := [BlockChain.templateCoinbase 1 [⟨50, [1]⟩]], auxPow := [] }, List.cons_ne_nil _ _⟩

/-- The header of the work with a nonce. -/
def solvedHeader : Block := { easyTemplate.val with nonce := 7, transactions := [] }

end Small

namespace Pool

open Libcoin.Small

/-- A header is submitted for the work that was handed out. -/
theorem submitBlock_terminates :
    (empty.getWork 100 1 easyTemplate).submitBlock nearby (BitcoinChain.checkProofOfWork nearby BlockTree.limit32)
        solvedHeader [] = .error .terminate ∧
      ¬(empty.getWork 100 1 easyTemplate).Answered nearby (BitcoinChain.checkProofOfWork nearby BlockTree.limit32)
        solvedHeader [] := by
  have ended : (empty.getWork 100 1 easyTemplate).submitBlock nearby
      (BitcoinChain.checkProofOfWork nearby BlockTree.limit32) solvedHeader [] = .error .terminate := by decide +kernel
  refine ⟨ended, fun answered => ?_⟩
  obtain ⟨result, answer⟩ := answered.answers
  rw [ended] at answer
  cases answer

end Pool

end Libcoin
