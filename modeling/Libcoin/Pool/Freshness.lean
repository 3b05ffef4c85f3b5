/-
How fresh the work of a pool is.

* `History` adds to a pool the templates that were selected, and when.
* `Fresh` work builds on the best block, and has transactions that were selected at most thirty seconds ago.
* `Timely`: a template is selected for the best block, or the last selection was at most thirty seconds ago. `selects`
  has the thirty seconds the other way round: it is true while the latest work is young.
-/

import Libcoin.Pool.Work

namespace Libcoin

open Exec

namespace Pool

/-- The template that a call selects. -/
def selected (cfg : Config) (pool : Pool) (call : WorkCall) : Option Block :=
  match call.prev with
  | .error _ => none
  | .ok prev => if pool.selects call.clock.now prev then (getBlockTemplate cfg call).toOption else none

/-- A pool, and the templates that were selected with the times of the calls, the last one first. -/
structure History where
  pool : Pool
  picks : List (Int × Block)

namespace History

def start : History := { pool := empty, picks := [] }

section Source

variable (cfg : Config) (h : History) (call : WorkCall)

def called : History :=
  { pool := h.pool.called cfg call
    picks := ((h.pool.selected cfg call).map fun block => (call.clock.now, block)).toList ++ h.picks }

/-- What the call hands out builds on the best block, and its transactions were selected in the last thirty seconds. -/
def Fresh : Prop :=
  ∀ work, (h.pool.work cfg call).2 = .ok work →
    call.prev = .ok work.prevBlock ∧
      ∃ pick ∈ (h.called cfg call).picks, call.clock.now ≤ pick.1 + 30 ∧ pick.2.transactions = work.transactions

/-- A template that the call selects builds on the best block, or is there already. If the call selects none then the
last one was selected in the last thirty seconds. -/
def Timely : Prop :=
  ∀ prev, call.prev = .ok prev →
    if h.pool.selects call.clock.now prev then
      ∀ block, getBlockTemplate cfg call = .ok block →
        block.prevBlock = prev ∨ (h.pool.cleared prev).templates[block.merkleRoot]?.isSome = true
    else ∃ pick ∈ h.picks.head?, call.clock.now ≤ pick.1 + 30

end Source

/-- Selected templates with the same Merkle root have the same transactions. -/
def Separate (picks : List (Int × Block)) : Prop :=
  ∀ one ∈ picks, ∀ two ∈ picks, one.2.merkleRoot = two.2.merkleRoot → one.2.transactions = two.2.transactions

variable {cfg : Config} {h : History} {call : WorkCall} {prev : Uint256} {pick : Int × Block}

/-- What holds in all states of a run whose calls were timely. -/
structure Sound (h : History) : Prop where
  onBest : ∀ prev, h.pool.OnBest prev
  picked : ∀ (root : Uint256) (template : Template), h.pool.templates[root]? = some template →
    ∃ pick ∈ h.picks, pick.2.merkleRoot = root ∧ pick.2.transactions = template.val.transactions
  last : ∀ latest, h.pool.latestBlock = some latest →
    ∃ pick ∈ h.picks.head?, pick.2.transactions = latest.val.transactions
  newest : ∀ pick ∈ h.picks, ∀ last ∈ h.picks.head?, pick.1 ≤ last.1

theorem sound_start : Sound start where
  onBest _ := onBest_empty
  picked root template stored := absurd stored (lookup_empty root template)
  last latest is := absurd is (lookup_empty _ latest)
  newest := nofun

theorem picks_subset : h.picks ⊆ (h.called cfg call).picks := List.subset_append_right _ _

theorem picks_final (calls : List WorkCall) : h.picks ⊆ (Run.final (called cfg) h calls).picks := by
  induction calls generalizing h with
  | nil => exact List.Subset.refl _
  | cons call calls ih => exact List.Subset.trans picks_subset ih

instance (picks : List (Int × Block)) : Decidable (Separate picks) :=
  inferInstanceAs (Decidable (∀ one ∈ picks, ∀ two ∈ picks, _ → _))

theorem Separate.mono {picks later : List (Int × Block)} (separate : Separate later) (sub : picks ⊆ later) :
    Separate picks :=
  fun one inside two among => separate one (sub inside) two (sub among)

theorem called_of_error {fault : Fault} (best : call.prev = .error fault) :
    (h.pool.work cfg call).2 = .error fault ∧ h.called cfg call = h := by
  unfold called Pool.called selected work
  rw [best]
  exact ⟨rfl, rfl⟩

/-- A call that is not for invalid work is timely if it selects a template. -/
theorem timely_of_valid (valid : call.invalid = false)
    (asks : ∀ prev, call.prev = .ok prev → h.pool.selects call.clock.now prev = true) : h.Timely cfg call := by
  intro prev best
  rw [asks prev best, if_pos rfl]
  intro block made
  obtain ⟨⟨blk, chosen, parent⟩, -, -⟩ := getBlockTemplate_made made
  exact .inl (parent.trans (blk_of_valid valid best chosen))

/-- What a call hands out and selects, once the best block is read. -/
theorem called_cases (best : call.prev = .ok prev) :
    (∃ latest, h.pool.latestBlock = some latest ∧ latest.val.prevBlock = prev ∧
      h.pool.selects call.clock.now prev = false ∧
      (h.pool.work cfg call).2 = .ok (latest.setWork call.clock.now 0).val ∧
      h.called cfg call = ⟨h.pool.restart call.clock.now, h.picks⟩) ∨
    h.pool.selects call.clock.now prev = true ∧
      ((∃ fault, getBlockTemplate cfg call = .error fault ∧ (h.pool.work cfg call).2 = .error fault ∧
          h.called cfg call = ⟨h.pool.cleared prev, h.picks⟩) ∨
        ∃ template : Template, getBlockTemplate cfg call = .ok template.val ∧
          (h.pool.work cfg call).2 =
            .ok ((((h.pool.cleared prev).templates[template.val.merkleRoot]?).getD template).setWork
              call.clock.now 0).val ∧
          h.called cfg call = ⟨((h.pool.cleared prev).insert template).restart call.clock.now,
            (call.clock.now, template.val) :: h.picks⟩) := by
  unfold called Pool.called selected
  rw [best]
  dsimp only
  rcases work_cases best with
    ⟨latest, last, on, old, run⟩ | ⟨asks, ⟨fault, thrown, run⟩ | ⟨template, made, run⟩⟩ <;> rw [run]
  · have rests : h.pool.selects call.clock.now prev = false := selects_eq_false.mpr ⟨latest, last, on, old⟩
    refine .inl ⟨latest, last, on, rests, rfl, ?_⟩
    rw [rests]
    rfl
  · refine .inr ⟨asks, .inl ⟨fault, thrown, rfl, ?_⟩⟩
    rw [asks, thrown]
    rfl
  · refine .inr ⟨asks, .inr ⟨template, made, rfl, ?_⟩⟩
    rw [asks, made]
    rfl

/-- One call of a run. -/
theorem Sound.fresh_iff (sound : h.Sound) (separate : Separate (h.called cfg call).picks) :
    h.Fresh cfg call ↔ h.Timely cfg call := by
  unfold Fresh Timely
  cases best : call.prev with
  | error fault =>
    rw [(called_of_error best).1]
    exact iff_of_true nofun nofun
  | ok prev =>
    simp only [Except.ok.injEq, forall_eq']
    rcases called_cases (h := h) best with
      ⟨latest, last, on, rests, run, is⟩ | ⟨asks, ⟨fault, thrown, run, is⟩ | ⟨template, made, run, is⟩⟩
    · rw [run, is, rests, if_neg (by decide)]
      simp only [Except.ok.injEq, forall_eq']
      obtain ⟨head, first, same⟩ := sound.last latest last
      constructor
      · rintro ⟨-, pick, member, recent, -⟩
        exact ⟨head, first, recent.trans (by have := sound.newest pick member head first; omega)⟩
      · rintro ⟨pick, is, recent⟩
        obtain rfl := Option.some.inj (first.symm.trans is)
        exact ⟨on.symm, head, List.mem_of_mem_head? first, recent, same⟩
    · rw [run, asks, if_pos rfl, thrown]
      exact iff_of_true nofun nofun
    · rw [is] at separate
      rw [run, is, asks, if_pos rfl, made]
      simp only [Except.ok.injEq, forall_eq']
      cases stored : (h.pool.cleared prev).templates[template.val.merkleRoot]? with
      | none =>
        rw [Option.getD_none, Option.isSome_none]
        constructor
        · exact fun fresh => .inl fresh.1.symm
        · rintro (on | there)
          · exact ⟨on.symm, _, List.mem_cons_self, by dsimp only; omega, rfl⟩
          · cases there
      | some kept =>
        rw [Option.getD_some, Option.isSome_some]
        refine iff_of_true ⟨(sound.onBest prev _ kept stored).symm, _, List.mem_cons_self, by dsimp only; omega, ?_⟩
          (.inr rfl)
        obtain ⟨pick, member, root, same⟩ := sound.picked _ kept (lookup_of_cleared stored)
        exact (separate _ List.mem_cons_self pick (List.mem_cons_of_mem _ member) root.symm).trans same

theorem Sound.restart {pool : Pool} {picks : List (Int × Block)} (sound : Sound ⟨pool, picks⟩) (now : Int) :
    Sound ⟨pool.restart now, picks⟩ where
  onBest prev := (sound.onBest prev).restart
  picked root template stored := by
    obtain ⟨template, time, nonce, is, rfl⟩ := lookup_of_restart stored
    exact sound.picked root template is
  last latest last := by
    rw [latestBlock_restart] at last
    obtain ⟨latest, is, rfl⟩ := Option.map_eq_some_iff.mp last
    exact sound.last latest is
  newest := sound.newest

theorem Sound.cleared {pool : Pool} {picks : List (Int × Block)} (sound : Sound ⟨pool, picks⟩) (prev : Uint256) :
    Sound ⟨pool.cleared prev, picks⟩ := by
  by_cases current : pool.Current prev
  · rw [cleared_of_current current]
    exact sound
  · rw [cleared_of_not_current current]
    exact
      { onBest := fun _ => onBest_empty
        picked := fun root template stored => absurd stored (lookup_empty root template)
        last := fun latest is => absurd is (lookup_empty _ latest)
        newest := sound.newest }

/-- A selected template among others for the same block. -/
theorem Sound.insert {pool : Pool} {picks : List (Int × Block)} (sound : Sound ⟨pool, picks⟩) {template : Template}
    {now : Int} (all : ∀ (root : Uint256) (found : Template), pool.templates[root]? = some found →
      found.val.prevBlock = prev)
    (on : template.val.prevBlock = prev ∨ pool.templates[template.val.merkleRoot]?.isSome = true)
    (separate : Separate ((now, template.val) :: picks)) (ordered : ∀ pick ∈ picks, pick.1 ≤ now) :
    Sound ⟨pool.insert template, (now, template.val) :: picks⟩ := by
  -- what is stored under the Merkle root was there before, or is the new template
  have stored (root : Uint256) (found : Template) (there : (pool.insert template).templates[root]? = some found) :
      pool.templates[root]? = some found ∨
        root = template.val.merkleRoot ∧ found = template ∧ pool.templates[root]? = none := by
    unfold Pool.insert at there
    rw [Map.lookup_insertNew] at there
    split at there
    · rename_i same
      subst same
      cases old : pool.templates[template.val.merkleRoot]? with
      | none =>
        rw [old, Option.getD_none] at there
        exact .inr ⟨rfl, (Option.some.inj there).symm, rfl⟩
      | some kept =>
        rw [old, Option.getD_some] at there
        exact .inl there
    · exact .inl there
  have every (root : Uint256) (found : Template) (there : (pool.insert template).templates[root]? = some found) :
      found.val.prevBlock = prev := by
    rcases stored root found there with old | ⟨rfl, rfl, absent⟩
    · exact all root found old
    · rw [absent] at on
      exact on.resolve_right nofun
  refine ⟨fun other => ?_, fun root found there => ?_, fun latest last => ?_, fun pick member last is => ?_⟩
  · by_cases current : (pool.insert template).Current other
    · rw [onBest_of_current current]
      obtain ⟨latest, last, builds⟩ := current
      obtain rfl := (every _ latest last).symm.trans builds
      exact every
    · exact onBest_of_not_current current
  · rcases stored root found there with old | ⟨rfl, rfl, -⟩
    · obtain ⟨pick, member, same⟩ := sound.picked root found old
      exact ⟨pick, List.mem_cons_of_mem _ member, same⟩
    · exact ⟨_, List.mem_cons_self, rfl, rfl⟩
  · refine ⟨_, rfl, ?_⟩
    rcases stored _ latest last with old | ⟨-, rfl, -⟩
    · obtain ⟨pick, member, root, same⟩ := sound.picked _ latest old
      exact (separate _ List.mem_cons_self pick (List.mem_cons_of_mem _ member) root.symm).trans same
    · rfl
  · obtain rfl := Option.some.inj is
    rcases List.mem_cons.mp member with rfl | member
    · exact le_rfl
    · exact ordered pick member

/-- A timely call keeps what holds. -/
theorem Sound.called (sound : h.Sound) (timely : h.Timely cfg call) (separate : Separate (h.called cfg call).picks)
    (ordered : ∀ pick ∈ h.picks, pick.1 ≤ call.clock.now) : (h.called cfg call).Sound := by
  cases best : call.prev with
  | error fault =>
    rw [(called_of_error best).2]
    exact sound
  | ok prev =>
    have timely := timely prev best
    rcases called_cases (h := h) best with
      ⟨latest, last, on, rests, -, is⟩ | ⟨asks, ⟨fault, thrown, -, is⟩ | ⟨template, made, -, is⟩⟩ <;> rw [is] at separate ⊢
    · exact sound.restart _
    · exact sound.cleared prev
    · rw [asks, if_pos rfl] at timely
      exact ((sound.cleared prev).insert (sound.onBest prev) (timely _ made) separate ordered).restart _

theorem picks_ordered (called : pick ∈ (h.called cfg call).picks) (ordered : ∀ pick ∈ h.picks, pick.1 ≤ call.clock.now) :
    pick.1 ≤ call.clock.now := by
  rcases List.mem_append.mp called with new | old
  · obtain ⟨block, -, rfl⟩ := Option.map_eq_some_iff.mp (Option.mem_toList.mp new)
    exact le_rfl
  · exact ordered pick old

/-- **When the work of a pool is fresh**, in runs of calls at times that do not decrease. -/
theorem work_fresh_iff (cfg : Config) (calls : List WorkCall)
    (ordered : calls.Pairwise fun earlier later => earlier.clock.now ≤ later.clock.now)
    (separate : Separate (Run.final (History.called cfg) start calls).picks) :
    Run.AlongSteps (History.called cfg) (Fresh cfg) start calls ↔
      Run.AlongSteps (History.called cfg) (Timely cfg) start calls := by
  suffices general : ∀ h : History, h.Sound → (∀ call ∈ calls, ∀ pick ∈ h.picks, pick.1 ≤ call.clock.now) →
      Separate (Run.final (History.called cfg) h calls).picks →
      (Run.AlongSteps (History.called cfg) (Fresh cfg) h calls ↔
        Run.AlongSteps (History.called cfg) (Timely cfg) h calls) from
    general start sound_start (fun _ _ _ member => absurd member List.not_mem_nil) separate
  clear separate
  induction calls with
  | nil => exact fun _ _ _ _ => Iff.rfl
  | cons call calls ih =>
    intro h sound before separate
    obtain ⟨first, ordered⟩ := List.pairwise_cons.mp ordered
    have now := before call List.mem_cons_self
    have apart : Separate (h.called cfg call).picks := separate.mono (picks_final calls)
    have here := sound.fresh_iff apart
    have rest (timely : h.Timely cfg call) := ih ordered (h.called cfg call) (sound.called timely apart now)
      (fun later member pick is => (picks_ordered is now).trans (first later member)) separate
    constructor
    · rintro ⟨fresh, along⟩
      have timely := here.mp fresh
      exact ⟨timely, (rest timely).mp along⟩
    · rintro ⟨timely, along⟩
      exact ⟨here.mpr timely, (rest timely).mpr along⟩

open Libcoin.Small

/-- A hundred seconds after the first call there is the same work again. -/
theorem work_stale : ∃ s : BlockChain, minedTwice = .ok s ∧
    ¬Run.AlongSteps (History.called signCounting) (Fresh signCounting) start [callAt s 100 false, callAt s 200 false] := by
  have run : (do
      let s ← minedTwice.toOption
      let h := start.called signCounting (callAt s 100 false)
      let _ ← (h.pool.work signCounting (callAt s 200 false)).2.toOption
      return (h.called signCounting (callAt s 200 false)).picks.map Prod.fst) = some [100] := by decide +kernel
  obtain ⟨s, made, run⟩ := Option.bind_eq_some_iff.mp run
  obtain ⟨work, handed, run⟩ := Option.bind_eq_some_iff.mp run
  refine ⟨s, toOption_eq_some.mp made, fun ⟨_, fresh, _⟩ => ?_⟩
  obtain ⟨-, pick, member, recent, -⟩ := fresh work (toOption_eq_some.mp handed)
  have selected := List.mem_map_of_mem (f := Prod.fst) member
  rw [Option.some.inj run, List.mem_singleton] at selected
  rw [selected] at recent
  exact absurd (show (200 : Int) ≤ 100 + 30 from recent) (by decide)

/-- A call twenty seconds after the first one selects again. -/
theorem work_fresh_iff_young : ∃ s : BlockChain, minedTwice = .ok s ∧
    Run.AlongSteps (History.called signCounting) (Fresh signCounting) start [callAt s 100 false, callAt s 120 false] := by
  have run : (do
      let s ← minedTwice.toOption
      let best ← (callAt s 120 false).prev.toOption
      return ((start.called signCounting (callAt s 100 false)).pool.selects 120 best, best,
        decide (Separate (Run.final (History.called signCounting) start [callAt s 100 false, callAt s 120 false]).picks))) =
      some (true, 2, true) := by decide +kernel
  obtain ⟨s, made, run⟩ := Option.bind_eq_some_iff.mp run
  obtain ⟨best, here, run⟩ := Option.bind_eq_some_iff.mp run
  obtain ⟨asks, run⟩ := Prod.mk.inj (Option.some.inj run)
  obtain ⟨rfl, separate⟩ := Prod.mk.inj run
  have best := toOption_eq_some.mp here
  refine ⟨s, toOption_eq_some.mp made, (work_fresh_iff signCounting _ (by simp [callAt]) (of_decide_eq_true separate)).mpr
    ⟨timely_of_valid rfl fun _ _ => rfl, timely_of_valid rfl fun prev same => ?_, trivial⟩⟩
  obtain rfl := Except.ok.inj (best.symm.trans same)
  exact asks

end History

end Pool

end Libcoin
