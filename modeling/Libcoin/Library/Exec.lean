/-
Computations that can fail, taken apart at their binds.

* `Except`: `ok_bind`, `error_bind` run a bind forwards; `bind_eq_ok` reads a successful one
  backwards; `toOption_eq_some` says when there is a result.
* `EStateM`, where a failure leaves the state it was reached in: `bind_ok` and its companions read a
  successful run backwards, one lemma a primitive.
* `Keeps view x`: a run of `x` leaves `view` of the state alone, whether it succeeds or fails; and
  `Preserves holds x`: what holds of the state before holds of the one after.
* `Agree post one two`: two runs that both fail, or both succeed with `post` between what they give.
-/

namespace Libcoin

namespace Exec

section Except

variable {Err A B : Type}

@[simp] theorem ok_bind (a : A) (next : A → Except Err B) : (Except.ok a >>= next) = next a := rfl

@[simp] theorem error_bind (err : Err) (next : A → Except Err B) :
    (Except.error err >>= next) = Except.error err := rfl

theorem bind_eq_ok {first : Except Err A} {next : A → Except Err B} {b : B} :
    first >>= next = Except.ok b ↔ ∃ a, first = Except.ok a ∧ next a = Except.ok b := by
  cases first with
  | error err => simp
  | ok a => simp

theorem mapM_ok {f : A → Except Err B} {g : A → B} {as : List A} (each : ∀ a ∈ as, f a = .ok (g a)) :
    as.mapM f = .ok (as.map g) := by
  induction as with
  | nil => rfl
  | cons a as ih =>
    rw [List.mapM_cons, each a List.mem_cons_self, ok_bind, ih fun b member => each b (List.mem_cons_of_mem _ member)]
    rfl

theorem mapError_eq_ok {Err' : Type} {change : Err → Err'} {first : Except Err A} {a : A} :
    first.mapError change = Except.ok a ↔ first = Except.ok a := by
  cases first with
  | error err => exact ⟨nofun, nofun⟩
  | ok b => exact ⟨fun same => congrArg _ (Except.ok.inj same), fun same => congrArg _ (Except.ok.inj same)⟩

/-- A check that throws, and what comes after it. -/
theorem unless_bind_eq_ok {bad : Prop} [Decidable bad] {err : Err} {next : Unit → Except Err A} {a : A} :
    (if bad then throw err >>= next else next ()) = Except.ok a ↔ ¬bad ∧ next () = Except.ok a := by
  split
  · rename_i holds
    exact ⟨nofun, fun both => absurd holds both.1⟩
  · rename_i fails
    exact ⟨fun done => ⟨fails, done⟩, And.right⟩

theorem unless_eq_ok {bad : Prop} [Decidable bad] {err : Err} {done : Unit} :
    (if bad then throw err else pure () : Except Err Unit) = Except.ok done ↔ ¬bad := by
  split
  · rename_i holds
    exact ⟨nofun, fun fails => absurd holds fails⟩
  · rename_i fails
    exact ⟨fun _ => fails, fun _ => rfl⟩

theorem toOption_eq_some {first : Except Err A} {a : A} :
    first.toOption = some a ↔ first = Except.ok a := by
  cases first with
  | error err => simp [Except.toOption]
  | ok b => simp [Except.toOption]

end Except

/-! ### Successful runs -/

section State

variable {Err St A B : Type} {s s' : St}

theorem bind_ok {first : EStateM Err St A} {next : A → EStateM Err St B} {b : B} :
    (first >>= next) s = .ok b s' ↔ ∃ a mid, first s = .ok a mid ∧ next a mid = .ok b s' := by
  show EStateM.bind first next s = _ ↔ _
  unfold EStateM.bind
  cases first s with
  | ok a mid =>
    constructor
    · exact fun run => ⟨a, mid, rfl, run⟩
    · rintro ⟨a', mid', same, run⟩
      obtain ⟨rfl, rfl⟩ := EStateM.Result.ok.inj same
      exact run
  | error err mid => simp

/-- A bind, run forwards. -/
theorem bind_of_ok {first : EStateM Err St A} {next : A → EStateM Err St B} {a : A} {mid : St}
    (run : first s = .ok a mid) : (first >>= next) s = next a mid := by
  show EStateM.bind first next s = _
  unfold EStateM.bind
  rw [run]

theorem bind_of_error {first : EStateM Err St A} {next : A → EStateM Err St B} {err : Err} {mid : St}
    (run : first s = .error err mid) : (first >>= next) s = .error err mid := by
  show EStateM.bind first next s = _
  unfold EStateM.bind
  rw [run]

theorem bind_get {next : St → EStateM Err St B} : ((get : EStateM Err St St) >>= next) s = next s s := rfl

theorem bind_ofExcept_ok (a : A) (next : A → EStateM Err St B) :
    ((MonadExcept.ofExcept (Except.ok a) : EStateM Err St A) >>= next) = next a := rfl

theorem bind_modify {change : St → St} {next : PUnit → EStateM Err St B} :
    ((modify change : EStateM Err St PUnit) >>= next) s = next PUnit.unit (change s) := rfl

theorem pure_ok {a b : A} :
    (pure a : EStateM Err St A) s = .ok b s' ↔ a = b ∧ s = s' := by
  show EStateM.Result.ok a s = .ok b s' ↔ _
  simp

theorem get_ok {now : St} : (get : EStateM Err St St) s = .ok now s' ↔ s = now ∧ s = s' := by
  show EStateM.Result.ok s s = .ok now s' ↔ _
  simp

theorem modify_ok {change : St → St} {done : PUnit} :
    (modify change : EStateM Err St PUnit) s = .ok done s' ↔ change s = s' := by
  show EStateM.Result.ok PUnit.unit (change s) = .ok done s' ↔ _
  simp

theorem modifyGet_ok {change : St → A × St} {a : A} :
    (modifyGet change : EStateM Err St A) s = .ok a s' ↔ change s = (a, s') := by
  show EStateM.Result.ok (change s).1 (change s).2 = .ok a s' ↔ _
  rw [EStateM.Result.ok.injEq, Prod.ext_iff]

/-- Changing what is thrown does not touch a successful run. -/
theorem adaptExcept_ok {Err' : Type} {change : Err → Err'} {x : EStateM Err St A} {a : A} :
    x.adaptExcept change s = .ok a s' ↔ x s = .ok a s' := by
  unfold EStateM.adaptExcept
  cases x s with
  | ok b mid => simp
  | error err mid => simp

theorem throw_ok {err : Err} {a : A} :
    (throw err : EStateM Err St A) s = .ok a s' ↔ False := by
  show EStateM.Result.error err s = .ok a s' ↔ _
  simp

/-- A guard that throws when its condition holds. -/
theorem guard_ok {bad : Bool} {err : Err} {done : PUnit} :
    (if bad then throw err else pure PUnit.unit : EStateM Err St PUnit) s = .ok done s' ↔
      bad = false ∧ s = s' := by
  cases bad with
  | true => simp [throw_ok]
  | false => simp [pure_ok]

/-- A run on a fixed state, evaluated: it succeeds and its result passes a test. -/
def succeeds (run : EStateM.Result Err St A) (test : A → St → Bool) : Bool :=
  match run with
  | .ok a s => test a s
  | .error _ _ => false

theorem of_succeeds {run : EStateM.Result Err St A} {test : A → St → Bool}
    (passed : succeeds run test = true) : ∃ a s', run = .ok a s' ∧ test a s' = true := by
  cases run with
  | ok a s' => exact ⟨a, s', rfl, passed⟩
  | error err s' => cases passed

/-- A run on a fixed state, evaluated: it fails and what it leaves passes a test. -/
def fails (run : EStateM.Result Err St A) (test : Err → St → Bool) : Bool :=
  match run with
  | .ok _ _ => false
  | .error err s => test err s

theorem of_fails {run : EStateM.Result Err St A} {test : Err → St → Bool} (passed : fails run test = true) :
    ∃ err s', run = .error err s' ∧ test err s' = true := by
  cases run with
  | ok a s => cases passed
  | error err s => exact ⟨err, s, rfl, passed⟩

/-! ### Runs that never fail -/

/-- The run succeeds from every state. -/
def Always (x : EStateM Err St A) : Prop := ∀ s, ∃ a s', x s = .ok a s'

theorem always_bind {first : EStateM Err St A} {next : A → EStateM Err St B} (one : Always first)
    (two : ∀ a, Always (next a)) : Always (first >>= next) := by
  intro s
  obtain ⟨a, mid, run⟩ := one s
  obtain ⟨b, s', rest⟩ := two a mid
  exact ⟨b, s', bind_ok.mpr ⟨a, mid, run, rest⟩⟩

theorem always_pure (a : A) : Always (pure a : EStateM Err St A) := fun s => ⟨a, s, rfl⟩

theorem always_pure_bind {a : A} {next : A → EStateM Err St B} (rest : Always (next a)) :
    Always (pure a >>= next) := rest

theorem always_modify (change : St → St) : Always (modify change : EStateM Err St PUnit) :=
    fun s => ⟨_, change s, rfl⟩

theorem always_modifyGet (change : St → A × St) : Always (modifyGet change : EStateM Err St A) :=
  fun s => ⟨(change s).1, (change s).2, rfl⟩

theorem always_ite {holds : Prop} [Decidable holds] {yes no : EStateM Err St A} (one : Always yes)
    (two : Always no) :
    Always (if holds then yes else no) := by
  split
  · exact one
  · exact two

/-! ### Runs that keep a part of the state -/

/-- The state a run ends in, by success or by failure. -/
def final : EStateM.Result Err St A → St
  | .ok _ s => s
  | .error _ s => s

/-- However the run ends, `view` of the state is what it was. -/
def Keeps {V : Type} (view : St → V) (x : EStateM Err St A) : Prop :=
  ∀ s, view (final (x s)) = view s

section Keeps

variable {V : Type} {view : St → V}

theorem Keeps.ok {x : EStateM Err St A} (keeps : Keeps view x) {a : A} (run : x s = .ok a s') :
    view s' = view s := by
  have same := keeps s
  rwa [run] at same

theorem Keeps.error {x : EStateM Err St A} (keeps : Keeps view x) {err : Err}
    (run : x s = .error err s') : view s' = view s := by
  have same := keeps s
  rwa [run] at same

theorem keeps_bind {first : EStateM Err St A} {next : A → EStateM Err St B} (one : Keeps view first)
    (two : ∀ a, Keeps view (next a)) : Keeps view (first >>= next) := by
  intro s
  show view (final (EStateM.bind first next s)) = view s
  unfold EStateM.bind
  cases run : first s with
  | ok a mid => exact (two a mid).trans (one.ok run)
  | error err mid => exact one.error run

theorem keeps_pure (a : A) : Keeps view (pure a : EStateM Err St A) := fun _ => rfl

theorem keeps_get : Keeps view (get : EStateM Err St St) := fun _ => rfl

theorem keeps_throw (err : Err) : Keeps view (throw err : EStateM Err St A) := fun _ => rfl

theorem keeps_modify {change : St → St} (same : ∀ s, view (change s) = view s) :
    Keeps view (modify change : EStateM Err St PUnit) := same

theorem keeps_modifyGet {change : St → A × St} (same : ∀ s, view (change s).2 = view s) :
    Keeps view (modifyGet change : EStateM Err St A) := same

theorem keeps_adaptExcept {Err' : Type} {change : Err → Err'} {x : EStateM Err St A}
    (keeps : Keeps view x) : Keeps view (x.adaptExcept change) := by
  intro s
  unfold EStateM.adaptExcept
  cases run : x s with
  | ok a mid => exact keeps.ok run
  | error err mid => exact keeps.error run

theorem keeps_ite {holds : Prop} [Decidable holds] {yes no : EStateM Err St A} (one : Keeps view yes)
    (two : Keeps view no) : Keeps view (if holds then yes else no) := by
  by_cases is : holds
  · rw [if_pos is]
    exact one
  · rw [if_neg is]
    exact two

end Keeps

/-! ### Runs that keep a property -/

/-- However the run ends, the property stays true. -/
def Preserves (holds : St → Prop) (x : EStateM Err St A) : Prop := ∀ s, holds s → holds (final (x s))

section Preserves

variable {holds : St → Prop}

theorem Keeps.preserves {V : Type} {view : St → V} {x : EStateM Err St A} (keeps : Keeps view x)
    (of_view : ∀ s s', view s' = view s → holds s → holds s') : Preserves holds x :=
  fun s => of_view s _ (keeps s)

theorem Preserves.ok {x : EStateM Err St A} (preserves : Preserves holds x) (start : holds s) {a : A}
    (run : x s = .ok a s') : holds s' := by
  have last := preserves s start
  rwa [run] at last

theorem Preserves.error {x : EStateM Err St A} (preserves : Preserves holds x) (start : holds s) {err : Err}
    (run : x s = .error err s') : holds s' := by
  have last := preserves s start
  rwa [run] at last

theorem preserves_bind {first : EStateM Err St A} {next : A → EStateM Err St B}
    (one : Preserves holds first) (two : ∀ a, Preserves holds (next a)) :
    Preserves holds (first >>= next) := by
  intro s start
  show holds (final (EStateM.bind first next s))
  unfold EStateM.bind
  cases run : first s with
  | ok a mid => exact two a mid (one.ok start run)
  | error err mid => exact one.error start run

theorem preserves_pure (a : A) : Preserves holds (pure a : EStateM Err St A) := fun _ start => start

theorem preserves_modify {change : St → St} (stays : ∀ s, holds s → holds (change s)) :
    Preserves holds (modify change : EStateM Err St PUnit) := stays

end Preserves

/-! ### Two runs -/

section Agree

variable {A' B' : Type} {t t' : St}

/-- Both runs fail, or both succeed and `post` holds of their results and their last states. -/
def Agree (post : A → St → B → St → Prop) (one : EStateM.Result Err St A)
    (two : EStateM.Result Err St B) : Prop :=
  match one, two with
  | .ok a s, .ok b t => post a s b t
  | .error _ _, .error _ _ => True
  | _, _ => False

/-- The same result, and related states. -/
def alike (R : St → St → Prop) (a : A) (s : St) (b : A) (t : St) : Prop := a = b ∧ R s t

variable {post : A → St → B → St → Prop} {post' : A' → St → B' → St → Prop}
  {x : EStateM Err St A} {y : EStateM Err St B}

theorem agree_of (left : ∀ a s', x s = .ok a s' → ∃ b t', y t = .ok b t' ∧ post a s' b t')
    (right : ∀ b t', y t = .ok b t' → ∃ a s', x s = .ok a s') : Agree post (x s) (y t) := by
  cases first : x s with
  | ok a s' =>
    obtain ⟨b, t', second, holds⟩ := left a s' first
    rw [second]
    exact holds
  | error err s' =>
    cases second : y t with
    | ok b t' =>
      obtain ⟨a, s'', absurd⟩ := right b t' second
      rw [first] at absurd
      cases absurd
    | error err' t' => exact trivial

theorem agree_of_ok {a : A} {b : B} (first : x s = .ok a s') (second : y t = .ok b t')
    (holds : post a s' b t') : Agree post (x s) (y t) := by
  rw [first, second]
  exact holds

theorem Agree.left (agree : Agree post (x s) (y t)) {a : A} (run : x s = .ok a s') :
    ∃ b t', y t = .ok b t' ∧ post a s' b t' := by
  rw [run] at agree
  cases second : y t with
  | ok b t' =>
    rw [second] at agree
    exact ⟨b, t', rfl, agree⟩
  | error err t' =>
    rw [second] at agree
    exact agree.elim

theorem Agree.right (agree : Agree post (x s) (y t)) {b : B} (run : y t = .ok b t') :
    ∃ a s', x s = .ok a s' ∧ post a s' b t' := by
  rw [run] at agree
  cases first : x s with
  | ok a s' =>
    rw [first] at agree
    exact ⟨a, s', rfl, agree⟩
  | error err s' =>
    rw [first] at agree
    exact agree.elim

theorem Agree.mono (agree : Agree post (x s) (y t)) {weaker : A → St → B → St → Prop}
    (weaken : ∀ a s' b t', x s = .ok a s' → y t = .ok b t' → post a s' b t' → weaker a s' b t') :
    Agree weaker (x s) (y t) := by
  cases first : x s with
  | ok a s' =>
    obtain ⟨b, t', second, holds⟩ := agree.left first
    rw [second]
    exact weaken a s' b t' first second holds
  | error err s' =>
    cases second : y t with
    | ok b t' =>
      obtain ⟨a, s'', absurd, -⟩ := agree.right second
      rw [first] at absurd
      cases absurd
    | error err' t' => exact trivial

/-- The rest of two computations runs on what their first parts have left. -/
theorem agree_bind {next : A → EStateM Err St A'} {next' : B → EStateM Err St B'}
    (first : Agree post (x s) (y t))
    (rest : ∀ a s' b t', x s = .ok a s' → y t = .ok b t' → post a s' b t' →
      Agree post' (next a s') (next' b t')) :
    Agree post' ((x >>= next) s) ((y >>= next') t) := by
  show Agree post' (EStateM.bind x next s) (EStateM.bind y next' t)
  unfold EStateM.bind
  cases one : x s with
  | ok a s' =>
    obtain ⟨b, t', two, holds⟩ := first.left one
    rw [two]
    exact rest a s' b t' one two holds
  | error err s' =>
    cases two : y t with
    | ok b t' =>
      obtain ⟨a, s'', absurd, -⟩ := first.right two
      rw [one] at absurd
      cases absurd
    | error err' t' => exact trivial

/-- A first part that gives the same result and leaves related states. -/
theorem alike_bind {R R' : St → St → Prop} {x y : EStateM Err St A} {next next' : A → EStateM Err St B}
    (first : Agree (alike R) (x s) (y t))
    (rest : ∀ a s' t', y t = .ok a t' → R s' t' → Agree (alike R') (next a s') (next' a t')) :
    Agree (alike R') ((x >>= next) s) ((y >>= next') t) := by
  refine agree_bind first fun a s' b t' _ second holds => ?_
  obtain ⟨rfl, related⟩ := holds
  exact rest a s' t' second related

theorem agree_adaptExcept {Err' : Type} {change : Err → Err'} (agree : Agree post (x s) (y t)) :
    Agree post (x.adaptExcept change s) (y.adaptExcept change t) := by
  refine agree_of (fun a s' run => ?_) fun b t' run => ?_
  · obtain ⟨b, t', second, holds⟩ := agree.left (adaptExcept_ok.mp run)
    exact ⟨b, t', adaptExcept_ok.mpr second, holds⟩
  · obtain ⟨a, s', first, -⟩ := agree.right (adaptExcept_ok.mp run)
    exact ⟨a, s', adaptExcept_ok.mpr first⟩

end Agree

end State

end Exec

end Libcoin
