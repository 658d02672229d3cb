import Mathlib.Data.List.Basic
import Mathlib.Order.Defs.Unbundled

/-! # Procedures that check their steps

A procedure changes a state and makes steps, each of which is legal or not.  A procedure that makes
an illegal step stops there; it may also stop for other reasons (a failed assertion, no more fuel).
`wp` is the weakest precondition under which a procedure returns *if all its steps are legal*, and
`honest` is the other direction, so that together they say exactly when a procedure returns.
-/

/-- A procedure: the steps that it makes from a state, and, if it returns, its value and the state
that it leaves. -/
structure Procedure {ω : Type} (legal : ω → Bool) (σ α : Type) where
  run : σ → List ω × Option (α × σ)
  /-- A procedure that returns has made legal steps only. -/
  honest : ∀ s, (run s).2.isSome = true → ∀ step ∈ (run s).1, legal step = true

namespace Procedure

variable {ω σ α β : Type} {legal : ω → Bool}

/-! ## Composition -/

/-- Returns without a step. -/
def ret (a : α) : Procedure legal σ α where
  run s := ([], some (a, s))
  honest := by simp

/-- Runs `next` on the value and the state that `first` leaves. -/
def andThen (first : Procedure legal σ α) (next : α → Procedure legal σ β) :
    Procedure legal σ β where
  run s :=
    match first.run s with
    | (steps, none) => (steps, none)
    | (steps, some (a, s')) => (steps ++ ((next a).run s').1, ((next a).run s').2)
  honest := by
    intro s
    have firstHonest := first.honest s
    split
    · simp
    next steps a s' same =>
      rw [same] at firstHonest
      intro returns step mem
      cases List.mem_append.mp mem with
      | inl early => exact firstHonest rfl step early
      | inr late => exact (next a).honest s' returns step late

instance : Monad (Procedure legal σ) where
  pure := ret
  bind := andThen

def getState : Procedure legal σ σ where
  run s := ([], some (s, s))
  honest := by simp

def modifyState (f : σ → σ) : Procedure legal σ Unit where
  run s := ([], some ((), f s))
  honest := by simp

/-- Makes a step; an illegal one ends the run. -/
def check (step : ω) : Procedure legal σ Unit where
  run s := ([step], if legal step then some ((), s) else none)
  honest := by
    intro s
    cases same : legal step <;> simp [same]

/-- The value of `o`; there is nothing to return without one. -/
def ofOption (o : Option α) : Procedure legal σ α where
  run s := ([], o.map (·, s))
  honest := by simp

/-- Stops unless the condition holds. -/
def assert (condition : Bool) : Procedure legal σ Unit :=
  ofOption (if condition then some () else none)

/-- Repeats `body` until it leaves the loop with a value; stops when the fuel runs out. -/
def iterate : Nat → (β → Procedure legal σ (β ⊕ α)) → β → Procedure legal σ α
  | 0, _, _ => ofOption none
  | fuel + 1, body, b => body b >>= fun
    | .inl b => iterate fuel body b
    | .inr a => pure a

theorem ext_run {x y : Procedure legal σ α} (same : ∀ s, x.run s = y.run s) : x = y := by
  cases x
  cases y
  congr
  exact funext same

theorem andThen_assoc {γ : Type} (x : Procedure legal σ α) (f : α → Procedure legal σ β)
    (g : β → Procedure legal σ γ) :
    (x.andThen f).andThen g = x.andThen fun a => (f a).andThen g := by
  refine ext_run fun s => ?_
  simp only [andThen]
  cases x.run s with
  | mk steps ended =>
    cases ended with
    | none => rfl
    | some result =>
      simp only
      cases (f result.1).run result.2 with
      | mk more ended =>
        cases ended with
        | none => rfl
        | some result => simp

instance : LawfulMonad (Procedure legal σ) :=
  .mk' (Procedure legal σ)
    (fun x => ext_run fun s => by
      simp only [Functor.map, andThen, ret, Function.comp]
      split <;> simp_all)
    (fun _ _ => ext_run fun _ => by simp [bind, andThen, pure, ret])
    andThen_assoc

/-! ## Weakest preconditions -/

/-- From `s`, if every step is legal then the procedure returns, and its steps, its value and the
state that it leaves satisfy `Q`. -/
def wp (x : Procedure legal σ α) (Q : List ω → α → σ → Prop) (s : σ) : Prop :=
  (∀ step ∈ (x.run s).1, legal step = true) → ∃ a s', (x.run s).2 = some (a, s') ∧ Q (x.run s).1 a s'

section Rules

variable {Q R : List ω → α → σ → Prop} {s : σ}

theorem wp_mono {x : Procedure legal σ α} (holds : x.wp Q s)
    (weaker : ∀ steps a s', Q steps a s' → R steps a s') : x.wp R s := by
  intro safe
  obtain ⟨a, s', returns, post⟩ := holds safe
  exact ⟨a, s', returns, weaker _ _ _ post⟩

@[simp] theorem wp_pure {a : α} : (pure a : Procedure legal σ α).wp Q s ↔ Q [] a s := by
  constructor
  · intro holds
    obtain ⟨_, _, same, post⟩ := holds (by simp [pure, ret])
    cases same
    exact post
  · exact fun post _ => ⟨a, s, rfl, post⟩

@[simp] theorem wp_bind {x : Procedure legal σ β} {f : β → Procedure legal σ α} :
    (x >>= f).wp Q s ↔
      x.wp (fun steps b s' => (f b).wp (fun more a s'' => Q (steps ++ more) a s'') s') s := by
  simp only [wp, bind, andThen]
  cases ran : x.run s with
  | mk steps ended =>
    cases ended with
    | none => simp
    | some result =>
      obtain ⟨b, s'⟩ := result
      simp only [List.mem_append, or_imp, forall_and, Option.some.injEq, Prod.mk.injEq]
      constructor
      · intro holds safe
        exact ⟨b, s', ⟨rfl, rfl⟩, fun later => holds ⟨safe, later⟩⟩
      · rintro holds ⟨safe, later⟩
        obtain ⟨_, _, ⟨rfl, rfl⟩, post⟩ := holds safe
        exact post later

@[simp] theorem wp_getState {Q : List ω → σ → σ → Prop} :
    (getState : Procedure legal σ σ).wp Q s ↔ Q [] s s := by
  simp [wp, getState]

@[simp] theorem wp_modifyState {f : σ → σ} {Q : List ω → Unit → σ → Prop} :
    (modifyState f : Procedure legal σ Unit).wp Q s ↔ Q [] () (f s) := by
  simp [wp, modifyState, Unique.exists_iff]

@[simp] theorem wp_check {step : ω} {Q : List ω → Unit → σ → Prop} :
    (check step : Procedure legal σ Unit).wp Q s ↔ (legal step = true → Q [step] () s) := by
  cases same : legal step <;> simp [wp, check, same, Unique.exists_iff]

@[simp] theorem wp_ofOption {o : Option α} :
    (ofOption o : Procedure legal σ α).wp Q s ↔ ∃ a, o = some a ∧ Q [] a s := by
  cases o <;> simp [wp, ofOption]

@[simp] theorem wp_assert {condition : Bool} {Q : List ω → Unit → σ → Prop} :
    (assert condition : Procedure legal σ Unit).wp Q s ↔ condition = true ∧ Q [] () s := by
  cases condition <;> simp [assert, Unique.exists_iff]

@[simp] theorem wp_ite {c : Prop} [Decidable c] {x y : Procedure legal σ α} :
    (if c then x else y).wp Q s ↔ (c → x.wp Q s) ∧ (¬c → y.wp Q s) := by
  split <;> simp_all

/-- A loop returns when each round that goes on makes `m` smaller. -/
theorem wp_iterate {body : β → Procedure legal σ (β ⊕ α)} {m : σ → Nat}
    {I : List ω → β → σ → Prop}
    (round : ∀ steps b s, I steps b s → (body b).wp (fun more next s' =>
      match next with
      | .inl b' => m s' < m s ∧ I (steps ++ more) b' s'
      | .inr a => Q (steps ++ more) a s') s) :
    ∀ {fuel b}, m s < fuel → I [] b s → (iterate fuel body b).wp Q s := by
  have general : ∀ fuel steps b s, m s < fuel → I steps b s →
      (iterate fuel body b).wp (fun more a s' => Q (steps ++ more) a s') s := by
    intro fuel
    induction fuel with
    | zero => omega
    | succ fuel ih =>
      intro steps b s enough holds
      rw [iterate, wp_bind]
      apply wp_mono (round steps b s holds)
      rintro more (b' | a) s' post
      · have := ih (steps ++ more) b' s' (by omega) post.2
        simpa only [List.append_assoc] using this
      · simpa using post
  intro fuel b enough holds
  simpa using general fuel [] b s enough holds

/-- A procedure returns exactly when all its steps are legal. -/
theorem wp.returns_iff {x : Procedure legal σ α} (holds : x.wp Q s) :
    (x.run s).2.isSome = true ↔ ∀ step ∈ (x.run s).1, legal step = true := by
  constructor
  · exact x.honest s
  · intro safe
    obtain ⟨a, s', returns, -⟩ := holds safe
    rw [returns, Option.isSome_some]

theorem wp.of_returns {x : Procedure legal σ α} (holds : x.wp Q s) {a : α} {s' : σ}
    (returns : (x.run s).2 = some (a, s')) : Q (x.run s).1 a s' := by
  obtain ⟨b, s'', same, post⟩ := holds (x.honest s (by rw [returns, Option.isSome_some]))
  cases returns.symm.trans same
  exact post

end Rules

/-! ## Postconditions of the runs that return -/

/-- If the procedure returns from `s`, its steps, its value and the state that it leaves satisfy
`Q`. -/
def post (x : Procedure legal σ α) (Q : List ω → α → σ → Prop) (s : σ) : Prop :=
  ∀ a s', (x.run s).2 = some (a, s') → Q (x.run s).1 a s'

section Rules

variable {Q R : List ω → α → σ → Prop} {s : σ}

theorem post_mono {x : Procedure legal σ α} (holds : x.post Q s)
    (weaker : ∀ steps a s', Q steps a s' → R steps a s') : x.post R s :=
  fun a s' returns => weaker _ _ _ (holds a s' returns)

@[simp] theorem post_pure {a : α} : (pure a : Procedure legal σ α).post Q s ↔ Q [] a s := by
  constructor
  · exact fun holds => holds a s rfl
  · rintro holds _ _ ⟨⟩
    exact holds

@[simp] theorem post_bind {x : Procedure legal σ β} {f : β → Procedure legal σ α} :
    (x >>= f).post Q s ↔
      x.post (fun steps b s' => (f b).post (fun more a s'' => Q (steps ++ more) a s'') s') s := by
  simp only [post, bind, andThen]
  cases ran : x.run s with
  | mk steps ended =>
    cases ended with
    | none => simp
    | some result =>
      obtain ⟨b, s'⟩ := result
      simp only [Option.some.injEq, Prod.mk.injEq, and_imp]
      constructor
      · rintro holds _ _ rfl rfl
        exact holds
      · exact fun holds => holds b s' rfl rfl

@[simp] theorem post_getState {Q : List ω → σ → σ → Prop} :
    (getState : Procedure legal σ σ).post Q s ↔ Q [] s s := by
  simp [post, getState]

@[simp] theorem post_modifyState {f : σ → σ} {Q : List ω → Unit → σ → Prop} :
    (modifyState f : Procedure legal σ Unit).post Q s ↔ Q [] () (f s) := by
  simp [post, modifyState, Unique.forall_iff]

@[simp] theorem post_check {step : ω} {Q : List ω → Unit → σ → Prop} :
    (check step : Procedure legal σ Unit).post Q s ↔ (legal step = true → Q [step] () s) := by
  cases same : legal step <;> simp [post, check, same, Unique.forall_iff]

@[simp] theorem post_ofOption {o : Option α} :
    (ofOption o : Procedure legal σ α).post Q s ↔ ∀ a, o = some a → Q [] a s := by
  cases o <;> simp [post, ofOption]

@[simp] theorem post_ite {c : Prop} [Decidable c] {x y : Procedure legal σ α} :
    (if c then x else y).post Q s ↔ (c → x.post Q s) ∧ (¬c → y.post Q s) := by
  split <;> simp_all

end Rules

/-! ## Runs that return -/

/-- From `s` the procedure returns `a` in the state `s'`. -/
def Returns (x : Procedure legal σ α) (s : σ) (a : α) (s' : σ) : Prop := (x.run s).2 = some (a, s')

section Rules

variable {s s' : σ} {a : α}

theorem Returns.unique {x : Procedure legal σ α} {b : α} {s'' : σ} (first : x.Returns s a s')
    (second : x.Returns s b s'') : a = b ∧ s' = s'' := by
  cases first.symm.trans second
  exact ⟨rfl, rfl⟩

@[simp] theorem returns_pure {b : α} :
    (pure b : Procedure legal σ α).Returns s a s' ↔ a = b ∧ s' = s := by
  simp [Returns, pure, ret, eq_comm]

@[simp] theorem returns_bind {x : Procedure legal σ β} {f : β → Procedure legal σ α} :
    (x >>= f).Returns s a s' ↔ ∃ b s₁, x.Returns s b s₁ ∧ (f b).Returns s₁ a s' := by
  simp only [Returns, bind, andThen]
  cases x.run s with
  | mk steps ended =>
    cases ended with
    | none => simp
    | some result =>
      obtain ⟨b, s₁⟩ := result
      constructor
      · exact fun returns => ⟨b, s₁, rfl, returns⟩
      · rintro ⟨_, _, ⟨⟩, returns⟩
        exact returns

@[simp] theorem returns_getState {t : σ} :
    (getState : Procedure legal σ σ).Returns s t s' ↔ t = s ∧ s' = s := by
  simp [Returns, getState, eq_comm]

@[simp] theorem returns_modifyState {f : σ → σ} {u : Unit} :
    (modifyState f : Procedure legal σ Unit).Returns s u s' ↔ s' = f s := by
  simp [Returns, modifyState, eq_comm]

@[simp] theorem returns_check {step : ω} {u : Unit} :
    (check step : Procedure legal σ Unit).Returns s u s' ↔ legal step = true ∧ s' = s := by
  cases same : legal step <;> simp [Returns, check, same, eq_comm]

@[simp] theorem returns_ofOption {o : Option α} :
    (ofOption o : Procedure legal σ α).Returns s a s' ↔ o = some a ∧ s' = s := by
  cases o <;> simp [Returns, ofOption, eq_comm]

@[simp] theorem returns_assert {condition : Bool} {u : Unit} :
    (assert condition : Procedure legal σ Unit).Returns s u s' ↔ condition = true ∧ s' = s := by
  cases condition <;> simp [assert]

/-- More rounds than a loop needs make no difference. -/
theorem returns_iterate_mono {body : β → Procedure legal σ (β ⊕ α)} {b : β} {a : α} {s' : σ}
    {n m : Nat} (more : n ≤ m) (returns : (iterate n body b).Returns s a s') :
    (iterate m body b).Returns s a s' := by
  induction n generalizing m s b with
  | zero => cases (returns_ofOption.mp returns).1
  | succ n ih =>
    obtain ⟨m, rfl⟩ : ∃ k, m = k + 1 := ⟨m - 1, by omega⟩
    simp only [iterate, returns_bind] at returns ⊢
    obtain ⟨next, t, first, rest⟩ := returns
    refine ⟨next, t, first, ?_⟩
    cases next with
    | inl b => exact ih (by omega) rest
    | inr a => exact rest

end Rules

/-! ## How a run moves the state

A relation that every step of a procedure respects holds between the state before a run and the
state after it.
-/

/-- Whenever the procedure returns, the state before it and the state after it are related. -/
def Moves (x : Procedure legal σ α) (R : σ → σ → Prop) : Prop :=
  ∀ s a s', x.Returns s a s' → R s s'

section Rules

variable {R S : σ → σ → Prop}

theorem Moves.mono {x : Procedure legal σ α} (moves : x.Moves R) (weaker : ∀ s s', R s s' → S s s') :
    x.Moves S :=
  fun s a s' returns => weaker s s' (moves s a s' returns)

theorem moves_modifyState {f : σ → σ} (moves : ∀ s, R s (f s)) :
    (modifyState f : Procedure legal σ Unit).Moves R := by
  intro s a s' returns
  rw [returns_modifyState.mp returns]
  exact moves s

variable [IsPreorder σ R]

@[grind ←] theorem moves_pure {a : α} : (pure a : Procedure legal σ α).Moves R := by
  intro s b s' returns
  rw [(returns_pure.mp returns).2]
  exact refl_of R s

@[grind ←] theorem moves_bind {x : Procedure legal σ β} {f : β → Procedure legal σ α}
    (first : x.Moves R) (next : ∀ b, (f b).Moves R) : (x >>= f).Moves R := by
  intro s a s' returns
  obtain ⟨b, s₁, early, late⟩ := returns_bind.mp returns
  exact trans_of R (first s b s₁ early) (next b s₁ a s' late)

@[grind ←] theorem moves_getState : (getState : Procedure legal σ σ).Moves R := by
  intro s t s' returns
  rw [(returns_getState.mp returns).2]
  exact refl_of R s

@[grind ←] theorem moves_check {step : ω} : (check step : Procedure legal σ Unit).Moves R := by
  intro s u s' returns
  rw [(returns_check.mp returns).2]
  exact refl_of R s

@[grind ←] theorem moves_ofOption {o : Option α} : (ofOption o : Procedure legal σ α).Moves R := by
  intro s a s' returns
  rw [(returns_ofOption.mp returns).2]
  exact refl_of R s

@[grind ←] theorem moves_assert {condition : Bool} :
    (assert condition : Procedure legal σ Unit).Moves R :=
  moves_ofOption

@[grind ←] theorem moves_iterate {body : β → Procedure legal σ (β ⊕ α)}
    (round : ∀ b, (body b).Moves R) (fuel : Nat) (b : β) : (iterate fuel body b).Moves R := by
  induction fuel generalizing b with
  | zero => exact moves_ofOption
  | succ fuel ih =>
    refine moves_bind (round b) fun next => ?_
    cases next with
    | inl b => exact ih b
    | inr a => exact moves_pure

end Rules

/-! ## Runs with legal steps only -/

/-- Every step that the procedure makes from `s` is legal, whether it returns or not. -/
def Safe (x : Procedure legal σ α) (s : σ) : Prop := ∀ step ∈ (x.run s).1, legal step = true

section Rules

variable {s : σ}

@[simp] theorem safe_pure {a : α} : (pure a : Procedure legal σ α).Safe s := fun _ mem => nomatch mem

@[simp] theorem safe_bind {x : Procedure legal σ β} {f : β → Procedure legal σ α} :
    (x >>= f).Safe s ↔ x.Safe s ∧ ∀ b s', x.Returns s b s' → (f b).Safe s' := by
  simp only [Safe, Returns, bind, andThen]
  cases x.run s with
  | mk steps ended =>
    cases ended with
    | none => simp
    | some result =>
      obtain ⟨b, s'⟩ := result
      simp [or_imp, forall_and]

@[simp] theorem safe_getState : (getState : Procedure legal σ σ).Safe s := fun _ mem => nomatch mem

@[simp] theorem safe_modifyState {f : σ → σ} : (modifyState f : Procedure legal σ Unit).Safe s :=
  fun _ mem => nomatch mem

@[simp] theorem safe_check {step : ω} :
    (check step : Procedure legal σ Unit).Safe s ↔ legal step = true := by
  simp [Safe, check]

@[simp] theorem safe_ofOption {o : Option α} : (ofOption o : Procedure legal σ α).Safe s :=
  fun _ mem => nomatch mem

@[simp] theorem safe_assert {condition : Bool} : (assert condition : Procedure legal σ Unit).Safe s :=
  fun _ mem => nomatch mem

end Rules

end Procedure
