import Mathlib.Data.List.Basic
import Mathlib.Data.List.Perm.Basic
import Mathlib.Logic.Function.Conjugate

/-! # Schedules of actions

A loop is a list of iterations run one after the other on a state.  This file holds
the general facts about reordering such runs: which actions may change places is a
matter of `Function.Commute`, and loop fission, interchange and the jamming of several
iterations are consequences of pairwise commutation.
-/

namespace Schedule

variable {ι κ σ : Type*}

/-- Runs the action of every element of the list, first to last. -/
def run (f : ι → σ → σ) (l : List ι) (s : σ) : σ :=
  l.foldl (fun s i => f i s) s

@[simp] theorem run_nil (f : ι → σ → σ) (s : σ) : run f [] s = s := rfl

@[simp] theorem run_cons (f : ι → σ → σ) (i : ι) (l : List ι) (s : σ) :
    run f (i :: l) s = run f l (f i s) := rfl

@[simp] theorem run_append (f : ι → σ → σ) (l m : List ι) (s : σ) :
    run f (l ++ m) s = run f m (run f l s) := by
  simp [run]

theorem run_singleton (f : ι → σ → σ) (i : ι) (s : σ) : run f [i] s = f i s := rfl

theorem run_map (f : ι → σ → σ) (g : κ → ι) (l : List κ) (s : σ) :
    run f (l.map g) s = run (fun k => f (g k)) l s := by
  simp [run, List.foldl_map]

theorem run_flatMap (f : ι → σ → σ) (g : κ → List ι) (l : List κ) (s : σ) :
    run f (l.flatMap g) s = run (fun k => run f (g k)) l s := by
  induction l generalizing s with
  | nil => rfl
  | cons k l ih => rw [List.flatMap_cons, run_append, run_cons, ih]

theorem run_congr {f g : ι → σ → σ} {l : List ι} (same : ∀ i ∈ l, ∀ s, f i s = g i s) (s : σ) :
    run f l s = run g l s := by
  induction l generalizing s with
  | nil => rfl
  | cons i l ih =>
    rw [run_cons, run_cons, same i (by simp)]
    exact ih (fun j mem => same j (List.mem_cons_of_mem i mem)) _

/-- A guarded run only visits the iterations that pass the guard. -/
theorem run_filter (f : ι → σ → σ) (p : ι → Bool) (l : List ι) (s : σ) :
    run f (l.filter p) s = run (fun i s => if p i then f i s else s) l s := by
  induction l generalizing s with
  | nil => rfl
  | cons i l ih => by_cases holds : p i <;> simp [holds, ih]

theorem run_collect {ε : Type*} (f : ι → List ε) (l : List ι) (s : List ε) :
    run (fun i s => s ++ f i) l s = s ++ l.flatMap f := by
  induction l generalizing s with
  | nil => simp
  | cons i l ih => rw [run_cons, ih, List.flatMap_cons, List.append_assoc]

theorem run_id {f : ι → σ → σ} {l : List ι} (idle : ∀ i ∈ l, ∀ s, f i s = s) (s : σ) :
    run f l s = s := by
  induction l with
  | nil => rfl
  | cons i l ih =>
    rw [run_cons, idle i (by simp)]
    exact ih fun j mem => idle j (List.mem_cons_of_mem i mem)

/-- A test that no action makes fail is made once. -/
theorem run_guard (test : σ → Bool) {f : ι → σ → σ} {l : List ι}
    (stays : ∀ i ∈ l, ∀ s, test s = true → test (f i s) = true) (s : σ) :
    run (fun i s => if test s then f i s else s) l s = if test s then run f l s else s := by
  induction l generalizing s with
  | nil => simp
  | cons i l ih =>
    rw [run_cons, run_cons, ih fun j mem => stays j (List.mem_cons_of_mem i mem)]
    by_cases holds : test s = true
    · simp [holds, stays i (by simp) s holds]
    · simp [holds]

/-- An invariant of every action is an invariant of the run. -/
theorem run_invariant (holds : σ → Prop) {f : ι → σ → σ} {l : List ι}
    (step : ∀ i ∈ l, ∀ s, holds s → holds (f i s)) {s : σ} (start : holds s) :
    holds (run f l s) := by
  induction l generalizing s with
  | nil => exact start
  | cons i l ih =>
    exact ih (fun j mem => step j (List.mem_cons_of_mem i mem)) (step i (by simp) s start)

/-- Two runs stay related when every pair of corresponding actions keeps the relation. -/
theorem run_related {τ : Type*} (related : σ → τ → Prop) {f : ι → σ → σ} {g : ι → τ → τ}
    {l : List ι}
    (step : ∀ i ∈ l, ∀ s t, related s t → related (f i s) (g i t)) {s : σ} {t : τ}
    (start : related s t) : related (run f l s) (run g l t) := by
  induction l generalizing s t with
  | nil => exact start
  | cons i l ih =>
    exact ih (fun j mem => step j (List.mem_cons_of_mem i mem)) (step i (by simp) s t start)

/-! ## Observing a run -/

/-- What is observed along a run: the observation of every action, made in the state in which
the action runs. -/
def trace {ε : Type*} (f : ι → σ → σ) (observe : ι → σ → List ε) : List ι → σ → List ε
  | [], _ => []
  | i :: l, s => observe i s ++ trace f observe l (f i s)

/-- A property of every action and the state in which it runs. -/
def Along (f : ι → σ → σ) (holds : ι → σ → Prop) : List ι → σ → Prop
  | [], _ => True
  | i :: l, s => holds i s ∧ Along f holds l (f i s)

instance Along.decidable (f : ι → σ → σ) {holds : ι → σ → Prop} [∀ i s, Decidable (holds i s)] :
    (l : List ι) → (s : σ) → Decidable (Along f holds l s)
  | [], _ => .isTrue trivial
  | i :: l, s =>
    have := @Along.decidable f holds _ l (f i s)
    inferInstanceAs (Decidable (holds i s ∧ _))

theorem along_of_forall {f : ι → σ → σ} {holds : ι → σ → Prop} {l : List ι}
    (all : ∀ i ∈ l, ∀ s, holds i s) (s : σ) : Along f holds l s := by
  induction l generalizing s with
  | nil => trivial
  | cons i l ih =>
    exact ⟨all i List.mem_cons_self s, ih (fun j mem => all j (List.mem_cons_of_mem i mem)) _⟩

theorem Along.imp {f : ι → σ → σ} {holds holds' : ι → σ → Prop} {l : List ι}
    (imp : ∀ i ∈ l, ∀ s, holds i s → holds' i s) {s : σ} (along : Along f holds l s) :
    Along f holds' l s := by
  induction l generalizing s with
  | nil => trivial
  | cons i l ih =>
    exact ⟨imp i List.mem_cons_self s along.1,
      ih (fun j mem => imp j (List.mem_cons_of_mem i mem)) along.2⟩

/-- When every observation is a part of the one that is expected, so is the trace, and all
that is expected is observed when this is so along the run. -/
theorem trace_sublist {ε : Type*} {f : ι → σ → σ} {observe : ι → σ → List ε}
    {expected : ι → List ε} {holds : ι → σ → Prop} {l : List ι}
    (part : ∀ i ∈ l, ∀ s, (observe i s).Sublist (expected i) ∧
      (observe i s = expected i ↔ holds i s)) (s : σ) :
    (trace f observe l s).Sublist (l.flatMap expected) ∧
      (trace f observe l s = l.flatMap expected ↔ Along f holds l s) := by
  induction l generalizing s with
  | nil => simp [trace, Along]
  | cons i l ih =>
    obtain ⟨sub, same⟩ := part i (by simp) s
    obtain ⟨subs, sames⟩ := ih (fun j mem => part j (List.mem_cons_of_mem i mem)) (f i s)
    simp only [trace, List.flatMap_cons, Along]
    refine ⟨sub.append subs, ?_⟩
    rw [← same, ← sames]
    constructor
    · intro whole
      have lengths := congrArg List.length whole
      simp only [List.length_append] at lengths
      have short := sub.length_le
      have shorts := subs.length_le
      exact ⟨sub.eq_of_length (by omega), subs.eq_of_length (by omega)⟩
    · intro both
      rw [both.1, both.2]

theorem mem_trace {ε : Type*} {f : ι → σ → σ} {observe : ι → σ → List ε} {l : List ι} {s : σ} {x : ε}
    (mem : x ∈ trace f observe l s) : ∃ i ∈ l, ∃ s', x ∈ observe i s' := by
  induction l generalizing s with
  | nil => cases mem
  | cons i l ih =>
    cases List.mem_append.mp mem with
    | inl here => exact ⟨i, List.mem_cons_self, s, here⟩
    | inr later =>
      obtain ⟨j, memJ, found⟩ := ih later
      exact ⟨j, List.mem_cons_of_mem i memJ, found⟩

theorem subset_trace {ε : Type*} (f : ι → σ → σ) (observe : ι → σ → List ε) {l : List ι} (s : σ)
    {i : ι} (mem : i ∈ l) : ∃ s', observe i s' ⊆ trace f observe l s := by
  induction l generalizing s with
  | nil => cases mem
  | cons j l ih =>
    cases List.mem_cons.mp mem with
    | inl same => exact ⟨s, same ▸ List.subset_append_left _ _⟩
    | inr later =>
      obtain ⟨s', part⟩ := ih (f j s) later
      exact ⟨s', fun x mem => List.mem_append_right _ (part mem)⟩

/-- Actions that do the same wherever a run comes make the same run. -/
theorem run_of_along {f g : ι → σ → σ} {holds : ι → σ → Prop} {l : List ι}
    (same : ∀ i ∈ l, ∀ s, holds i s → g i s = f i s) {s : σ} (along : Along f holds l s) :
    run g l s = run f l s := by
  induction l generalizing s with
  | nil => rfl
  | cons i l ih =>
    rw [run_cons, run_cons, same i List.mem_cons_self s along.1]
    exact ih (fun j mem => same j (List.mem_cons_of_mem i mem)) along.2

/-- All that is expected is observed if it is wherever the property holds, and this is so along the
run. -/
theorem trace_of_along {ε : Type*} {f : ι → σ → σ} {observe : ι → σ → List ε}
    {expected : ι → List ε} {holds : ι → σ → Prop} {l : List ι}
    (same : ∀ i ∈ l, ∀ s, holds i s → observe i s = expected i) {s : σ}
    (along : Along f holds l s) : trace f observe l s = l.flatMap expected := by
  induction l generalizing s with
  | nil => rfl
  | cons i l ih =>
    rw [trace, List.flatMap_cons, same i List.mem_cons_self s along.1,
      ih (fun j mem => same j (List.mem_cons_of_mem i mem)) along.2]

/-- What is observed does not depend on the states when the observations are the same in all
states that the run can reach. -/
theorem trace_of_invariant {ε δ : Type*} (holds : σ → Prop) {f : ι → σ → σ}
    {observe : ι → σ → List ε} {see : ε → δ} {expected : ι → List δ} {l : List ι}
    (step : ∀ i ∈ l, ∀ s, holds s → holds (f i s))
    (same : ∀ i ∈ l, ∀ s, holds s → (observe i s).map see = expected i) {s : σ}
    (start : holds s) : (trace f observe l s).map see = l.flatMap expected := by
  induction l generalizing s with
  | nil => rfl
  | cons i l ih =>
    have later := ih (fun j mem => step j (List.mem_cons_of_mem i mem))
      (fun j mem => same j (List.mem_cons_of_mem i mem)) (step i (by simp) s start)
    rw [trace, List.map_append, List.flatMap_cons, same i (by simp) s start, later]

/-- Two nested loops visit the same pairs in either order. -/
theorem flatMap_interchange {ε : Type*} (l : List ι) (m : List κ) (f : ι → κ → List ε) :
    (l.flatMap fun i => m.flatMap (f i)).Perm (m.flatMap fun k => l.flatMap fun i => f i k) := by
  induction l with
  | nil => simp
  | cons i l ih =>
    simp only [List.flatMap_cons]
    exact (ih.append_left _).trans (List.flatMap_append_perm m (f i) _)

/-! ## Commuting actions -/

/-- An action that commutes with every step commutes with the run. -/
theorem commute_run {g : σ → σ} {f : ι → σ → σ} {l : List ι}
    (commutes : ∀ i ∈ l, Function.Commute g (f i)) : Function.Commute g (run f l) := by
  induction l with
  | nil => exact fun s => rfl
  | cons i l ih =>
    intro s
    rw [run_cons, run_cons, ih (fun j mem => commutes j (List.mem_cons_of_mem i mem)) (f i s),
      commutes i (by simp) s]

/-- **Fission.**  A loop whose body is `f` followed by `g` is the loop over `f` followed by
the loop over `g`, when the `g` of an iteration commutes with the `f` of the later ones. -/
theorem run_fission {f g : ι → σ → σ} {l : List ι}
    (commutes : l.Pairwise fun i j => Function.Commute (g i) (f j)) (s : σ) :
    run (fun i s => g i (f i s)) l s = run g l (run f l s) := by
  induction l generalizing s with
  | nil => rfl
  | cons i l ih =>
    obtain ⟨head, tail⟩ := List.pairwise_cons.mp commutes
    calc run (fun i s => g i (f i s)) (i :: l) s
        = run g l (run f l (g i (f i s))) := ih tail _
      _ = run g l (g i (run f l (f i s))) := by rw [← (commute_run head) (f i s)]

/-- **Interchange.**  Two nested loops change places when the instances that change their
order commute. -/
theorem run_interchange {f : ι → κ → σ → σ} {l : List ι} {m : List κ}
    (commutes : l.Pairwise fun i i' => m.Pairwise fun k k' => Function.Commute (f i' k) (f i k'))
    (s : σ) :
    run (fun i => run (f i) m) l s = run (fun k => run (fun i => f i k) l) m s := by
  induction l generalizing s with
  | nil => exact (run_id (fun _ _ _ => rfl) s).symm
  | cons i l ih =>
    obtain ⟨head, tail⟩ := List.pairwise_cons.mp commutes
    have later : m.Pairwise fun k k' => Function.Commute (run (fun i => f i k) l) (f i k') := by
      rw [List.pairwise_iff_forall_sublist]
      intro k k' sub
      exact (commute_run fun i' memI =>
        (List.pairwise_iff_forall_sublist.mp (head i' memI) sub).symm).symm
    calc run (fun i => run (f i) m) (i :: l) s
        = run (fun k => run (fun i => f i k) l) m (run (f i) m s) := ih tail _
      _ = run (fun k s => run (fun i => f i k) l (f i k s)) m s := (run_fission later s).symm

/-- An action that may be repeated does the same when it is run once or more. -/
theorem run_repeat {f : σ → σ} (idempotent : ∀ s, f (f s) = f s) {l : List ι} (nonempty : l ≠ [])
    (s : σ) : run (fun _ => f) l s = f s := by
  induction l generalizing s with
  | nil => exact absurd rfl nonempty
  | cons i l ih =>
    cases l with
    | nil => rfl
    | cons j l => rw [run_cons, ih (by simp), idempotent]

/-- The iterations of a loop may be run in any order when they commute pairwise. -/
theorem run_perm {f : ι → σ → σ} {l m : List ι} (perm : l.Perm m)
    (commutes : ∀ i ∈ l, ∀ j ∈ l, Function.Commute (f i) (f j)) (s : σ) :
    run f l s = run f m s := by
  induction perm generalizing s with
  | nil => rfl
  | cons i _ ih =>
    exact ih (fun i memI j memJ => commutes i (List.mem_cons_of_mem _ memI) j
      (List.mem_cons_of_mem _ memJ)) _
  | swap i j l =>
    rw [run_cons, run_cons, run_cons, run_cons, commutes i (by simp) j (by simp)]
  | trans first second ihFirst ihSecond =>
    rw [ihFirst commutes]
    exact ihSecond (fun i memI j memJ => commutes i (first.mem_iff.mpr memI) j
      (first.mem_iff.mpr memJ)) s

end Schedule
