import Bistra.Program.Cursor
import Bistra.Semantics.Footprint
import Bistra.Semantics.Trace

/-! # Statement instances

What a transformation that only reorders has to keep: which leaf statements run, with which index of
every loop that they refer to, in any order.  When the guards read nothing that the program writes,
a run executes the instances that the guards select at its start.
-/

namespace Bistra

variable {F : Type}

/-- A leaf with the index of every loop that it refers to. -/
def Event.referred (event : Event F) : Event F where
  stmt := event.stmt
  indices := event.stmt.collectIndices.filterMap fun index =>
    (event.indices.lookup index.1).map (index.1, ·)

/-- The instance of a leaf in an environment. -/
def Stmt.instanceAt (env : Env) (leaf : Stmt F) : Event F :=
  ⟨leaf, leaf.collectIndices.map fun index => (index.1, env index.1)⟩

def Stmt.argsWritten (s : Stmt F) : List ArgId :=
  s.collectStmts.flatMap fun t => t.stores.map (·.arg)

def Stmt.varsWritten (s : Stmt F) : List VarId := s.collectStmts.flatMap Stmt.varsWrite

/-- The expression reads none of the given arguments and local variables. -/
def Expr.avoids (args : List ArgId) (vars : List VarId) (e : Expr F) : Bool :=
  e.collectLoads.all (·.arg ∉ args) && e.collectLocals.all (· ∉ vars)

/-- The guards read nothing that the program writes. -/
def Program.fixedGuards (p : Program F) : Bool :=
  (p.body.flatMap Stmt.collectIfs).all fun guard =>
    guard.1.avoids (p.body.flatMap Stmt.argsWritten) (p.body.flatMap Stmt.varsWritten)

/-- The states agree on everything besides the given arguments and local variables. -/
structure State.AgreeOff (args : List ArgId) (vars : List VarId) (st st' : State F) : Prop where
  bufs : ∀ arg, arg ∉ args → st'.bufs arg = st.bufs arg
  locals : ∀ var, var ∉ vars → st'.locals var = st.locals var

theorem subset_of_flatMap {α β : Type} {l : List α} {f : α → List β} {t : List β}
    (sub : l.flatMap f ⊆ t) {a : α} (mem : a ∈ l) : f a ⊆ t :=
  fun _ memB => sub (List.mem_flatMap.mpr ⟨a, mem, memB⟩)

@[simp] theorem Stmt.argsWritten_loop (header : Loop) (body : List (Stmt F)) :
    (Stmt.loop header body).argsWritten = body.flatMap Stmt.argsWritten := by
  simp only [Stmt.argsWritten, Stmt.collectStmts, Stmt.collectStmtsBody_eq, List.flatMap_cons,
    List.flatMap_assoc, Stmt.stores, List.map_nil, List.nil_append]
  rfl

@[simp] theorem Stmt.argsWritten_ifRange (val : Expr F) (start end_ : Int32)
    (body : List (Stmt F)) :
    (Stmt.ifRange val start end_ body).argsWritten = body.flatMap Stmt.argsWritten := by
  simp only [Stmt.argsWritten, Stmt.collectStmts, Stmt.collectStmtsBody_eq, List.flatMap_cons,
    List.flatMap_assoc, Stmt.stores, List.map_nil, List.nil_append]
  rfl

@[simp] theorem Stmt.varsWritten_loop (header : Loop) (body : List (Stmt F)) :
    (Stmt.loop header body).varsWritten = body.flatMap Stmt.varsWritten := by
  simp only [Stmt.varsWritten, Stmt.collectStmts, Stmt.collectStmtsBody_eq, List.flatMap_cons,
    List.flatMap_assoc, Stmt.varsWrite, List.nil_append]
  rfl

@[simp] theorem Stmt.varsWritten_ifRange (val : Expr F) (start end_ : Int32)
    (body : List (Stmt F)) :
    (Stmt.ifRange val start end_ body).varsWritten = body.flatMap Stmt.varsWritten := by
  simp only [Stmt.varsWritten, Stmt.collectStmts, Stmt.collectStmtsBody_eq, List.flatMap_cons,
    List.flatMap_assoc, Stmt.varsWrite, List.nil_append]
  rfl

theorem lookup_indices {env : Env} {scope : List LoopId} {L : LoopId} (mem : L ∈ scope) :
    (env.indices scope).lookup L = some (env L) := by
  induction scope with
  | nil => cases mem
  | cons first scope ih =>
    rw [Env.indices, List.map_cons, List.lookup_cons]
    cases same : L == first with
    | true => rw [beq_iff_eq.mp same]
    | false =>
      have later := (List.mem_cons.mp mem).resolve_left fun eq => by simp [eq] at same
      exact ih later

theorem Stmt.referred_eq {decls : Decls} {scope : List LoopId} {s : Stmt F}
    (verified : s.verify decls scope = true) (leaf : s.isScope = false) (env : Env) :
    (⟨s, env.indices scope⟩ : Event F).referred = s.instanceAt env := by
  have found : ∀ index ∈ s.collectIndices,
      ((env.indices scope).lookup index.1).map (index.1, ·) = some (index.1, env index.1) := by
    intro index mem
    obtain ⟨e, memE, memI⟩ := List.mem_flatMap.mp mem
    have inScope := Stmt.scoped_of_verify verified e memE index memI
    rw [Stmt.collectLoops_leaf leaf] at inScope
    rw [lookup_indices (by simpa using inScope.1), Option.map_some]
  simp only [Event.referred, Stmt.instanceAt, Event.mk.injEq, true_and]
  rw [List.filterMap_congr found, List.filterMap_eq_map']

section Semantics

variable [Field F] [LinearOrder F] {M : Machine F}

mutual

/-- The instances below a statement, with the guards evaluated in the state `st`. -/
def Stmt.instances (M : Machine F) (st : State F) (env : Env) : Stmt F → List (Event F)
  | .loop header body =>
    header.iterations.flatMap fun i =>
      Stmt.instancesBody M st (Function.update env header.id i) body
  | .ifRange val start end_ body =>
    if inRange start end_ (val.eval M st env 0).toInt then Stmt.instancesBody M st env body else []
  | leaf => [leaf.instanceAt env]

def Stmt.instancesBody (M : Machine F) (st : State F) (env : Env) : List (Stmt F) → List (Event F)
  | [] => []
  | s :: rest => s.instances M st env ++ Stmt.instancesBody M st env rest

end

@[simp] theorem Stmt.instancesBody_eq (M : Machine F) (st : State F) (env : Env)
    (body : List (Stmt F)) :
    Stmt.instancesBody M st env body = body.flatMap (Stmt.instances M st env) := by
  induction body with
  | nil => rfl
  | cons s rest ih => simp [Stmt.instancesBody, ih]

/-! ## What a run leaves alone -/

section Frame

variable {args : List ArgId} {vars : List VarId} {st₀ : State F}

theorem Stmt.execBody_agreeOff_of {body : List (Stmt F)} {env : Env} {st : State F}
    (each : ∀ s ∈ body, ∀ st, State.AgreeOff args vars st₀ st →
      State.AgreeOff args vars st₀ (s.exec M env st))
    (agree : State.AgreeOff args vars st₀ st) :
    State.AgreeOff args vars st₀ (Stmt.execBody M env body st) := by
  rw [Stmt.execBody_eq_run]
  exact Schedule.run_invariant _ each agree

theorem Stmt.exec_agreeOff {s : Stmt F} : s.argsWritten ⊆ args → s.varsWritten ⊆ vars →
    ∀ {env : Env} {st : State F}, State.AgreeOff args vars st₀ st →
      State.AgreeOff args vars st₀ (s.exec M env st) := by
  have below : ∀ {body : List (Stmt F)},
      (∀ s ∈ body, s.argsWritten ⊆ args → s.varsWritten ⊆ vars → ∀ {env : Env} {st : State F},
        State.AgreeOff args vars st₀ st → State.AgreeOff args vars st₀ (s.exec M env st)) →
      body.flatMap Stmt.argsWritten ⊆ args → body.flatMap Stmt.varsWritten ⊆ vars →
      ∀ {env : Env} {st : State F}, State.AgreeOff args vars st₀ st →
        State.AgreeOff args vars st₀ (Stmt.execBody M env body st) := by
    intro body each stores sets env st agree
    apply Stmt.execBody_agreeOff_of _ agree
    intro s mem st agree
    exact each s mem (subset_of_flatMap stores mem) (subset_of_flatMap sets mem) agree
  -- A leaf only changes the buffer or the variable that it stores to.
  have leaf : ∀ {s : Stmt F}, s.isScope = false → s.argsWritten ⊆ args → s.varsWritten ⊆ vars →
      ∀ {env : Env} {st : State F}, State.AgreeOff args vars st₀ st →
        State.AgreeOff args vars st₀ (s.exec M env st) := by
    intro s leaf stores sets env st agree
    rw [Stmt.argsWritten, Stmt.collectStmts_leaf leaf, List.flatMap_singleton] at stores
    rw [Stmt.varsWritten, Stmt.collectStmts_leaf leaf, List.flatMap_singleton] at sets
    rw [Stmt.exec_leaf leaf]
    constructor
    · intro arg unwritten
      funext cell
      rw [Stmt.bufs_apply_effect, agree.bufs arg unwritten]
      intro w mem touches
      exact unwritten (touches.1 ▸ stores (List.mem_map_of_mem mem))
    · intro var unset
      rw [Stmt.locals_apply_effect fun mem => unset (sets mem), agree.locals var unset]
  induction s using Stmt.inductTree with
  | loop header body ih =>
    intro stores sets env st agree
    rw [Stmt.argsWritten_loop] at stores
    rw [Stmt.varsWritten_loop] at sets
    rw [Stmt.exec]
    exact Schedule.run_invariant _ (fun i _ st agree => below ih stores sets agree) agree
  | ifRange val start end_ body ih =>
    intro stores sets env st agree
    rw [Stmt.argsWritten_ifRange] at stores
    rw [Stmt.varsWritten_ifRange] at sets
    rw [Stmt.exec]
    split
    -- Whatever the guard decides, the states agree afterwards.
    · exact below ih stores sets agree
    · exact agree
  | call | store | storeLocal => exact leaf rfl

theorem Stmt.execBody_agreeOff {body : List (Stmt F)}
    (stores : body.flatMap Stmt.argsWritten ⊆ args) (sets : body.flatMap Stmt.varsWritten ⊆ vars)
    {env : Env} {st : State F} (agree : State.AgreeOff args vars st₀ st) :
    State.AgreeOff args vars st₀ (Stmt.execBody M env body st) := by
  apply Stmt.execBody_agreeOff_of _ agree
  intro s mem st agree
  exact Stmt.exec_agreeOff (subset_of_flatMap stores mem) (subset_of_flatMap sets mem) agree

theorem State.AgreeOff.eval {st : State F} (agree : State.AgreeOff args vars st₀ st) {decls : Decls}
    {scope : List LoopId} {e : Expr F} (verified : e.verify decls scope = true)
    (avoids : e.avoids args vars = true) (env : Env) : e.eval M st env 0 = e.eval M st₀ env 0 := by
  simp only [Expr.avoids, Bool.and_eq_true, List.all_eq_true, decide_eq_true_eq] at avoids
  apply Expr.eval_agrees verified _ 0 e.getType.width.property.1
  constructor
  · intro ld mem buf cell touches
    rw [touches.1, agree.bufs ld.arg (avoids.1 ld mem)]
  · intro var mem
    exact agree.locals var (avoids.2 var mem)

theorem Stmt.traceBody_referred_of {body : List (Stmt F)}
    (stores : body.flatMap Stmt.argsWritten ⊆ args) (sets : body.flatMap Stmt.varsWritten ⊆ vars)
    {scope : List LoopId} {env : Env} {st : State F}
    (each : ∀ s ∈ body, ∀ st, State.AgreeOff args vars st₀ st →
      (s.trace M scope env st).map Event.referred = s.instances M st₀ env)
    (agree : State.AgreeOff args vars st₀ st) :
    (Stmt.traceBody M scope env body st).map Event.referred =
      Stmt.instancesBody M st₀ env body := by
  rw [Stmt.traceBody_eq, Stmt.instancesBody_eq]
  apply Schedule.trace_of_invariant (State.AgreeOff args vars st₀) _ each agree
  intro s mem st agree
  exact Stmt.exec_agreeOff (subset_of_flatMap stores mem) (subset_of_flatMap sets mem) agree

/-- What a run executes is what the guards select at its start. -/
theorem Stmt.trace_referred {decls : Decls} {s : Stmt F} : s.argsWritten ⊆ args →
    s.varsWritten ⊆ vars → (∀ guard ∈ s.collectIfs, guard.1.avoids args vars = true) →
    ∀ {scope : List LoopId} {env : Env} {st : State F}, s.verify decls scope = true →
      State.AgreeOff args vars st₀ st →
      (s.trace M scope env st).map Event.referred = s.instances M st₀ env := by
  induction s using Stmt.inductTree with
  | loop header body ih =>
    intro stores sets fixed scope env st verified agree
    rw [Stmt.argsWritten_loop] at stores
    rw [Stmt.varsWritten_loop] at sets
    rw [Stmt.collectIfs_loop] at fixed
    simp only [Stmt.verify, Bool.and_eq_true, Stmt.verifyBody_eq, List.all_eq_true] at verified
    rw [Stmt.trace, Stmt.instances]
    apply Schedule.trace_of_invariant (State.AgreeOff args vars st₀) _ _ agree
    -- The iterations only change what is written, and no guard reads that.
    · intro i _ st agree
      exact Stmt.execBody_agreeOff stores sets agree
    · intro i _ st agree
      apply Stmt.traceBody_referred_of stores sets _ agree
      intro s mem st agree
      exact ih s mem (subset_of_flatMap stores mem) (subset_of_flatMap sets mem)
        (fun guard memG => fixed guard (List.mem_flatMap.mpr ⟨s, mem, memG⟩)) (verified.2 s mem)
        agree
  | ifRange val start end_ body ih =>
    intro stores sets fixed scope env st verified agree
    rw [Stmt.argsWritten_ifRange] at stores
    rw [Stmt.varsWritten_ifRange] at sets
    rw [Stmt.collectIfs_ifRange] at fixed
    simp only [Stmt.verify, Bool.and_eq_true, Stmt.verifyBody_eq, List.all_eq_true] at verified
    -- The guard reads nothing that is written, so it decides as it does at the start.
    have guard : val.eval M st env 0 = val.eval M st₀ env 0 :=
      agree.eval verified.1.2 (fixed _ List.mem_cons_self) env
    rw [Stmt.trace, Stmt.instances, guard]
    split
    · apply Stmt.traceBody_referred_of stores sets _ agree
      intro s mem st agree
      exact ih s mem (subset_of_flatMap stores mem) (subset_of_flatMap sets mem)
        (fun guard memG => fixed guard
          (List.mem_cons_of_mem _ (List.mem_flatMap.mpr ⟨s, mem, memG⟩))) (verified.2 s mem) agree
    · rfl
  | call | store | storeLocal =>
    intro _ _ _ scope env st verified _
    rw [Stmt.trace, Stmt.instances, List.map_singleton, Stmt.referred_eq verified rfl]
    all_goals intros; contradiction

end Frame

/-- A run of a program executes what the guards select at its start. -/
theorem Program.trace_referred {p : Program F} (verified : p.verify = true)
    (fixed : p.fixedGuards = true) (st : State F) :
    (p.trace M st).map Event.referred = Stmt.instancesBody M st (fun _ => 0) p.body := by
  rw [Program.fixedGuards, List.all_eq_true] at fixed
  apply Stmt.traceBody_referred_of (List.Subset.refl _) (List.Subset.refl _) _ ⟨by simp, by simp⟩
  intro s mem st agree
  exact Stmt.trace_referred (subset_of_flatMap (List.Subset.refl _) mem)
    (subset_of_flatMap (List.Subset.refl _) mem)
    (fun guard memG => fixed guard (List.mem_flatMap.mpr ⟨s, mem, memG⟩))
    (Program.verify_body verified s mem) agree

/-! ## Instances of a place -/

theorem Place.instances_perm {K : Place F} {st : State F} {hole hole' : List (Stmt F)}
    (same : ∀ env, (Stmt.instancesBody M st env hole').Perm (Stmt.instancesBody M st env hole))
    (env : Env) :
    (Stmt.instancesBody M st env (K.fill hole')).Perm (Stmt.instancesBody M st env (K.fill hole)) := by
  -- By induction on the scopes around the hole, from the outside to the inside.
  have general : ∀ {path : List (OpenScope F)} {hole hole' : List (Stmt F)},
      (∀ env, (Stmt.instancesBody M st env hole').Perm (Stmt.instancesBody M st env hole)) →
      ∀ env, (Stmt.instancesBody M st env (reassemble path hole')).Perm
        (Stmt.instancesBody M st env (reassemble path hole)) := by
    intro path
    induction path with
    | nil => exact id
    | cons f path ih =>
      intro hole hole' same
      apply ih
      intro env
      have inside : ∀ env, (Stmt.instancesBody M st env (f.before ++ hole' ++ f.after)).Perm
          (Stmt.instancesBody M st env (f.before ++ hole ++ f.after)) := by
        intro env
        simp only [Stmt.instancesBody_eq, List.flatMap_append] at same ⊢
        exact ((same env).append_left _).append_right _
      cases head : f.head with
      | loop header =>
        simp only [OpenScope.attach, head, ScopeHead.wrap, Stmt.instancesBody, Stmt.instances,
          List.append_nil]
        exact List.Perm.flatMap_left _ fun i _ => inside _
      | ifRange val start end_ =>
        simp only [OpenScope.attach, head, ScopeHead.wrap, Stmt.instancesBody, Stmt.instances,
          List.append_nil]
        split
        · exact inside env
        · exact List.Perm.nil
  have inside := @general K.path hole hole' same env
  simp only [Place.fill, Stmt.instancesBody_eq, List.flatMap_append] at inside ⊢
  exact (inside.append_left _).append_right _

/-- A loop changes places with the only scope around it. -/
theorem ScopeHead.instances_interchange {decls : Decls} {scope : List LoopId}
    {head : ScopeHead F} {header : Loop} {body : List (Stmt F)}
    (verified : Stmt.verifyBody decls scope [head.wrap [.loop header body]] = true)
    (inner : header.id ∉ head.loops ++ scope) (st : State F) (env : Env) :
    (Stmt.instancesBody M st env [.loop header [head.wrap body]]).Perm
      (Stmt.instancesBody M st env [head.wrap [.loop header body]]) := by
  cases head with
  | loop outer =>
    simp only [ScopeHead.loops, List.cons_append, List.nil_append, List.mem_cons, not_or] at inner
    simp only [ScopeHead.wrap, Stmt.instancesBody, Stmt.instances, List.append_nil]
    simp only [fun i k => Function.update_comm inner.1 i k env]
    exact Schedule.flatMap_interchange _ _ _
  | ifRange val start end_ =>
    simp only [ScopeHead.loops, List.nil_append] at inner
    simp only [ScopeHead.wrap, Stmt.verifyBody, Stmt.verify, Bool.and_eq_true] at verified
    have guard : ∀ i, val.eval M st (Function.update env header.id i) = val.eval M st env := by
      intro i
      apply Expr.eval_congr
      intro index mem
      apply Function.update_of_ne
      intro same
      exact inner (same ▸ (Expr.scoped_of_verify verified.1.1.2 index mem).1)
    simp only [ScopeHead.wrap, Stmt.instancesBody, Stmt.instances, List.append_nil, guard]
    split
    · exact List.Perm.refl _
    · simp

end Semantics

end Bistra
