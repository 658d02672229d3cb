import Bistra.Program.Verify
import Bistra.Semantics.Exec

/-! # Rewriting and execution

What the rewritings of the tree do to its meaning.  Every transformation is a
combination of these: its correctness proof only has to say how the environments of the
old and the new tree correspond and that the piece it puts in does what the piece it
takes out did.
-/

namespace Bistra

variable {F : Type} [Field F] [LinearOrder F] {M : Machine F}

theorem Expr.lanes_congr {st : State F} {env env' : Env} {e e' : Expr F}
    (type : e'.getType = e.getType) (value : e'.eval M st env' = e.eval M st env) :
    e'.lanes M st env' = e.lanes M st env := by
  simp only [Expr.lanes, type, value]

theorem Expr.subscripts_map_congr {st : State F} {env env' : Env} {f : Expr F → Expr F}
    {indices : List (Expr F)}
    (value : ∀ e ∈ indices, (f e).eval M st env' = e.eval M st env) :
    Expr.subscripts M st env' (indices.map f) = Expr.subscripts M st env indices := by
  rw [Expr.subscripts_eq, Expr.subscripts_eq, List.map_map]
  refine List.map_congr_left fun e mem => ?_
  rw [Function.comp, value e mem]

theorem Expr.eval_hasKind {decls : Decls} {scope : List LoopId} {st : State F} {env : Env}
    {e : Expr F} (verified : e.verify decls scope = true) (lane : Nat) :
    (e.eval M st env lane).HasKind e.getType.elementType := by
  induction e using Expr.inductTree generalizing lane with
  | index loop type =>
    simp only [Expr.verify, Bool.and_eq_true, ExprType.isIndexTy, decide_eq_true_eq] at verified
    rw [Expr.getType, verified.1]
    trivial
  | const | constFP | constString | gep => trivial
  | binary kind lhs rhs ihL ihR =>
    simp only [Expr.verify, Bool.and_eq_true, decide_eq_true_eq] at verified
    obtain ⟨⟨types, left⟩, right⟩ := verified
    have kindR := ihR right lane
    rw [← types] at kindR
    exact Machine.binOp_hasKind M kind (ihL left lane) kindR
  | unary kind val ih => exact Machine.unOp_hasKind M kind (ih verified lane)
  | broadcast val vf ih =>
    simp only [Expr.verify, Bool.and_eq_true] at verified
    exact ih verified.1 0
  | load arg indices type => exact Scalar.as_hasKind _ _
  | loadLocal var type => exact Scalar.as_hasKind _ _

/-! ## Rewriting the expressions -/

/-- Rewriting the expressions of a statement keeps its effect in related environments, when
every expression keeps its type and its value and the relation survives the binding of an
index. -/
theorem Stmt.exec_mapExprs {f : Expr F → Expr F} (related : Env → Env → Prop) {s : Stmt F}
    (bind : ∀ loop ∈ s.collectLoops, ∀ env env' i, related env env' →
      related (Function.update env loop.1.id i) (Function.update env' loop.1.id i))
    (roots : ∀ e ∈ s.collectRoots, (f e).getType = e.getType ∧
      ∀ st env env', related env env' → (f e).eval M st env' = e.eval M st env) :
    ∀ {env env'}, related env env' → ∀ st, (s.mapExprs f).exec M env' st = s.exec M env st := by
  induction s using Stmt.inductTree with
  | loop header body ih =>
    intro env env' rel st
    simp only [Stmt.collectRoots_loop, List.mem_flatMap, Stmt.collectLoops_loop, List.mem_cons]
      at roots bind
    rw [Stmt.mapExprs, Stmt.mapExprsBody_eq]
    refine Stmt.exec_loop_congr rfl (fun i _ st => Stmt.execBody_map (fun s mem st => ?_) st) st
    exact ih s mem (fun loop memLoop => bind loop (.inr ⟨s, mem, memLoop⟩))
      (fun e memRoot => roots e ⟨s, mem, memRoot⟩) (bind (header, body) (.inl rfl) _ _ i rel) st
  | ifRange val start end_ body ih =>
    intro env env' rel st
    simp only [Stmt.collectRoots_ifRange, List.mem_cons, List.mem_flatMap,
      Stmt.collectLoops_ifRange] at roots bind
    rw [Stmt.mapExprs, Stmt.mapExprsBody_eq, Stmt.exec, Stmt.exec,
      (roots val (.inl rfl)).2 st env env' rel]
    congr 1
    exact Stmt.execBody_map (fun s mem st => ih s mem
      (fun loop memLoop => bind loop ⟨s, mem, memLoop⟩)
      (fun e memRoot => roots e (.inr ⟨s, mem, memRoot⟩)) rel st) st
  | call name params =>
    intro env env' rel st
    simp only [Stmt.collectRoots_call] at roots
    rw [Stmt.mapExprs, Stmt.exec, Stmt.exec, List.map_map]
    congr 2
    exact List.map_congr_left fun e mem =>
      Expr.lanes_congr (roots e mem).1 ((roots e mem).2 st env env' rel)
  | store arg indices value accumulate =>
    intro env env' rel st
    simp only [Stmt.collectRoots_store, List.mem_append, List.mem_singleton] at roots
    obtain ⟨type, eval⟩ := roots value (.inr rfl)
    rw [Stmt.mapExprs, Stmt.exec, Stmt.exec, type, eval st env env' rel,
      Expr.subscripts_map_congr fun e mem => (roots e (.inl mem)).2 st env env' rel]
  | storeLocal var value accumulate =>
    intro env env' rel st
    simp only [Stmt.collectRoots_storeLocal, List.mem_singleton] at roots
    obtain ⟨type, eval⟩ := roots value rfl
    rw [Stmt.mapExprs, Stmt.exec, Stmt.exec, type, eval st env env' rel]

theorem Stmt.execBody_mapExprs {f : Expr F → Expr F} (related : Env → Env → Prop)
    {body : List (Stmt F)}
    (bind : ∀ loop ∈ Stmt.collectLoopsBody body, ∀ env env' i, related env env' →
      related (Function.update env loop.1.id i) (Function.update env' loop.1.id i))
    (roots : ∀ s ∈ body, ∀ e ∈ s.collectRoots, (f e).getType = e.getType ∧
      ∀ st env env', related env env' → (f e).eval M st env' = e.eval M st env)
    {env env' : Env} (rel : related env env') (st : State F) :
    Stmt.execBody M env' (body.map (Stmt.mapExprs f)) st = Stmt.execBody M env body st :=
  Stmt.execBody_map (fun s mem st => Stmt.exec_mapExprs related
    (fun loop memLoop => bind loop (List.mem_flatMap.mpr ⟨s, mem, memLoop⟩))
    (roots s mem) rel st) st

theorem Stmt.exec_congr {s : Stmt F} {env env' : Env}
    (same : ∀ e ∈ s.collectRoots, ∀ index ∈ e.collectIndices, env' index.1 = env index.1)
    (st : State F) : s.exec M env' st = s.exec M env st := by
  have self : s.mapExprs id = s := Stmt.mapExprs_self fun _ _ => rfl
  have rewritten : (s.mapExprs id).exec M env' st = s.exec M env st := by
    refine Stmt.exec_mapExprs
      (fun env env' => ∀ e ∈ s.collectRoots, ∀ index ∈ e.collectIndices,
        env' index.1 = env index.1) ?_ ?_ same st
    · intro loop _ env env' i rel e memRoot index memIndex
      by_cases bound : index.1 = loop.1.id
      · simp [bound]
      · simp [bound, rel e memRoot index memIndex]
    · exact fun e memRoot => ⟨rfl, fun st env env' rel => Expr.eval_congr (rel e memRoot)⟩
  rwa [self] at rewritten

/-! ## Replacing the index of a loop -/

/-- Replacing the index of `L` by a scalar expression keeps the effect of a body, in
environments that agree on the other indices of the body and give `L` the value of the
expression. -/
theorem Stmt.execBody_replaceIndex {L : LoopId} {replacement : Expr F} {body : List (Stmt F)}
    (related : Env → Env → Prop)
    (type : replacement.getType = .scalar .indexTy) (scalar : Stmt.ScalarIndex L body)
    (bind : ∀ loop ∈ Stmt.collectLoopsBody body, ∀ env env' i, related env env' →
      related (Function.update env loop.1.id i) (Function.update env' loop.1.id i))
    (others : ∀ s ∈ body, ∀ e ∈ s.collectRoots, ∀ index ∈ e.collectIndices, index.1 ≠ L →
      ∀ env env', related env env' → env' index.1 = env index.1)
    (value : ∀ st env env', related env env' → ∀ lane,
      replacement.eval M st env' lane = .idx (env L))
    {env env' : Env} (rel : related env env') (st : State F) :
    Stmt.execBody M env' (Stmt.replaceIndex L replacement body) st =
      Stmt.execBody M env body st := by
  refine Stmt.execBody_mapExprs related bind (fun s mem e memRoot => ⟨?_, ?_⟩) rel st
  · refine Expr.getType_mapIndex fun index memIndex => ?_
    by_cases hit : index.1 = L
    · simp [hit, type, scalar s mem e memRoot index memIndex hit]
    · simp [hit, Expr.getType]
  · intro st env env' rel
    refine Expr.eval_mapIndex fun index memIndex lane => ?_
    by_cases hit : index.1 = L
    · simp [hit, scalar s mem e memRoot index memIndex hit, value st env env' rel, Expr.eval]
    · simp [hit, Expr.eval, others s mem e memRoot index memIndex hit env env' rel]

/-! ## Cloning -/

/-- The clone of a statement does what the statement does, in environments that the clone
context relates.  The context gives no loop the address of the clone of another one.  Cloning makes
every index scalar, so the statement must not have vector indices. -/
theorem Stmt.exec_clone {base : LoopId} {s : Stmt F} : ∀ {ctx : LoopId → LoopId} {env env' : Env},
    (∀ loop ∈ s.collectLoops, loop.1.id < base) →
    (∀ e ∈ s.collectRoots, ∀ index ∈ e.collectIndices,
      index.1 < base ∧ index.2 = .scalar .indexTy) →
    (∀ L < base, (∀ K < base, K ≠ L → ctx L ≠ base + K) ∧ env' (ctx L) = env L) →
    ∀ st, (s.clone base ctx).exec M env' st = s.exec M env st := by
  -- Expressions that are evaluated in related environments have the same value: their indices are
  -- scalar in the clone, as they have been before.
  have eval : ∀ {e : Expr F} {ctx : LoopId → LoopId} {env env' : Env},
      (∀ index ∈ e.collectIndices, index.1 < base ∧ index.2 = .scalar .indexTy) →
      (∀ L < base, env' (ctx L) = env L) →
      (e.clone ctx).getType = e.getType ∧ ∀ st, (e.clone ctx).eval M st env' = e.eval M st env := by
    intro e ctx env env' indices rel
    refine ⟨Expr.getType_mapIndex fun index mem => (indices index mem).2.symm, fun st => ?_⟩
    refine Expr.eval_mapIndex fun index mem lane => ?_
    simp [Expr.indexOf, Expr.eval, (indices index mem).2, rel index.1 (indices index mem).1]
  induction s using Stmt.inductTree with
  | loop header body ih =>
    intro ctx env env' loops indices rel st
    simp only [Stmt.collectRoots_loop, List.mem_flatMap, Stmt.collectLoops_loop, List.mem_cons]
      at loops indices
    have below : header.id < base := loops (header, body) (.inl rfl)
    rw [Stmt.clone, Stmt.cloneBody_eq]
    refine Stmt.exec_loop_congr (by rfl) (fun i _ st => Stmt.execBody_map (fun s mem st => ?_) st) st
    refine ih s mem (fun loop memLoop => loops loop (.inr ⟨s, mem, memLoop⟩))
      (fun e memRoot => indices e ⟨s, mem, memRoot⟩) (fun L belowL => ?_) st
    -- The index of the loop itself, which the context maps to the clone, or one of a loop around
    -- it.
    by_cases same : L = header.id
    · subst same
      simp only [Function.update_self, ne_eq, Nat.add_left_cancel_iff, and_true]
      exact fun K _ other => Ne.symm other
    · obtain ⟨target, value⟩ := rel L belowL
      -- No other loop has the address of the clone.
      have apart : ctx L ≠ base + header.id := target header.id below (Ne.symm same)
      simp only [Function.update_of_ne same, Function.update_of_ne apart]
      exact ⟨target, value⟩
  | ifRange val start end_ body ih =>
    intro ctx env env' loops indices rel st
    simp only [Stmt.collectRoots_ifRange, List.mem_cons, List.mem_flatMap,
      Stmt.collectLoops_ifRange] at loops indices
    rw [Stmt.clone, Stmt.cloneBody_eq, Stmt.exec, Stmt.exec,
      (eval (indices val (.inl rfl)) fun L below => (rel L below).2).2 st]
    congr 1
    exact Stmt.execBody_map (fun s mem st => ih s mem
      (fun loop memLoop => loops loop ⟨s, mem, memLoop⟩)
      (fun e memRoot => indices e (.inr ⟨s, mem, memRoot⟩)) rel st) st
  | call name params =>
    intro ctx env env' loops indices rel st
    simp only [Stmt.collectRoots_call] at indices
    rw [Stmt.clone, Stmt.exec, Stmt.exec, List.map_map]
    congr 2
    apply List.map_congr_left
    intro e mem
    obtain ⟨type, same⟩ := eval (indices e mem) fun L below => (rel L below).2
    exact Expr.lanes_congr type (same st)
  | store arg indices value accumulate =>
    intro ctx env env' loops roots rel st
    have rel : ∀ L < base, env' (ctx L) = env L := fun L below => (rel L below).2
    simp only [Stmt.collectRoots_store, List.mem_append, List.mem_singleton] at roots
    obtain ⟨type, same⟩ := eval (roots value (.inr rfl)) rel
    rw [Stmt.clone, Stmt.exec, Stmt.exec, type, same st,
      Expr.subscripts_map_congr fun e mem => (eval (roots e (.inl mem)) rel).2 st]
  | storeLocal var value accumulate =>
    intro ctx env env' loops roots rel st
    simp only [Stmt.collectRoots_storeLocal, List.mem_singleton] at roots
    obtain ⟨type, same⟩ := eval (roots value rfl) fun L below => (rel L below).2
    rw [Stmt.clone, Stmt.exec, Stmt.exec, type, same st]

/-! ## Replacing a loop in the body that owns it -/

/-- Putting statements in the place of a loop keeps the meaning of the tree, when they do
what the loop did in every environment that can reach it. -/
theorem Stmt.exec_substLoop {L : LoopId} {f : Loop → List (Stmt F) → List (Stmt F)}
    (reachable : Env → Prop) {s : Stmt F}
    (enter : ∀ loop ∈ s.collectLoops, ∀ env, reachable env → ∀ i ∈ loop.1.iterations,
      reachable (Function.update env loop.1.id i))
    (same : ∀ loop ∈ s.collectLoops, loop.1.id = L → ∀ env, reachable env → ∀ st,
      Stmt.execBody M env (f loop.1 loop.2) st = (Stmt.loop loop.1 loop.2).exec M env st) :
    ∀ {env}, reachable env → ∀ st,
      Stmt.execBody M env (s.substLoop L f) st = s.exec M env st := by
  induction s using Stmt.inductTree with
  | loop header body ih =>
    intro env reach st
    simp only [Stmt.collectLoops_loop, List.mem_cons, List.mem_flatMap] at enter same
    rw [Stmt.substLoop]
    split
    -- The loop itself: what comes in its place does what it did.
    next hit => exact same (header, body) (.inl rfl) hit env reach st
    next miss =>
      rw [Stmt.execBody_singleton, Stmt.substLoopBody_eq]
      refine Stmt.exec_loop_congr rfl (fun i mem st => ?_) st
      refine Stmt.execBody_flatMap (fun s memBody st => ?_) st
      exact ih s memBody (fun loop memLoop => enter loop (.inr ⟨s, memBody, memLoop⟩))
        (fun loop memLoop => same loop (.inr ⟨s, memBody, memLoop⟩))
        (enter (header, body) (.inl rfl) env reach i mem) st
  | ifRange val start end_ body ih =>
    intro env reach st
    simp only [Stmt.collectLoops_ifRange, List.mem_flatMap] at enter same
    rw [Stmt.substLoop, Stmt.execBody_singleton, Stmt.substLoopBody_eq, Stmt.exec, Stmt.exec]
    congr 1
    refine Stmt.execBody_flatMap (fun s memBody st => ?_) st
    exact ih s memBody (fun loop memLoop => enter loop ⟨s, memBody, memLoop⟩)
      (fun loop memLoop => same loop ⟨s, memBody, memLoop⟩) reach st
  | call | store | storeLocal =>
    intro env reach st
    rfl

/-- Every loop index of the program is at one of the iterations of its loop. -/
def Program.Reachable (p : Program F) (env : Env) : Prop :=
  ∀ loop ∈ p.collectLoops, env loop.1.id ∈ loop.1.iterations

omit [Field F] [LinearOrder F] in
theorem Loop.mem_iterations {header : Loop} (positive : 0 < header.stride.toNat) {i : Int} :
    i ∈ header.iterations ↔
      0 ≤ i ∧ i < header.end_.toNat ∧ (header.stride.toNat : Int) ∣ i := by
  simp only [Loop.iterations, List.mem_map, IterationSpace.mem_strided positive]
  constructor
  · rintro ⟨n, ⟨below, divides⟩, rfl⟩
    exact ⟨Int.natCast_nonneg n, Int.ofNat_lt.mpr below, Int.natCast_dvd_natCast.mpr divides⟩
  · rintro ⟨nonneg, below, divides⟩
    obtain ⟨n, rfl⟩ := Int.eq_ofNat_of_zero_le nonneg
    exact ⟨n, ⟨Int.ofNat_lt.mp below, Int.natCast_dvd_natCast.mp divides⟩, rfl⟩

omit [Field F] [LinearOrder F] in
theorem Program.reachable_start {p : Program F} (verified : p.verify = true) :
    p.Reachable fun _ => 0 := by
  intro loop mem
  obtain ⟨nonempty, -, positive, -⟩ := Loop.verify_iff.mp (Program.verify_loop verified mem)
  exact (Loop.mem_iterations positive).mpr ⟨le_refl _, Int.ofNat_lt.mpr nonempty, dvd_zero _⟩

omit [Field F] [LinearOrder F] in
theorem Program.Reachable.enter {p : Program F} (verified : p.verify = true) {env : Env}
    (reach : p.Reachable env) {loop : Loop × List (Stmt F)} (mem : loop ∈ p.collectLoops) {i : Int}
    (memI : i ∈ loop.1.iterations) : p.Reachable (Function.update env loop.1.id i) := by
  intro other memOther
  by_cases same : other.1.id = loop.1.id
  · rw [List.inj_on_of_nodup_map (Program.nodup_loopIds verified) memOther mem same]
    simpa using memI
  · simpa [same] using reach other memOther

/-- Replacing a loop of a verified program by statements that do the same. -/
theorem Program.run_substLoop {p : Program F} {L : LoopId}
    {f : Loop → List (Stmt F) → List (Stmt F)} (verified : p.verify = true)
    (same : ∀ loop, p.findLoop L = some loop → ∀ env, p.Reachable env → ∀ st,
      Stmt.execBody M env (f loop.1 loop.2) st = (Stmt.loop loop.1 loop.2).exec M env st)
    (st : State F) : (p.substLoop L f).run M st = p.run M st := by
  rw [Program.run, Program.run, Program.substLoop, Stmt.substLoopBody_eq]
  refine Stmt.execBody_flatMap (fun s memBody st => ?_) st
  refine Stmt.exec_substLoop p.Reachable ?_ ?_ (Program.reachable_start verified) st
  · intro loop memLoop env reach i memI
    exact reach.enter verified (List.mem_flatMap.mpr ⟨s, memBody, memLoop⟩) memI
  · intro loop memLoop hit env reach st
    have mem : loop ∈ p.collectLoops := List.mem_flatMap.mpr ⟨s, memBody, memLoop⟩
    exact same loop (hit ▸ Program.findLoop_of_mem verified mem) env reach st

end Bistra
