import Bistra.Program.Preservation
import Bistra.Transforms.Simplify

/-! # Soundness of simplification

Each of the four steps of a round relates a body to one that does the same wherever the
program can reach it, and so does a whole round, under conditions on the program at the
beginning of the step.
-/

namespace Bistra

variable {F : Type}

/-! ## Induction over rebuilt bodies -/

@[simp] theorem Stmt.rebuildBody_eq (onLoop : Loop → List (Stmt F) → List (Stmt F) → List (Stmt F))
    (onIf : Expr F → Int32 → Int32 → List (Stmt F) → List (Stmt F)) (body : List (Stmt F)) :
    Stmt.rebuildBody onLoop onIf body = body.flatMap (Stmt.rebuild onLoop onIf) := by
  induction body with
  | nil => rfl
  | cons s rest ih => simp [Stmt.rebuildBody, ih]

/-- A relation between bodies and rebuilt bodies holds if it does for the leaves and is kept by
what happens to a scope.  `inside` collects the loops and guards of the program. -/
theorem Stmt.rebuild_rel {decls : Decls} {onLoop : Loop → List (Stmt F) → List (Stmt F) → List (Stmt F)}
    {onIf : Expr F → Int32 → Int32 → List (Stmt F) → List (Stmt F)}
    {loops : List (Loop × List (Stmt F))} {ifs : List (Expr F × Int32 × Int32)}
    (R : List LoopId → List (Stmt F) → List (Stmt F) → Prop)
    (nil : ∀ scope, R scope [] [])
    (append : ∀ scope body new rest newRest, R scope body new → R scope rest newRest →
      R scope (body ++ rest) (new ++ newRest))
    (leaf : ∀ scope (s : Stmt F), s.isScope = false → s.verify decls scope = true → R scope [s] [s])
    (loop : ∀ scope header body new, (header, body) ∈ loops →
      (Stmt.loop header body).verify decls scope = true → R (header.id :: scope) body new →
      R scope [.loop header body] (onLoop header body new))
    (guard : ∀ scope val start end_ body new, (val, start, end_) ∈ ifs →
      (Stmt.ifRange val start end_ body).verify decls scope = true → R scope body new →
      R scope [.ifRange val start end_ body] (onIf val start end_ new))
    {s : Stmt F} : ∀ {scope}, s.verify decls scope = true → (∀ l ∈ s.collectLoops, l ∈ loops) →
      (∀ i ∈ s.collectIfs, i ∈ ifs) → R scope [s] (s.rebuild onLoop onIf) := by
  have bodies : ∀ {scope} {body : List (Stmt F)},
      (∀ s ∈ body, R scope [s] (s.rebuild onLoop onIf)) →
      R scope body (body.flatMap (Stmt.rebuild onLoop onIf)) := by
    intro scope body each
    induction body with
    | nil => exact nil scope
    | cons s rest ih =>
      exact append scope [s] _ rest _ (each s (by simp))
        (ih fun t mem => each t (List.mem_cons_of_mem s mem))
  induction s using Stmt.inductTree with
  | loop header body ih =>
    intro scope verified inLoops inIfs
    simp only [Stmt.collectLoops_loop, List.mem_cons, List.mem_flatMap,
      Stmt.collectIfs_loop] at inLoops inIfs
    have inner := verified
    simp only [Stmt.verify, Bool.and_eq_true, Stmt.verifyBody_eq, List.all_eq_true] at inner
    rw [Stmt.rebuild, Stmt.rebuildBody_eq]
    refine loop scope header body _ (inLoops _ (.inl rfl)) verified (bodies fun s mem => ?_)
    exact ih s mem (inner.2 s mem) (fun l memL => inLoops l (.inr ⟨s, mem, memL⟩))
      (fun i memI => inIfs i ⟨s, mem, memI⟩)
  | ifRange val start end_ body ih =>
    intro scope verified inLoops inIfs
    simp only [Stmt.collectLoops_ifRange, List.mem_cons, List.mem_flatMap,
      Stmt.collectIfs_ifRange] at inLoops inIfs
    have inner := verified
    simp only [Stmt.verify, Bool.and_eq_true, Stmt.verifyBody_eq, List.all_eq_true] at inner
    rw [Stmt.rebuild, Stmt.rebuildBody_eq]
    refine guard scope val start end_ body _ (inIfs _ (.inl rfl)) verified (bodies fun s mem => ?_)
    exact ih s mem (inner.2 s mem) (fun l memL => inLoops l ⟨s, mem, memL⟩)
      (fun i memI => inIfs i (.inr ⟨s, mem, memI⟩))
  | call | store | storeLocal =>
    intro scope verified _ _
    exact leaf scope _ rfl verified

theorem Stmt.rebuildBody_rel (decls : Decls)
    {onLoop : Loop → List (Stmt F) → List (Stmt F) → List (Stmt F)}
    {onIf : Expr F → Int32 → Int32 → List (Stmt F) → List (Stmt F)}
    (R : List LoopId → List (Stmt F) → List (Stmt F) → Prop) {body : List (Stmt F)}
    (nil : ∀ scope, R scope [] [])
    (append : ∀ scope body new rest newRest, R scope body new → R scope rest newRest →
      R scope (body ++ rest) (new ++ newRest))
    (leaf : ∀ scope (s : Stmt F), s.isScope = false → s.verify decls scope = true → R scope [s] [s])
    (loop : ∀ scope header old new, (header, old) ∈ Stmt.collectLoopsBody body →
      (Stmt.loop header old).verify decls scope = true → R (header.id :: scope) old new →
      R scope [.loop header old] (onLoop header old new))
    (guard : ∀ scope val start end_ old new, (val, start, end_) ∈ body.flatMap Stmt.collectIfs →
      (Stmt.ifRange val start end_ old).verify decls scope = true → R scope old new →
      R scope [.ifRange val start end_ old] (onIf val start end_ new))
    {scope : List LoopId} (verified : ∀ s ∈ body, s.verify decls scope = true) :
    R scope body (Stmt.rebuildBody onLoop onIf body) := by
  have each : ∀ s ∈ body, R scope [s] (s.rebuild onLoop onIf) := fun s mem =>
    Stmt.rebuild_rel R nil append leaf loop guard (verified s mem)
      (fun l memL => List.mem_flatMap.mpr ⟨s, mem, memL⟩)
      (fun i memI => List.mem_flatMap.mpr ⟨s, mem, memI⟩)
  rw [Stmt.rebuildBody_eq]
  clear loop guard verified
  induction body with
  | nil => exact nil scope
  | cons s rest ih =>
    exact append scope [s] _ rest _ (each s (by simp))
      (ih fun t mem => each t (List.mem_cons_of_mem s mem))

/-! ## Bodies that do the same -/

theorem Stmt.scalarIndex_loop {L : LoopId} {header : Loop} {body : List (Stmt F)} :
    Stmt.ScalarIndex L [.loop header body] ↔ Stmt.ScalarIndex L body := by
  simp only [Stmt.ScalarIndex, List.mem_singleton, forall_eq, Stmt.collectRoots_loop,
    List.mem_flatMap]
  constructor
  · intro scalar s mem e memRoot
    exact scalar e ⟨s, mem, memRoot⟩
  · intro scalar e owned
    obtain ⟨s, mem, memRoot⟩ := owned
    exact scalar s mem e memRoot

theorem Stmt.scalarIndex_ifRange {L : LoopId} {val : Expr F} {start end_ : Int32}
    {body : List (Stmt F)} : Stmt.ScalarIndex L [.ifRange val start end_ body] ↔
      val.ScalarIndex L ∧ Stmt.ScalarIndex L body := by
  simp only [Stmt.ScalarIndex, List.mem_singleton, forall_eq, Stmt.collectRoots_ifRange]
  simp only [List.mem_cons, List.mem_flatMap]
  constructor
  · intro scalar
    exact ⟨scalar val (.inl rfl), fun s mem e memRoot => scalar e (.inr ⟨s, mem, memRoot⟩)⟩
  · intro both e owned
    cases owned with
    | inl same => exact same ▸ both.1
    | inr inner =>
      obtain ⟨s, mem, memRoot⟩ := inner
      exact both.2 s mem e memRoot

section SameAs

variable [Field F] [LinearOrder F] {p : Program F}

/-- The statements `new` may take the place of `body` in loops `scope` of the program. -/
structure Stmt.SameAs (p : Program F) (scope : List LoopId) (body new : List (Stmt F)) : Prop where
  verify : ∀ s ∈ new, s.verify p.decls scope = true
  exec : ∀ (M : Machine F) (env : Env), p.Reachable env → ∀ st,
    Stmt.execBody M env new st = Stmt.execBody M env body st
  loopIds : (Stmt.loopIds new).Sublist (Stmt.loopIds body)

theorem Stmt.SameAs.refl {scope : List LoopId} {body : List (Stmt F)}
    (verified : ∀ s ∈ body, s.verify p.decls scope = true) : Stmt.SameAs p scope body body :=
  ⟨verified, fun _ _ _ _ => rfl, List.Sublist.refl _⟩

theorem Stmt.SameAs.append {scope : List LoopId} {body new rest newRest : List (Stmt F)}
    (first : Stmt.SameAs p scope body new) (second : Stmt.SameAs p scope rest newRest) :
    Stmt.SameAs p scope (body ++ rest) (new ++ newRest) where
  verify s mem := (List.mem_append.mp mem).elim (first.verify s) (second.verify s)
  exec M env reach st := by
    rw [Stmt.execBody_append, Stmt.execBody_append, first.exec M env reach,
      second.exec M env reach]
  loopIds := by
    simpa [Stmt.loopIds, Stmt.collectLoopsBody] using first.loopIds.append second.loopIds

theorem Stmt.SameAs.loop (verified : p.verify = true) {scope : List LoopId} {header : Loop}
    {body new : List (Stmt F)} (mem : (header, body) ∈ p.collectLoops)
    (same : Stmt.SameAs p (header.id :: scope) body new) :
    Stmt.SameAs p scope [.loop header body] [.loop header new] where
  verify := by
    simp only [List.mem_singleton, forall_eq, Stmt.verify, Bool.and_eq_true, Stmt.verifyBody_eq,
      List.all_eq_true]
    exact ⟨Program.verify_loop verified mem, same.verify⟩
  exec M env reach st := by
    rw [Stmt.execBody_singleton, Stmt.execBody_singleton]
    refine Stmt.exec_loop_congr rfl (fun i memI st => ?_) st
    exact same.exec M _ (reach.enter verified mem memI) st
  loopIds := by
    rw [Stmt.loopIds_loop, Stmt.loopIds_loop]
    exact same.loopIds.cons_cons _

theorem Stmt.SameAs.ifRange {scope : List LoopId} {val : Expr F} {start end_ : Int32}
    {body new : List (Stmt F)} (verified : (Stmt.ifRange val start end_ body).verify p.decls scope = true)
    (same : Stmt.SameAs p scope body new) :
    Stmt.SameAs p scope [.ifRange val start end_ body] [.ifRange val start end_ new] where
  verify := by
    simp only [Stmt.verify, Bool.and_eq_true] at verified
    simp only [List.mem_singleton, forall_eq, Stmt.verify, Bool.and_eq_true, Stmt.verifyBody_eq,
      List.all_eq_true]
    exact ⟨verified.1, same.verify⟩
  exec M env reach st := by
    rw [Stmt.execBody_singleton, Stmt.execBody_singleton, Stmt.exec, Stmt.exec,
      same.exec M env reach]
  loopIds := by
    rw [Stmt.loopIds_ifRange, Stmt.loopIds_ifRange]
    exact same.loopIds

theorem Program.of_sameAs (verified : p.verify = true) {new : List (Stmt F)}
    (same : Stmt.SameAs p [] p.body new) :
    Program.verify { p with body := new } = true ∧
      ∀ (M : Machine F) (st : State F), Program.run M { p with body := new } st = p.run M st := by
  refine ⟨?_, fun M st => same.exec M _ (Program.reachable_start verified) st⟩
  have nodup := (Program.nodup_loopIds verified).sublist same.loopIds
  simp only [Program.verify, Bool.and_eq_true, decide_eq_true_eq, Stmt.verifyBody_eq,
    List.all_eq_true] at verified ⊢
  exact ⟨⟨verified.1.1, same.verify⟩, nodup⟩

/-! ## The steps of a round -/

theorem removeEmptyLoops_sameAs (verified : p.verify = true) :
    Stmt.SameAs p [] p.body (removeEmptyLoops p.body) := by
  refine Stmt.rebuildBody_rel p.decls (Stmt.SameAs p) ?_ ?_ ?_ ?_ ?_
    (Program.verify_body verified)
  · intro scope
    exact Stmt.SameAs.refl (by simp)
  · intro scope body new rest newRest first second
    exact first.append second
  · intro scope s _ verifiedS
    exact Stmt.SameAs.refl (by simpa using verifiedS)
  · intro scope header old new mem verifiedS same
    split
    next empty =>
      have nothing : old = [] := List.isEmpty_iff.mp empty
      subst nothing
      refine ⟨by simp, fun M env _ st => ?_, by simp [Stmt.loopIds, Stmt.collectLoopsBody]⟩
      exact (Schedule.run_id (fun _ _ _ => rfl) st).symm
    next => exact same.loop verified mem
  · intro scope val start end_ old new _ verifiedS same
    exact same.ifRange verifiedS

/-- A guard is decided as the exact range of its value decides it.  The analysis counts the end
of the range of a guard as inside, and the start as outside. -/
def GuardSafe (loops : LoopTable) (val : Expr F) (start end_ : Int32) : Prop :=
  (computeKnownIntegerRange loops none val).isSome ∧
  match guardRelation loops val start end_ with
  | .intersect => True
  | .subset => ∃ range, exactRange loops none val = some range ∧
      start.toInt ≤ range.fst ∧ range.snd < end_.toInt
  -- A guard with an empty range never holds.
  | .disjoint => start = end_ ∨ ∃ range, exactRange loops none val = some range ∧
      (range.snd < start.toInt ∨ end_.toInt ≤ range.fst)

/-- A guard that is decided safely holds always or never. -/
theorem GuardSafe.decided {loops : LoopTable} {val : Expr F} {start end_ : Int32}
    (safe : GuardSafe loops val start end_) (M : Machine F) (st : State F) {env : Env}
    (bounds : loops.Bounds env) :
    (guardRelation loops val start end_ = .subset →
      inRange start end_ (val.eval M st env 0).toInt = true) ∧
    (guardRelation loops val start end_ = .disjoint →
      inRange start end_ (val.eval M st env 0).toInt = false) := by
  have sound : ∀ range, exactRange loops none val = some range →
      range.fst ≤ (val.eval M st env 0).toInt ∧ (val.eval M st env 0).toInt ≤ range.snd := by
    intro range found
    obtain ⟨v, mem, value⟩ : ∃ v ∈ range, val.eval M st env 0 = .idx v :=
      exactRange_sound bounds found
    rw [value]
    exact NonemptyInterval.mem_def.mp mem
  -- The relation that the analysis answers is the one of the exact range, and in this range the
  -- value is.
  constructor
  · intro subset
    simp only [GuardSafe, subset] at safe
    obtain ⟨-, range, found, starts, ends⟩ := safe
    have inside := sound range found
    simp only [inRange, decide_eq_true_eq]
    omega
  · intro disjoint
    simp only [GuardSafe, disjoint] at safe
    simp only [inRange, decide_eq_false_iff_not]
    obtain ⟨-, empty | ⟨range, found, apart⟩⟩ := safe
    · rw [empty]
      omega
    · have inside := sound range found
      omega

theorem simplifyIfs_sameAs (verified : p.verify = true)
    (safe : ∀ guard ∈ p.body.flatMap Stmt.collectIfs,
      GuardSafe p.loopTable guard.1 guard.2.1 guard.2.2) :
    Stmt.SameAs p [] p.body (simplifyIfs p.loopTable p.body) := by
  refine Stmt.rebuildBody_rel p.decls (Stmt.SameAs p) ?_ ?_ ?_ ?_ ?_
    (Program.verify_body verified)
  · intro scope
    exact Stmt.SameAs.refl (by simp)
  · intro scope body new rest newRest first second
    exact first.append second
  · intro scope s _ verifiedS
    exact Stmt.SameAs.refl (by simpa using verifiedS)
  · intro scope header old new mem verifiedS same
    exact same.loop verified mem
  · intro scope val start end_ old new mem verifiedS same
    have decided := fun (M : Machine F) env (reach : p.Reachable env) st =>
      (safe _ mem).decided M st (reach.bounds verified)
    split
    next => exact same.ifRange verifiedS
    -- The guard never holds, so nothing was done.
    next never =>
      refine ⟨by simp, fun M env reach st => ?_, List.nil_sublist _⟩
      rw [Stmt.execBody_nil, Stmt.execBody_singleton, Stmt.exec, (decided M env reach st).2 never]
      rfl
    -- The guard always holds, so the body was done.
    next always =>
      refine ⟨same.verify, fun M env reach st => ?_, ?_⟩
      · rw [Stmt.execBody_singleton, Stmt.exec, (decided M env reach st).1 always, if_pos rfl,
          same.exec M env reach]
      · rw [Stmt.loopIds_ifRange]
        exact same.loopIds

theorem Stmt.SameAs.trip1 (verified : p.verify = true) {scope : List LoopId} {header : Loop}
    {body new : List (Stmt F)} (mem : (header, body) ∈ p.collectLoops)
    (once : header.end_ = header.stride) (same : Stmt.SameAs p (header.id :: scope) body new)
    (scalar : Stmt.ScalarIndex header.id new) :
    Stmt.SameAs p scope [.loop header body] (Stmt.replaceIndex header.id (.const 0) new) where
  verify s' memS := by
    obtain ⟨s, memNew, rfl⟩ := List.mem_map.mp memS
    apply Stmt.verify_replaceIndex rfl (fun _ _ => rfl) _ (scalar s memNew) (same.verify s memNew)
    intro L memL apart
    exact (List.mem_cons.mp memL).resolve_left apart
  exec M env reach st := by
    obtain ⟨-, -, positive, -⟩ := Loop.verify_iff.mp (Program.verify_loop verified mem)
    -- The only iteration is the first one, with the index zero.
    have iterations : header.iterations = [0] := by
      rw [Loop.iterations, once, IterationSpace.strided_self positive]
      rfl
    have first : (0 : Int) ∈ header.iterations := by simp [iterations]
    have unbound : ∀ loop ∈ Stmt.collectLoopsBody new, loop.1.id ≠ header.id := by
      intro loop memLoop here
      have inner := same.loopIds.subset (List.mem_map_of_mem memLoop)
      exact Program.id_not_mem_body verified mem (here ▸ inner)
    rw [Stmt.execBody_singleton, Stmt.exec, iterations, Schedule.run_singleton,
      ← same.exec M _ (reach.enter verified mem first)]
    refine Stmt.execBody_replaceIndex
      (fun env env' => env header.id = 0 ∧ ∀ L, L ≠ header.id → env' L = env L) rfl scalar ?_ ?_ ?_
      ?_ st
    · intro loop memLoop env env' i related
      refine ⟨?_, fun L apart => ?_⟩
      · rw [Function.update_of_ne (unbound loop memLoop).symm]
        exact related.1
      · by_cases bound : L = loop.1.id
        · simp [bound]
        · simpa [bound] using related.2 L apart
    · intro s memS e memRoot index memIndex apart env env' related
      exact related.2 index.1 apart
    · intro st env env' related lane
      rw [related.1]
      rfl
    · exact ⟨by simp, fun L apart => by simp [apart]⟩
  loopIds := by
    rw [Stmt.loopIds_loop, Stmt.replaceIndex, Stmt.loopIds_mapExprs]
    exact same.loopIds.trans (List.sublist_cons_self _ _)

omit [Field F] [LinearOrder F] in
theorem Stmt.ScalarIndex.replaceIndex {L K : LoopId} {body : List (Stmt F)} {val : Int}
    (scalar : Stmt.ScalarIndex L body) :
    Stmt.ScalarIndex L (Stmt.replaceIndex K (.const val) body) := by
  intro s' mem e' memRoot index memIndex
  obtain ⟨s, memBody, rfl⟩ := List.mem_map.mp mem
  rw [Stmt.collectRoots_mapExprs] at memRoot
  obtain ⟨e, memE, rfl⟩ := List.mem_map.mp memRoot
  rw [Expr.replaceIndex, Expr.collectIndices_mapIndex] at memIndex
  obtain ⟨old, memOld, memIndex⟩ := List.mem_flatMap.mp memIndex
  split at memIndex
  · cases memIndex
  · rw [Expr.collectIndices, List.mem_singleton] at memIndex
    subst memIndex
    exact scalar s memBody e memE old memOld

theorem removeTrip1Loops_sameAs (verified : p.verify = true)
    (scalar : ∀ loop ∈ p.collectLoops, loop.1.end_ = loop.1.stride →
      Stmt.ScalarIndex loop.1.id loop.2) :
    Stmt.SameAs p [] p.body (removeTrip1Loops p.body) := by
  refine (Stmt.rebuildBody_rel p.decls (fun scope body new => Stmt.SameAs p scope body new ∧
    ∀ L, Stmt.ScalarIndex L body → Stmt.ScalarIndex L new) ?_ ?_ ?_ ?_ ?_
    (Program.verify_body verified)).1
  · intro scope
    exact ⟨Stmt.SameAs.refl (by simp), fun _ old => old⟩
  · intro scope body new rest newRest first second
    refine ⟨first.1.append second.1, fun L old s mem => ?_⟩
    cases List.mem_append.mp mem with
    | inl left => exact first.2 L (fun s mem => old s (List.mem_append_left _ mem)) s left
    | inr right => exact second.2 L (fun s mem => old s (List.mem_append_right _ mem)) s right
  · intro scope s _ verifiedS
    exact ⟨Stmt.SameAs.refl (by simpa using verifiedS), fun _ old => old⟩
  · intro scope header old new mem verifiedS same
    split
    next once =>
      -- The body has been rebuilt already; it has no vector index that the old body did not have.
      have scalarNew := same.2 header.id (scalar (header, old) mem once)
      refine ⟨same.1.trip1 verified mem once scalarNew, fun L scalarL => ?_⟩
      exact (same.2 L (Stmt.scalarIndex_loop.mp scalarL)).replaceIndex
    next =>
      refine ⟨same.1.loop verified mem, fun L scalarL => ?_⟩
      exact Stmt.scalarIndex_loop.mpr (same.2 L (Stmt.scalarIndex_loop.mp scalarL))
  · intro scope val start end_ old new _ verifiedS same
    refine ⟨same.1.ifRange verifiedS, fun L scalarL => ?_⟩
    rw [Stmt.scalarIndex_ifRange] at scalarL ⊢
    exact ⟨scalarL.1, same.2 L scalarL.2⟩

theorem Expr.SimplifiedList.each {decls : Decls} {scope : List LoopId} {es Ns : List (Expr F)}
    (simplified : Expr.SimplifiedList es Ns) (verified : ∀ e ∈ es, e.verify decls scope = true) :
    List.Forall₂ (Expr.Simplified decls scope) es Ns := by
  induction simplified with
  | nil => exact List.Forall₂.nil
  | cons head _ ih =>
    simp only [List.mem_cons, forall_eq_or_imp] at verified
    exact List.Forall₂.cons (head _ _ verified.1) (ih verified.2)

theorem Expr.Simplified.call {decls : Decls} {scope : List LoopId} {es Ns : List (Expr F)}
    (simplified : List.Forall₂ (Expr.Simplified decls scope) es Ns) :
    (∀ M st env, Ns.map (Expr.lanes M st env) = es.map (Expr.lanes M st env)) ∧
      ((es.all fun e => e.verify decls scope && e.getType.isIndexTy) = true →
        (Ns.all fun e => e.verify decls scope && e.getType.isIndexTy) = true) := by
  induction simplified with
  | nil => simp
  | cons head _ ih =>
    obtain ⟨lanes, verify⟩ := ih
    refine ⟨fun M st env => ?_, fun verified => ?_⟩
    · rw [List.map_cons, List.map_cons, lanes, Expr.lanes_congr head.type (head.eval M st env)]
    · simp only [List.all_cons, Bool.and_eq_true] at verified ⊢
      exact ⟨⟨head.verify, by rw [head.type]; exact verified.1.2⟩, verify verified.2⟩

variable [StdPow]

/-- What simplifying the expressions of a statement keeps, if what is folded is exact. -/
def Stmt.SimplifyExprsSound (decls : Decls) (s : Stmt F) : Prop :=
  ∀ {N : Stmt F} {changed : Bool} {scope : List LoopId}, s.Folds BinOpKind.Exact →
    s.simplifyExprs = some (N, changed) → s.verify decls scope = true →
    N.verify decls scope = true ∧ (∀ M env st, N.exec M env st = s.exec M env st) ∧
      N.collectLoops.map (·.1) = s.collectLoops.map (·.1)

theorem Stmt.simplifyExprsBody_sound_of {decls : Decls} {body : List (Stmt F)}
    (each : ∀ s ∈ body, s.SimplifyExprsSound decls) : ∀ {Ns : List (Stmt F)} {changed : Bool}
    {scope : List LoopId}, Stmt.FoldsBody BinOpKind.Exact body →
    Stmt.simplifyExprsBody body = some (Ns, changed) → (body.all fun s => s.verify decls scope) = true →
    (Ns.all fun s => s.verify decls scope) = true ∧
      (∀ M env st, Stmt.execBody M env Ns st = Stmt.execBody M env body st) ∧
      (Ns.flatMap Stmt.collectLoops).map (·.1) = (body.flatMap Stmt.collectLoops).map (·.1) := by
  induction body with
  | nil =>
    intro Ns changed scope _ result _
    cases result
    simp
  | cons s rest ih =>
    intro Ns changed scope folds result verified
    simp only [List.all_cons, Bool.and_eq_true] at verified
    simp only [Stmt.simplifyExprsBody] at result
    obtain ⟨⟨N, changedS⟩, resultS, result⟩ := Option.bind_eq_some_iff.mp result
    obtain ⟨⟨Ns, changedRest⟩, resultRest, same⟩ := Option.map_eq_some_iff.mp result
    cases same
    obtain ⟨verifyN, execN, loopsN⟩ := each s (by simp) folds.1 resultS verified.1
    obtain ⟨verifyNs, execNs, loopsNs⟩ :=
      ih (fun t mem => each t (List.mem_cons_of_mem s mem)) folds.2 resultRest verified.2
    simp only [List.all_cons, Bool.and_eq_true, List.flatMap_cons, List.map_append,
      Stmt.execBody_cons]
    refine ⟨⟨verifyN, verifyNs⟩, fun M env st => ?_, ?_⟩
    · rw [execN, execNs]
    · rw [loopsN, loopsNs]

theorem Stmt.simplifyExprs_sound {decls : Decls} (s : Stmt F) : s.SimplifyExprsSound decls := by
  induction s using Stmt.inductTree with
  | loop header body ih =>
    intro N changed scope folds result verified
    simp only [Stmt.simplifyExprs] at result
    obtain ⟨⟨Ns, changedBody⟩, resultBody, same⟩ := Option.map_eq_some_iff.mp result
    cases same
    simp only [Stmt.verify, Bool.and_eq_true, Stmt.verifyBody_eq] at verified
    obtain ⟨verifyNs, execNs, loopsNs⟩ := Stmt.simplifyExprsBody_sound_of ih folds resultBody verified.2
    refine ⟨?_, fun M env st => ?_, ?_⟩
    · simp only [Stmt.verify, Bool.and_eq_true, Stmt.verifyBody_eq]
      exact ⟨verified.1, verifyNs⟩
    · exact Stmt.exec_loop_congr rfl (fun i _ st => execNs M _ st) st
    · simp only [Stmt.collectLoops_loop, List.map_cons, loopsNs]
  | ifRange val start end_ body ih =>
    intro N changed scope folds result verified
    simp only [Stmt.simplifyExprs] at result
    obtain ⟨⟨val1, changed1⟩, result1, result⟩ := Option.bind_eq_some_iff.mp result
    obtain ⟨⟨val2, changed2⟩, result2, result⟩ := Option.bind_eq_some_iff.mp result
    obtain ⟨⟨Ns, changedBody⟩, resultBody, same⟩ := Option.map_eq_some_iff.mp result
    cases same
    simp only [Stmt.verify, Bool.and_eq_true, Stmt.verifyBody_eq] at verified
    obtain ⟨verifyNs, execNs, loopsNs⟩ := Stmt.simplifyExprsBody_sound_of ih folds.2 resultBody verified.2
    obtain ⟨-, sound1⟩ := Expr.enterLoads_soundAt val val1 changed1 result1
    have visited := sound1 folds.1.1 decls scope verified.1.2
    have folded := folds.1.2 _ result1
    have sound := visited.trans (Expr.simplifyExpr_simplified folded visited.verify result2)
    refine ⟨?_, fun M env st => ?_, ?_⟩
    · simp only [Stmt.verify, Bool.and_eq_true, Stmt.verifyBody_eq]
      exact ⟨⟨verified.1.1, sound.verify⟩, verifyNs⟩
    · rw [Stmt.exec, Stmt.exec, sound.eval, execNs]
    · simp only [Stmt.collectLoops_ifRange, loopsNs]
  | call name params =>
    intro N changed scope folds result verified
    simp only [Stmt.simplifyExprs] at result
    obtain ⟨⟨Ns, changedNs⟩, resultNs, same⟩ := Option.map_eq_some_iff.mp result
    cases same
    obtain ⟨-, sound⟩ :=
      Expr.enterLoadsList_soundAt (fun e _ => Expr.enterLoads_soundAt e) Ns changedNs resultNs
    have each : ∀ e ∈ params, e.verify decls scope = true := by
      simp only [Stmt.verify, List.all_eq_true, Bool.and_eq_true] at verified
      exact fun e mem => (verified e mem).1
    obtain ⟨lanes, verify⟩ := Expr.Simplified.call ((sound folds).each each)
    refine ⟨verify verified, fun M env st => ?_, rfl⟩
    rw [Stmt.exec, Stmt.exec, lanes]
  | store arg indices value accumulate =>
    intro N changed scope folds result verified
    simp only [Stmt.simplifyExprs] at result
    obtain ⟨⟨Ns, changedNs⟩, resultNs, result⟩ := Option.bind_eq_some_iff.mp result
    obtain ⟨⟨value', changedV⟩, resultV, same⟩ := Option.map_eq_some_iff.mp result
    cases same
    have process := fun e : Expr F => Expr.process_soundAt fun N (_ : N.size ≤ e.size) =>
      Expr.enterLoads_soundAt N
    obtain ⟨-, sound⟩ := Expr.processList_soundAt (fun e _ => process e) Ns changedNs resultNs
    have subscripts := sound folds.1
    obtain ⟨-, soundV⟩ := process value value' changedV resultV
    simp only [Stmt.verify, Bool.and_eq_true] at verified
    have each : ∀ e ∈ indices, e.verify decls scope = true := by
      simp only [Expr.verifyIndices_eq, List.all_eq_true, Bool.and_eq_true] at verified
      exact fun e mem => (verified.1.1 e mem).1
    have valueSound := soundV folds.2 decls scope verified.2
    refine ⟨?_, fun M env st => ?_, rfl⟩
    · simp only [Stmt.verify, Bool.and_eq_true]
      refine ⟨⟨subscripts.verify verified.1.1, ?_⟩, valueSound.verify⟩
      rw [← subscripts.length_eq, valueSound.type]
      exact verified.1.2
    · rw [Stmt.exec, Stmt.exec, subscripts.subscripts each, valueSound.type, valueSound.eval]
  | storeLocal var value accumulate =>
    intro N changed scope folds result verified
    simp only [Stmt.simplifyExprs] at result
    obtain ⟨⟨value', changedV⟩, resultV, same⟩ := Option.map_eq_some_iff.mp result
    cases same
    obtain ⟨-, soundV⟩ := Expr.process_soundAt (fun N (_ : N.size ≤ value.size) =>
      Expr.enterLoads_soundAt N) value' changedV resultV
    simp only [Stmt.verify, Bool.and_eq_true] at verified
    have valueSound := soundV folds decls scope verified.2
    refine ⟨?_, fun M env st => ?_, rfl⟩
    · simp only [Stmt.verify, Bool.and_eq_true]
      exact ⟨by rw [valueSound.type]; exact verified.1, valueSound.verify⟩
    · rw [Stmt.exec, Stmt.exec, valueSound.type, valueSound.eval]

theorem Stmt.simplifyExprsBody_sound {decls : Decls} {scope : List LoopId}
    {body Ns : List (Stmt F)} {changed : Bool}
    (folds : Stmt.FoldsBody BinOpKind.Exact body)
    (result : Stmt.simplifyExprsBody body = some (Ns, changed))
    (verified : (body.all fun s => s.verify decls scope) = true) :
    (Ns.all fun s => s.verify decls scope) = true ∧
      (∀ M env st, Stmt.execBody M env Ns st = Stmt.execBody M env body st) ∧
      (Ns.flatMap Stmt.collectLoops).map (·.1) = (body.flatMap Stmt.collectLoops).map (·.1) :=
  Stmt.simplifyExprsBody_sound_of (fun s _ => s.simplifyExprs_sound) folds result verified

end SameAs

end Bistra
