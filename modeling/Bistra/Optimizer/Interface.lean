import Bistra.Optimizer.SearchRuns

/-! # The interface of an optimized program

The optimizer changes the body of a program, and may add local variables.  Its arguments stay as they
are, since the code around the program passes them by their positions.
-/

namespace Bistra

open SearchM
open Words

variable {F : Type}

/-- The program `q` can be used in the place of `p`: it has the same arguments, and behind the variables
of `p` maybe others with names of their own. -/
structure Program.SameInterface (p q : Program F) : Prop where
  args : q.args = p.args
  vars : p.vars <+: q.vars
  distinct : (p.vars.map (·.name)).Nodup → (q.vars.map (·.name)).Nodup

theorem Program.SameInterface.refl (p : Program F) : p.SameInterface p :=
  ⟨rfl, List.prefix_rfl, id⟩

theorem Program.SameInterface.trans {p q r : Program F} (first : p.SameInterface q)
    (second : q.SameInterface r) : p.SameInterface r :=
  ⟨second.args.trans first.args, first.vars.trans second.vars, second.distinct ∘ first.distinct⟩

theorem Program.SameInterface.of_decls {p q : Program F} (same : q.decls = p.decls) :
    p.SameInterface q := by
  have args : q.args = p.args := congrArg Decls.args same
  have vars : q.vars = p.vars := congrArg Decls.vars same
  exact ⟨args, by rw [vars], by rw [vars]; exact id⟩

/-! ## The changes -/

section Changes

variable {p q : Program F} {L : LoopId}

theorem Program.decls_clone (cloned : p.clone = some q) : q.decls = p.decls := by
  rw [Program.clone, Option.ite_none_right_eq_some] at cloned
  obtain ⟨body, -, rfl⟩ := Option.map_eq_some_iff.mp cloned.2
  rfl

theorem decls_edit (p : Program F) (L : LoopId) (f : Cursor F → Cursor F × Bool) :
    (p.edit L f).1.decls = p.decls := by
  rw [Program.edit]
  split <;> rfl

theorem decls_tile {blockSize : UInt32} {made : Program F × Option LoopId}
    (tiled : tile p L blockSize = some made) : made.1.decls = p.decls := by
  rw [tile] at tiled
  split at tiled
  · cases tiled
  · split_ifs at tiled <;> cases tiled <;> rfl

theorem decls_peelLoop {k : Int32} {made : Program F × Option LoopId}
    (peeled : peelLoop p L k = some made) : made.1.decls = p.decls := by
  rw [peelLoop] at peeled
  split at peeled
  · cases peeled
  · split at peeled
    · cases peeled
      rfl
    · split_ifs at peeled <;> cases peeled <;> rfl

theorem decls_peeled {o : Option (Program F × Option LoopId)}
    {f : Loop → List (Stmt F) → List (Stmt F)} {made : Program F × Option LoopId}
    (peeled : ∀ first, o = some first → first.1.decls = p.decls)
    (changed : o.map (fun first => (first.1.substLoop L f, first.2)) = some made) :
    made.1.decls = p.decls := by
  obtain ⟨first, found, rfl⟩ := Option.map_eq_some_iff.mp changed
  exact peeled first found

theorem decls_widen {wf : UInt32} {made : Program F × Option LoopId}
    (widened : widen p L wf = some made) : made.1.decls = p.decls := by
  rw [widen] at widened
  split at widened
  · cases widened
  · dsimp only at widened
    split_ifs at widened
    iterate 3 cases widened; rfl
    · exact decls_peeled (fun _ => decls_peelLoop) widened
    · cases widened
      rfl

theorem decls_vectorize {vf : VecWidth} {made : Program F × Option LoopId}
    (vectorized : vectorize p L vf = some made) : made.1.decls = p.decls := by
  rw [vectorize] at vectorized
  split at vectorized
  · cases vectorized
  · dsimp only at vectorized
    split_ifs at vectorized
    iterate 4 cases vectorized; rfl
    · exact decls_peeled (fun _ => decls_peelLoop) vectorized
    · cases vectorized
      rfl

theorem decls_fuse (p : Program F) (L : LoopId) (levels : UInt32) :
    (fuse p L levels).1.decls = p.decls := by
  rw [fuse]
  split <;> rfl

theorem decls_distributeLoops (distributed : distributeLoops p = some q) : q.decls = p.decls := by
  have spec : ∀ {fuel : Nat} {body : List (Stmt F)} {changed changed' : Bool} {q : Program F},
      distributeAllLoops p .program fuel body changed = some (.finished q changed') →
        q.decls = p.decls := by
    intro fuel
    induction fuel with
    | zero => exact nofun
    | succ fuel ih =>
      intro body changed changed' q finished
      simp only [distributeAllLoops] at finished
      split_ifs at finished with verified
      obtain ⟨found, -, finished⟩ := Option.bind_eq_some_iff.mp finished
      cases found with
      | none =>
        cases finished
        rfl
      | some pieces => exact ih (by simpa [ScopeAt.own] using finished)
  rw [distributeLoops] at distributed
  split at distributed
  next finished =>
    cases distributed
    exact spec finished
  next => cases distributed

section Rewriting

variable [Field F] [LinearOrder F]

theorem decls_simplifyRound {changed : Bool} (round : p.simplifyRound = some (q, changed)) :
    q.decls = p.decls := by
  obtain ⟨⟨folded, first⟩, -, round⟩ := Option.bind_eq_some_iff.mp round
  dsimp only at round
  split_ifs at round
  cases round
  rfl

theorem decls_simplify (simplified : simplify p = some q) : q.decls = p.decls := by
  have rounds : ∀ {n : Nat} {p q : Program F}, p.simplifyRounds n = some q → q.decls = p.decls := by
    intro n
    induction n with
    | zero => exact nofun
    | succ n ih =>
      intro p q rounds
      obtain ⟨⟨r, changed⟩, round, rounds⟩ := Option.bind_eq_some_iff.mp rounds
      cases changed with
      | false =>
        cases rounds
        exact decls_simplifyRound round
      | true => exact (ih rounds).trans (decls_simplifyRound round)
  exact rounds simplified

omit [Field F] [LinearOrder F] in
theorem decls_scanLoops {ids : List LoopId} (scanned : p.scanLoops ids = .fused q) :
    q.decls = p.decls := by
  induction ids generalizing p with
  | nil => cases scanned
  | cons L rest ih =>
    rw [Program.scanLoops] at scanned
    split at scanned
    · cases scanned
    · split_ifs at scanned
      · have kept := decls_fuse p L 8
        split at scanned
        next => cases scanned
        next found =>
          cases scanned
          rwa [found] at kept
        next found =>
          rw [found] at kept
          exact (ih scanned).trans kept
      · exact ih scanned

theorem decls_tryToFuse {fuel : Nat} {changed : Bool} {made : Program F × Bool × Bool}
    (fused : tryToFuse fuel p changed = some made) : made.1.decls = p.decls := by
  induction fuel generalizing p changed with
  | zero => cases fused
  | succ fuel ih =>
    rw [tryToFuse] at fused
    split at fused
    · cases fused
      rfl
    · cases fused
      rfl
    · cases fused
    next found =>
      obtain ⟨r, simplified, fused⟩ := Option.bind_eq_some_iff.mp fused
      exact (ih fused).trans ((decls_simplify simplified).trans (decls_scanLoops found))

end Rewriting

/-! ## Several changes -/

theorem decls_vectorizeAll {VF : VecWidth} {made : Program F × Bool}
    (vectorized : tryToVectorizeAllLoops p VF = some made) : made.1.decls = p.decls := by
  refine changeAll_related (R := fun p q : Program F => q.decls = p.decls) (fun _ => rfl)
    (fun first second => second.trans first) ?_ vectorized
  intro l p made changed
  obtain ⟨one, vectorized, rfl⟩ := Option.map_eq_some_iff.mp changed
  exact decls_vectorize vectorized

theorem decls_sinkLoops {made : Program F × Bool}
    (sunk : sinkLoopsForConsecutiveIndexAccess p = some made) : made.1.decls = p.decls := by
  refine changeAll_related (R := fun p q : Program F => q.decls = p.decls) (fun _ => rfl)
    (fun first second => second.trans first) ?_ sunk
  intro l p made changed
  obtain ⟨loop, -, changed⟩ := Option.bind_eq_some_iff.mp changed
  obtain ⟨loopToSink, -, changed⟩ := Option.bind_eq_some_iff.mp changed
  cases loopToSink with
  | none =>
    cases changed
    rfl
  | some L =>
    dsimp only at changed
    split_ifs at changed
    cases changed
    exact decls_edit p L _

theorem decls_tileForLocality {made : Program F × Bool}
    (tiled : tryToTileForLocality p = some made) : made.1.decls = p.decls := by
  refine changeAll_related (R := fun p q : Program F => q.decls = p.decls) (fun _ => rfl)
    (fun first second => second.trans first) ?_ tiled
  intro inner p made changed
  rw [tileForLoop] at changed
  split at changed
  · cases changed
    rfl
  · obtain ⟨skips, -, changed⟩ := Option.bind_eq_some_iff.mp changed
    cases skips with
    | true =>
      cases changed
      rfl
    | false =>
      obtain ⟨t1, first, changed⟩ := Option.bind_eq_some_iff.mp changed
      obtain ⟨t2, second, rfl⟩ := Option.map_eq_some_iff.mp changed
      have both := (decls_tile second).trans (decls_tile first)
      split_ifs
      · exact both
      · exact (decls_edit t2.1 inner _).trans both

theorem decls_tileEach {np : Program F} {hierarchy : List LoopId} {sizes : List UInt32}
    {made : Program F × Bool} (tiled : tileEach p hierarchy sizes np = some made) :
    made.1.decls = np.decls := by
  refine changeAll_related (R := fun p q : Program F => q.decls = p.decls) (fun _ => rfl)
    (fun first second => second.trans first) ?_ tiled
  intro choice np made changed
  obtain ⟨loop, -, changed⟩ := Option.bind_eq_some_iff.mp changed
  obtain ⟨ts, -, changed⟩ := Option.bind_eq_some_iff.mp changed
  split_ifs at changed
  · cases changed
    rfl
  · obtain ⟨one, tiled, rfl⟩ := Option.map_eq_some_iff.mp changed
    split_ifs
    · exact decls_tile tiled
    · exact (decls_edit one.1 _ _).trans (decls_tile tiled)

theorem decls_widenEach {np : Program F} {hierarchy : List LoopId} {ws : List UInt32}
    {made : Program F × Bool} (widened : widenEach p hierarchy ws np = some made) :
    made.1.decls = np.decls := by
  refine changeAll_related (R := fun p q : Program F => q.decls = p.decls) (fun _ => rfl)
    (fun first second => second.trans first) ?_ widened
  intro choice np made changed
  obtain ⟨one, widened, rfl⟩ := Option.map_eq_some_iff.mp changed
  exact decls_widen widened

theorem sameInterface_promote [Zero F] (promoted : promote p = some q) : p.SameInterface q := by
  obtain ⟨⟨changed, _⟩, ran, rfl⟩ := Option.map_eq_some_iff.mp promoted
  have added := addsTemps_promoteLICM p changed _ ran
  exact ⟨added.args, added.vars, added.distinct⟩

end Changes

/-! ## The passes -/

section Passes

variable {backend : Backend F} {p q : Program F}

theorem ClonePassed.sameInterface {change : Program F → Option (Program F)}
    (each : ∀ {np q}, change np = some q → np.SameInterface q) (passed : ClonePassed change p q) :
    p.SameInterface q := by
  obtain ⟨np, cloned, changed⟩ := passed
  exact (Program.SameInterface.of_decls (Program.decls_clone cloned)).trans (each changed)

theorem BothPassed.sameInterface {change : Program F → Option (Program F × Bool)}
    (each : ∀ {np made}, change np = some made → made.1.decls = np.decls)
    (passed : BothPassed change p q) : p.SameInterface q := by
  obtain ⟨np, cloned, changed⟩ | rfl := passed
  · exact .of_decls ((each changed).trans (Program.decls_clone cloned))
  · exact .refl q

theorem Tried.sameInterface {skips : Option Bool} {numTries : Nat}
    {attempt : Nat → Bool → Option (Attempt (Program F))}
    (each : ∀ {id made}, attempt id false = some made → made.variant.decls = p.decls)
    (tried : Tried skips numTries attempt q) : p.SameInterface q := by
  obtain ⟨-, id, -, ⟨made, found, -, rfl⟩, -⟩ := tried
  exact .of_decls (each found)

theorem TilerPass.Variant.sameInterface (variant : TilerPass.Variant p q) : p.SameInterface q := by
  obtain rfl | ⟨inner, -, tried⟩ := variant
  · exact .refl q
  · refine tried.sameInterface fun {id made} found => ?_
    rw [attempt_eq] at found
    obtain ⟨np, cloned, found⟩ := Option.bind_eq_some_iff.mp found
    obtain ⟨tiled, tiles, rfl⟩ := Option.map_eq_some_iff.mp found
    exact (decls_tileEach tiles).trans (Program.decls_clone cloned)

theorem WidnerPass.Variant.sameInterface (variant : WidnerPass.Variant backend p q) :
    p.SameInterface q := by
  obtain ⟨inner, -, tried⟩ | rfl := variant
  · refine tried.sameInterface fun {id made} found => ?_
    rw [attempt_eq] at found
    obtain ⟨np, cloned, found⟩ := Option.bind_eq_some_iff.mp found
    obtain ⟨widened, widens, rfl⟩ := Option.map_eq_some_iff.mp found
    exact (decls_widenEach widens).trans (Program.decls_clone cloned)
  · exact .refl q

variable [Field F] [LinearOrder F]

/-- Every program that reaches the evaluator can be used in the place of the original one. -/
theorem Candidate.sameInterface (candidate : Candidate backend p q) : p.SameInterface q := by
  obtain ⟨_, distributed, _, sunk, _, tiled, _, fused, _, vectorized, _, widened, _, promoted, -, rfl⟩ :=
    candidate
  have first := distributed.sameInterface fun {np q} changed => by
    obtain ⟨r, distributes, simplifies⟩ := Option.bind_eq_some_iff.mp changed
    exact .of_decls ((decls_simplify simplifies).trans (decls_distributeLoops distributes))
  have fourth := fused.sameInterface fun {np made} changed => by
    obtain ⟨r, fuses, rfl⟩ := Option.map_eq_some_iff.mp changed
    exact decls_tryToFuse fuses
  have last := promoted.sameInterface fun {np q} changed => by
    obtain ⟨r, simplifies, promotes⟩ := Option.bind_eq_some_iff.mp changed
    exact (Program.SameInterface.of_decls (decls_simplify simplifies)).trans
      (sameInterface_promote promotes)
  exact first.trans <| (sunk.sameInterface decls_sinkLoops).trans <| tiled.sameInterface.trans <|
    fourth.trans <| (vectorized.sameInterface decls_vectorizeAll).trans <|
    widened.sameInterface.trans last

/-- What the optimizer returns, from the search or from the heuristics alone, can be used in the place of
the program that it has been given. -/
theorem optimize_sameInterface (fpWord : F → UInt64) (backend : Backend F) (p best : Program F) :
    (∀ ev, optimizeEvaluate fpWord backend p = some ev → ev.bestProgram = some best →
      p.SameInterface best) ∧
    (optimizeStatic backend p = some best → p.SameInterface best) := by
  constructor
  · intro ev returned found
    obtain ⟨outs, spec, knows⟩ := knows_of_optimizeEvaluate returned
    have remembers := knows.best
    cases fast : fastest ev.evaluated with
    | none =>
      rw [fast] at remembers
      cases remembers.2.symm.trans found
    | some run =>
      rw [fast] at remembers
      have mem := List.mem_of_mem_filter (List.argmin_mem fast)
      have candidate := (spec _).mp (knows.among run mem).1
      exact candidate.sameInterface.trans
        (.of_decls (Program.decls_clone (remembers.2.2.symm.trans found)))
  · intro returned
    simp only [optimizeStatic, Option.bind_eq_bind, Option.bind_eq_some_iff] at returned
    obtain ⟨np, cloned, distributed, distributes, simplified, simplifies, ⟨sunk, _⟩, sinks,
      ⟨fused, _, _⟩, fuses, ⟨vectorized, _⟩, vectorizes, ⟨tiled, _⟩, tiles, cleaned, cleans, promoted,
      promotes, last⟩ := returned
    -- Everything up to the promotion leaves the declarations as they are.
    have before : cleaned.decls = p.decls :=
      calc cleaned.decls = tiled.decls := decls_simplify cleans
        _ = vectorized.decls := decls_tileForLocality tiles
        _ = fused.decls := decls_vectorizeAll vectorizes
        _ = sunk.decls := decls_tryToFuse fuses
        _ = simplified.decls := decls_sinkLoops sinks
        _ = distributed.decls := decls_simplify simplifies
        _ = np.decls := decls_distributeLoops distributes
        _ = p.decls := Program.decls_clone cloned
    exact (Program.SameInterface.of_decls before).trans <|
      (sameInterface_promote promotes).trans (.of_decls (decls_simplify last))

end Passes

/-- The search and the heuristics on `fill`. -/
theorem optimize_sameInterface_fill : ∃ ev found best,
    optimizeEvaluate (fun _ => 0) loopCounter fill = some ev ∧ ev.bestProgram = some found ∧
      fill.SameInterface found ∧ optimizeStatic loopCounter fill = some best ∧
        fill.SameInterface best := by
  have searches : ((optimizeEvaluate (fun _ => 0) loopCounter fill).bind
      EvaluatorPass.bestProgram).isSome = true := by decide_cbv
  have returns : (optimizeStatic loopCounter fill).isSome = true := by decide_cbv
  obtain ⟨found, searched⟩ := Option.isSome_iff_exists.mp searches
  obtain ⟨ev, searched, program⟩ := Option.bind_eq_some_iff.mp searched
  obtain ⟨best, returned⟩ := Option.isSome_iff_exists.mp returns
  exact ⟨ev, found, best, searched, program,
    (optimize_sameInterface _ _ fill found).1 ev searched program, returned,
    (optimize_sameInterface (fun _ => 0) _ fill best).2 returned⟩

end Bistra
