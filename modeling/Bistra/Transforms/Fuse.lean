import Bistra.Transforms.Dependence
import Bistra.Transforms.Interchange

/-! # Loop fusion

`fuse` of `Transforms.cpp`: a loop takes the content of the loop after it, and then the loops of the
merged body are fused in the same way.  The argument `levels` is passed on, one smaller, but nothing
looks at it.
-/

namespace Bistra

variable {F : Type}

/-! ## The tests -/

/-- `VarUsageCollector::varsRead_`. -/
def Stmt.varsReadAll (body : List (Stmt F)) : List VarId :=
  (Stmt.collectStmtsBody body).flatMap Stmt.varsRead

/-- `VarUsageCollector::varsWrite_`. -/
def Stmt.varsWriteAll (body : List (Stmt F)) : List VarId :=
  (Stmt.collectStmtsBody body).flatMap Stmt.varsWrite

/-- `StorageUsageCollector::argsRead_`. -/
def Stmt.argsReadAll (body : List (Stmt F)) : List (Access F) :=
  (Stmt.collectStmtsBody body).flatMap Stmt.loads

/-- `StorageUsageCollector::argsWrite_`. -/
def Stmt.argsWriteAll (body : List (Stmt F)) : List (Access F) :=
  (Stmt.collectStmtsBody body).flatMap Stmt.stores

def doSetsIntersect (a b : List VarId) : Bool := a.any (b.contains ·)

/-- The pairs of accesses that are tested, a store first, with the loops that they are in. -/
def accessPairs (L L2 : LoopId) (body body2 : List (Stmt F)) :
    List (LoopId × LoopId × Access F × Access F) :=
  ((Stmt.argsWriteAll body).flatMap fun ss1 =>
    (Stmt.argsWriteAll body2 ++ Stmt.argsReadAll body2).map fun ss2 => (L, L2, ss1, ss2)) ++
  (Stmt.argsReadAll body).flatMap fun ss1 =>
    (Stmt.argsWriteAll body2).map fun ss2 => (L2, L, ss2, ss1)

/-- No pair is a dependence; `none` is a failed assertion.  The sets of the collectors are ordered
by address, here the order is that of the program. -/
def independentPairs (loops : LoopTable) :
    List (LoopId × LoopId × Access F × Access F) → Option Bool
  | [] => some true
  | (I1, I2, W1, R2) :: rest =>
    (depends loops I1 I2 W1 R2).bind fun kind =>
      if kind = .someDep then some false else independentPairs loops rest

/-- The tests that `fuse` makes of two loops. -/
def mayFuse (loops : LoopTable) (header header2 : Loop) (body body2 : List (Stmt F)) :
    Option Bool :=
  -- Loop range and stride must be identical.
  if header.end_ ≠ header2.end_ ∨ header.stride ≠ header2.stride then some false
  else if doSetsIntersect (Stmt.varsWriteAll body) (Stmt.varsWriteAll body2) ||
      doSetsIntersect (Stmt.varsWriteAll body) (Stmt.varsReadAll body2) ||
      doSetsIntersect (Stmt.varsReadAll body) (Stmt.varsWriteAll body2) then some false
  else independentPairs loops (accessPairs header.id header2.id body body2)

/-- The tests on a loop and the statements after it, the first of which has to be a loop. -/
def mayFuseNext (loops : LoopTable) (header : Loop) (body : List (Stmt F)) :
    List (Stmt F) → Option Bool
  | .loop header2 body2 :: _ => mayFuse loops header header2 body body2
  | _ => some false

/-! ## The transformation -/

/-- The body of a loop that has taken the content of the loop after it. -/
def mergeNext (header : Loop) (body : List (Stmt F)) : List (Stmt F) → List (Stmt F)
  | .loop header2 body2 :: _ =>
    body ++ Stmt.replaceIndex header2.id (Expr.indexOf header.id) body2
  | _ => body

/-- The loop over the merged body: the first child loop that fuses ends it.  The flag tells of a
failed assertion. -/
def fuseChildren (fuse : Loop → List (Stmt F) → List (Stmt F) → List (Stmt F) × Option Bool) :
    List (Stmt F) → List (Stmt F) × Bool
  | [] => ([], false)
  | .loop header body :: rest =>
    match fuse header body rest with
    | (_, some false) =>
      let later := fuseChildren fuse rest
      (.loop header body :: later.1, later.2)
    | (fused, some true) => (fused, false)
    | (reached, none) => (reached, true)
  | s :: rest =>
    let later := fuseChildren fuse rest
    (s :: later.1, later.2)

/-- `fuse` on a loop and the statements after it.  The result is what takes their place, and
`none` when an assertion has failed there; `fuel` bounds the loops that are left. -/
def fuseAt (loops : LoopTable) : Nat → UInt32 → Loop → List (Stmt F) → List (Stmt F) →
    List (Stmt F) × Option Bool
  | 0, _, header, body, rest => (.loop header body :: rest, some false)
  | fuel + 1, levels, header, body, rest =>
    match mayFuseNext loops header body rest with
    | some true =>
      let merged := fuseChildren (fuseAt loops fuel (levels - 1)) (mergeNext header body rest)
      (.loop header merged.1 :: rest.tail, if merged.2 then none else some true)
    | verdict => (.loop header body :: rest, verdict)

/-- The statements after the loop in its parent. -/
def Cursor.followers (c : Cursor F) : List (Stmt F) :=
  match c.place.path with
  | [] => c.place.after
  | parent :: _ => parent.after

/-- The place of the loop and the statements after it. -/
def Cursor.upToEnd (c : Cursor F) : Place F :=
  match c.place.path with
  | [] => { c.place with after := [] }
  | parent :: path => { c.place with path := { parent with after := [] } :: path }

def fuse (p : Program F) (L : LoopId) (levels : UInt32) : Program F × Option Bool :=
  match p.locate L with
  | some c =>
    let here := fuseAt p.loopTable (Stmt.loopIds p.body).length levels c.header c.body c.followers
    ({ p with body := c.upToEnd.fill here.1 }, here.2)
  | none => (p, some false)

theorem Cursor.content_upToEnd (c : Cursor F) :
    c.upToEnd.fill (.loop c.header c.body :: c.followers) = c.content := by
  obtain ⟨⟨path, before, after⟩, header, body⟩ := c
  cases path with
  | nil => simp [Cursor.upToEnd, Cursor.followers, Cursor.content, Place.fill]
  | cons parent path =>
    simp [Cursor.upToEnd, Cursor.followers, Cursor.content, Place.fill, OpenScope.attach]

/-! ## How many pairs are merged -/

/-- The first child loop of a merged body that passes the tests, if it satisfies the predicate. -/
def firstFusable (loops : LoopTable)
    (holds : Loop → List (Stmt F) → List (Stmt F) → Bool) : List (Stmt F) → Bool
  | [] => false
  | .loop header body :: rest =>
    match mayFuseNext loops header body rest with
    | some true => holds header body rest
    | some false => firstFusable loops holds rest
    | none => false
  | _ :: rest => firstFusable loops holds rest

/-- Pairs of loops on `n` nesting levels pass the tests: the loop and the one after it, then the
first such pair of the merged body, and so on. -/
def nestedPairs (loops : LoopTable) : Nat → Loop → List (Stmt F) → List (Stmt F) → Bool
  | 0, _, _, _ => true
  | n + 1, header, body, rest =>
    decide (mayFuseNext loops header body rest = some true) &&
      (decide (n = 0) || firstFusable loops (nestedPairs loops n) (mergeNext header body rest))

def numLoops (body : List (Stmt F)) : Nat := (Stmt.loopIds body).length

@[simp] theorem numLoops_loop (header : Loop) (body rest : List (Stmt F)) :
    numLoops (.loop header body :: rest) = numLoops body + 1 + numLoops rest := by
  rw [numLoops, Stmt.loopIds_cons, Stmt.ids_loop, List.length_append, List.length_cons]
  rfl

theorem numLoops_cons (s : Stmt F) (rest : List (Stmt F)) :
    numLoops (s :: rest) = s.collectLoops.length + numLoops rest := by
  rw [numLoops, Stmt.loopIds_cons, List.length_append, List.length_map]
  rfl

theorem numLoops_mergeNext {loops : LoopTable} {header : Loop} {body rest : List (Stmt F)}
    (fusable : mayFuseNext loops header body rest = some true) :
    numLoops body + numLoops rest = numLoops (mergeNext header body rest) + 1 +
      numLoops rest.tail := by
  match rest with
  | .loop header2 body2 :: rest =>
    have replaced : numLoops (Stmt.replaceIndex header2.id (Expr.indexOf header.id) body2) =
        numLoops body2 := by
      rw [numLoops, Stmt.replaceIndex, Stmt.loopIds_mapExprs]
      rfl
    have merged : numLoops (body ++ Stmt.replaceIndex header2.id (Expr.indexOf header.id) body2) =
        numLoops body + numLoops body2 := by
      rw [← replaced, numLoops, Stmt.loopIds_append, List.length_append]
      rfl
    rw [numLoops_loop, mergeNext, List.tail_cons, merged]
    omega

theorem fuseAt_stop {loops : LoopTable} {fuel : Nat} {levels : UInt32} {header : Loop}
    {body rest : List (Stmt F)} (stop : mayFuseNext loops header body rest ≠ some true) :
    fuseAt loops (fuel + 1) levels header body rest =
      (.loop header body :: rest, mayFuseNext loops header body rest) := by
  rw [fuseAt]
  split
  next fusable => exact (stop fusable).elim
  next verdict _ => rfl

theorem fuseAt_fusable {loops : LoopTable} {header : Loop} {body rest : List (Stmt F)}
    (fusable : mayFuseNext loops header body rest = some true) (fuel : Nat) (levels : UInt32) :
    ∃ verdict, verdict ≠ some false ∧ fuseAt loops (fuel + 1) levels header body rest =
      (.loop header (fuseChildren (fuseAt loops fuel (levels - 1))
        (mergeNext header body rest)).1 :: rest.tail, verdict) := by
  rw [fuseAt, fusable]
  refine ⟨_, ?_, rfl⟩
  split <;> simp

/-- What the loop over a merged body does, when `fuseAt` merges as many pairs as pass the tests. -/
theorem numLoops_fuseChildren {loops : LoopTable} {fuel : Nat} {levels : UInt32}
    (each : ∀ (n : Nat) (header : Loop) (body rest : List (Stmt F)),
      numLoops (.loop header body :: rest) ≤ fuel →
      (numLoops (fuseAt loops fuel levels header body rest).1 + n ≤
          numLoops (.loop header body :: rest) ↔
        nestedPairs loops n header body rest = true)) (n : Nat) :
    ∀ {body : List (Stmt F)}, numLoops body ≤ fuel →
      (numLoops (fuseChildren (fuseAt loops fuel levels) body).1 + n ≤ numLoops body ↔
        n = 0 ∨ firstFusable loops (nestedPairs loops n) body = true) := by
  intro body
  -- The induction is on what is left of the merged body; `n` pairs are merged in one of its loops.
  induction body with
  | nil => simp [fuseChildren, firstFusable, numLoops]
  | cons s rest ih =>
    intro few
    have later := ih (by rw [numLoops_cons] at few; omega)
    have skip : ∀ {first : List (Stmt F) × Bool}, first =
          (s :: (fuseChildren (fuseAt loops fuel levels) rest).1,
            (fuseChildren (fuseAt loops fuel levels) rest).2) →
        (numLoops first.1 + n ≤ numLoops (s :: rest) ↔
          n = 0 ∨ firstFusable loops (nestedPairs loops n) rest = true) := by
      rintro first rfl
      rw [numLoops_cons, numLoops_cons, ← later]
      omega
    cases s with
    | loop header body =>
      have here := each n header body rest few
      obtain ⟨fuel, rfl⟩ : ∃ less, fuel = less + 1 :=
        Nat.exists_eq_succ_of_ne_zero (by rw [numLoops_loop] at few; omega)
      simp only [firstFusable]
      cases verdict : mayFuseNext loops header body rest with
      | none =>
        rw [fuseChildren, fuseAt_stop (by rw [verdict]; exact nofun), verdict]
        simp
      | some fusable =>
        cases fusable with
        | false =>
          apply skip
          rw [fuseChildren, fuseAt_stop (by rw [verdict]; exact nofun), verdict]
        | true =>
          obtain ⟨answer, fused, ran⟩ := fuseAt_fusable verdict fuel levels
          -- The loop passes the tests, so the search ends here whatever `fuseAt` answers.
          have whole : (n = 0 ∨ nestedPairs loops n header body rest = true) ↔
              nestedPairs loops n header body rest = true := by
            cases n with
            | zero => simp [nestedPairs]
            | succ n => simp
          rw [ran] at here
          rw [fuseChildren, ran]
          match answer with
          | none => exact here.trans whole.symm
          | some true => exact here.trans whole.symm
          | some false => exact (fused rfl).elim
    | ifRange | call | store | storeLocal => exact skip rfl

/-- **Levels.**  `fuse` merges at least `n` pairs of loops exactly when pairs on `n` nesting levels
pass the tests, whatever `levels` says. -/
theorem numLoops_fuseAt {loops : LoopTable} {fuel : Nat} : ∀ {levels : UInt32} (n : Nat)
    (header : Loop) (body rest : List (Stmt F)), numLoops (.loop header body :: rest) ≤ fuel →
    (numLoops (fuseAt loops fuel levels header body rest).1 + n ≤
        numLoops (.loop header body :: rest) ↔
      nestedPairs loops n header body rest = true) := by
  induction fuel with
  | zero =>
    intro levels n header body rest few
    rw [numLoops_loop] at few
    omega
  | succ fuel ih =>
    intro levels n header body rest few
    -- The loop and the one behind it pass the tests, or nothing is merged.
    by_cases fusable : mayFuseNext loops header body rest = some true
    · obtain ⟨answer, -, ran⟩ := fuseAt_fusable fusable fuel levels
      have merged := numLoops_mergeNext fusable
      have children : ∀ n, _ := fun n => @numLoops_fuseChildren _ loops fuel (levels - 1) ih n
        (mergeNext header body rest) (by rw [numLoops_loop] at few; omega)
      rw [ran, numLoops_loop, numLoops_loop]
      -- The pair itself is merged, so there is one loop less at least.
      cases n with
      | zero =>
        have less := (children 0).mpr (.inl rfl)
        simp only [nestedPairs, iff_true]
        omega
      | succ n =>
        have inner := children n
        simp only [nestedPairs, fusable, decide_true, Bool.true_and, Bool.or_eq_true,
          decide_eq_true_eq, ← inner]
        omega
    · rw [fuseAt_stop fusable]
      cases n with
      | zero => simp [nestedPairs]
      | succ n => simp [nestedPairs, fusable]

theorem Place.numLoops_fill (K : Place F) (hole : List (Stmt F)) :
    numLoops (K.fill hole) = numLoops (K.fill []) + numLoops hole := by
  have append : ∀ body rest : List (Stmt F),
      numLoops (body ++ rest) = numLoops body + numLoops rest := by
    intro body rest
    rw [numLoops, Stmt.loopIds_append, List.length_append]
    rfl
  have attach : ∀ (f : OpenScope F) hole,
      numLoops (f.attach hole) = numLoops (f.attach []) + numLoops hole := by
    intro f hole
    simp only [numLoops, OpenScope.loopIds_attach, List.length_append, Stmt.loopIds_nil,
      List.length_nil]
    omega
  have general : ∀ {path : List (OpenScope F)} {hole : List (Stmt F)},
      numLoops (reassemble path hole) = numLoops (reassemble path []) + numLoops hole := by
    intro path
    induction path with
    | nil => simp [numLoops]
    | cons f path ih =>
      intro hole
      rw [reassemble_cons, reassemble_cons, ih, attach, @ih (f.attach []), Nat.add_assoc]
  rw [Place.fill, Place.fill, append, append, append, append, general]
  omega

/-! ## The argument `levels` -/

/-- `hoist` and `sink` move the loop exactly as many levels as they are told to, or as many as
there are. -/
def MovesExactly (p : Program F) (L : LoopId) (c : Cursor F) (levels : UInt32) : Prop :=
  hoist p L levels =
      ({ p with body := (c.moveUp (min levels.toNat c.hoistable)).content },
        decide (0 < min levels.toNat c.hoistable)) ∧
    ∃ sunk : Cursor F,
      sink p L levels = ({ p with body := sunk.content }, decide (0 < min levels.toNat c.sinkable)) ∧
        sunk.moveUp (min levels.toNat c.sinkable) = c ∧
          min levels.toNat c.sinkable ≤ sunk.hoistable

/-- `fuse` merges pairs of loops on at most `levels` nesting levels; every merged pair is one loop
less. -/
def FusesAtMost (p : Program F) (L : LoopId) (levels : UInt32) : Prop :=
  numLoops p.body ≤ numLoops (fuse p L levels).1.body + levels.toNat ∧
    (levels = 0 → (fuse p L levels).1 = p)

theorem movesExactly {p : Program F} {L : LoopId} {c : Cursor F} (located : p.locate L = some c)
    (levels : UInt32) : MovesExactly p L c levels := by
  constructor
  · rw [hoist, Program.edit_located located, Cursor.hoist_eq]
  · obtain ⟨sunk, ran, up, within⟩ := Cursor.sink_spec levels.toNat c
    refine ⟨sunk, ?_, up, within⟩
    rw [sink, Program.edit_located located, ran]

theorem numLoops_fuse {p : Program F} {L : LoopId} {c : Cursor F} (located : p.locate L = some c)
    (levels : UInt32) (n : Nat) :
    numLoops (fuse p L levels).1.body + n ≤ numLoops p.body ↔
      nestedPairs p.loopTable n c.header c.body c.followers = true := by
  have content : p.body = c.upToEnd.fill (.loop c.header c.body :: c.followers) := by
    rw [Cursor.content_upToEnd, (Program.locate_spec located).1]
  have whole := c.upToEnd.numLoops_fill (.loop c.header c.body :: c.followers)
  rw [← content] at whole
  have fits : numLoops (.loop c.header c.body :: c.followers) ≤ numLoops p.body := by omega
  have here := @numLoops_fuseAt _ p.loopTable _ levels n _ _ _ fits
  rw [← here]
  simp only [fuse, located]
  rw [Place.numLoops_fill, ← numLoops, Nat.add_assoc]
  nth_rewrite 2 [whole]
  exact Nat.add_le_add_iff_left

theorem fuse_unchanged {p : Program F} {L : LoopId} {c : Cursor F} (located : p.locate L = some c)
    (levels : UInt32)
    (stop : mayFuseNext p.loopTable c.header c.body c.followers ≠ some true) :
    (fuse p L levels).1 = p := by
  have content := Cursor.content_upToEnd c
  rw [(Program.locate_spec located).1] at content
  have loops : numLoops p.body = numLoops (c.upToEnd.fill []) +
      numLoops (.loop c.header c.body :: c.followers) := by
    rw [← content, Place.numLoops_fill]
  obtain ⟨fuel, more⟩ : ∃ less, (Stmt.loopIds p.body).length = less + 1 := by
    apply Nat.exists_eq_succ_of_ne_zero
    rw [numLoops_loop] at loops
    rw [← numLoops]
    omega
  simp only [fuse, located, more, fuseAt_stop stop, content]

/-- **Levels.**  For every program, loop and `levels`, `hoist` and `sink` move the loop exactly as
far as they are told to and can, and `fuse` merges pairs on at most `levels` nesting levels, exactly
when the loop and the one after it are not the outermost of more than `levels` nested pairs that
pass the tests. -/
theorem levels_bound_work {p : Program F} {L : LoopId} {c : Cursor F}
    (located : p.locate L = some c) (levels : UInt32) :
    MovesExactly p L c levels ∧ FusesAtMost p L levels ↔
      nestedPairs p.loopTable (levels.toNat + 1) c.header c.body c.followers = false := by
  have merged := numLoops_fuse located levels (levels.toNat + 1)
  rw [and_iff_right (movesExactly located levels), ← Bool.not_eq_true, ← merged]
  constructor
  · intro bounded
    have atMost := bounded.1
    omega
  · intro few
    refine ⟨by omega, ?_⟩
    rintro rfl
    apply fuse_unchanged located
    intro fusable
    apply few
    rw [merged]
    simp [nestedPairs, fusable]

/-- `for (i in 0 .. 10) A[i] = 0` and `for (j in 0 .. 10) B[j] = 0`. -/
def twoStores : Program Rat where
  name := "f"
  args := [⟨"A", [10], ["x"], .float32Ty, oneDim⟩, ⟨"B", [10], ["x"], .float32Ty, oneDim⟩]
  vars := []
  body := [.loop ⟨0, "i", 10, 1⟩ [.store 0 [.indexOf 0] (.constFP 0) false],
    .loop ⟨1, "j", 10, 1⟩ [.store 1 [.indexOf 1] (.constFP 0) false]]

theorem levels_bound_work_twoStores : ∃ c, twoStores.locate 0 = some c ∧
    MovesExactly twoStores 0 c 1 ∧ FusesAtMost twoStores 0 1 :=
  ⟨_, rfl, (levels_bound_work (p := twoStores) (L := 0) rfl 1).mpr (by decide +kernel)⟩

/-- Told to fuse on no level, `fuse` merges the two loops. -/
theorem fuse_ignores_levels : twoStores.verify = true ∧ ¬ FusesAtMost twoStores 0 0 := by
  refine ⟨by decide +kernel, fun bounded => ?_⟩
  have fewer : ¬ numLoops twoStores.body ≤
      numLoops (fuse twoStores 0 0).1.body + (0 : UInt32).toNat := by
    decide +kernel
  exact fewer bounded.1

end Bistra
