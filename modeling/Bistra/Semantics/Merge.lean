import Bistra.Semantics.Rewrite

/-! # Merging iterations

Vectorizing and widening a loop run the body once for a block of iterations: every leaf
statement does in one place what it did in each iteration of the block.  What was the order
of the iterations becomes the order of the statements.
-/

namespace Bistra

variable {F : Type} [Field F] [LinearOrder F]

mutual

/-- The parts of a statement that change their order when the iterations `block` of the loop
`L` are merged commute, and no iteration makes a guard fail that held. -/
def Stmt.Mergeable (M : Machine F) (L : LoopId) (block : List Int) (env : Env) : Stmt F → Prop
  | .loop header body =>
    (block.Pairwise fun i i' => header.iterations.Pairwise fun k k' => Function.Commute
      (Stmt.execBody M (Function.update (Function.update env header.id k) L i') body)
      (Stmt.execBody M (Function.update (Function.update env header.id k') L i) body)) ∧
    ∀ k ∈ header.iterations,
      Stmt.MergeableBody M L block (Function.update env header.id k) body
  | .ifRange val start end_ body =>
    (∀ i ∈ block, ∀ st, inRange start end_ (val.eval M st env 0).toInt = true →
      inRange start end_ (val.eval M
        (Stmt.execBody M (Function.update env L i) body st) env 0).toInt = true) ∧
    Stmt.MergeableBody M L block env body
  | _ => True

def Stmt.MergeableBody (M : Machine F) (L : LoopId) (block : List Int) (env : Env) :
    List (Stmt F) → Prop
  | [] => True
  | s :: rest =>
    (block.Pairwise fun i i' => Function.Commute
      (Stmt.execBody M (Function.update env L i) rest) (s.exec M (Function.update env L i'))) ∧
    s.Mergeable M L block env ∧ Stmt.MergeableBody M L block env rest

end

variable {M : Machine F} {L : LoopId} {block : List Int} {f : Stmt F → List (Stmt F)}

theorem Stmt.execBody_mapLeaves_of {env : Env} {body : List (Stmt F)}
    (each : ∀ s ∈ body, s.Mergeable M L block env → ∀ st,
      Stmt.execBody M env (s.mapLeaves f) st =
        Schedule.run (fun i => s.exec M (Function.update env L i)) block st)
    (mergeable : Stmt.MergeableBody M L block env body) (st : State F) :
    Stmt.execBody M env (body.flatMap (Stmt.mapLeaves f)) st =
      Schedule.run (fun i => Stmt.execBody M (Function.update env L i) body) block st := by
  induction body generalizing st with
  | nil => exact (Schedule.run_id (fun _ _ _ => rfl) st).symm
  | cons s rest ih =>
    obtain ⟨reordered, first, later⟩ := mergeable
    rw [List.flatMap_cons, Stmt.execBody_append, each s (by simp) first,
      ih (fun t mem => each t (List.mem_cons_of_mem s mem)) later]
    exact (Schedule.run_fission reordered st).symm

/-- A statement whose leaves are replaced with what they do in a block of iterations does what
the statement does in these iterations. -/
theorem Stmt.exec_mapLeaves (inside : Env → Prop) {s : Stmt F}
    (enter : ∀ loop ∈ s.collectLoops, ∀ env, inside env → ∀ i ∈ loop.1.iterations,
      inside (Function.update env loop.1.id i))
    (unbound : ∀ loop ∈ s.collectLoops, loop.1.id ≠ L)
    (guards : ∀ guard ∈ s.collectIfs, ∀ index ∈ guard.1.collectIndices, index.1 ≠ L)
    (leaf : ∀ t ∈ s.collectStmts, t.isScope = false → ∀ env, inside env → ∀ st,
      Stmt.execBody M env (f t) st =
        Schedule.run (fun i => t.exec M (Function.update env L i)) block st) :
    ∀ {env}, inside env → s.Mergeable M L block env → ∀ st,
      Stmt.execBody M env (s.mapLeaves f) st =
        Schedule.run (fun i => s.exec M (Function.update env L i)) block st := by
  induction s using Stmt.inductTree with
  | loop header body ih =>
    intro env ins mergeable st
    simp only [Stmt.collectLoops_loop, List.mem_cons, List.mem_flatMap, Stmt.collectIfs_loop,
      Stmt.collectStmts, Stmt.collectStmtsBody_eq] at enter unbound guards leaf
    obtain ⟨reordered, inner⟩ := mergeable
    have apart : header.id ≠ L := unbound (header, body) (.inl rfl)
    rw [Stmt.mapLeaves, Stmt.mapLeavesBody_eq, Stmt.execBody_singleton, Stmt.exec]
    have merged : ∀ k ∈ header.iterations, ∀ st,
        Stmt.execBody M (Function.update env header.id k) (body.flatMap (Stmt.mapLeaves f)) st =
          Schedule.run (fun i => Stmt.execBody M
            (Function.update (Function.update env header.id k) L i) body) block st := by
      intro k memK st
      apply Stmt.execBody_mapLeaves_of _ (inner k memK)
      intro s mem mergeable st
      exact ih s mem (fun loop memLoop => enter loop (.inr ⟨s, mem, memLoop⟩))
        (fun loop memLoop => unbound loop (.inr ⟨s, mem, memLoop⟩))
        (fun guard memGuard => guards guard ⟨s, mem, memGuard⟩)
        (fun t memT => leaf t (.inr ⟨s, mem, memT⟩))
        (enter (header, body) (.inl rfl) env ins k memK) mergeable st
    rw [Schedule.run_congr merged, ← Schedule.run_interchange reordered]
    refine Schedule.run_congr (fun i _ st => ?_) st
    rw [Stmt.exec]
    refine Schedule.run_congr (fun k _ st => ?_) st
    rw [Function.update_comm apart]
  | ifRange val start end_ body ih =>
    intro env ins mergeable st
    simp only [Stmt.collectLoops_ifRange, List.mem_cons, List.mem_flatMap, Stmt.collectIfs_ifRange,
      Stmt.collectStmts, Stmt.collectStmtsBody_eq] at enter unbound guards leaf
    obtain ⟨stays, inner⟩ := mergeable
    -- The guard does not see the index of `L`.
    have value : ∀ i st, val.eval M st (Function.update env L i) = val.eval M st env := by
      intro i st
      apply Expr.eval_congr
      intro index mem
      exact Function.update_of_ne (guards _ (.inl rfl) index mem) _ _
    rw [Stmt.mapLeaves, Stmt.mapLeavesBody_eq, Stmt.execBody_singleton, Stmt.exec]
    rw [Stmt.execBody_mapLeaves_of (fun s mem mergeable st => ih s mem
      (fun loop memLoop => enter loop ⟨s, mem, memLoop⟩)
      (fun loop memLoop => unbound loop ⟨s, mem, memLoop⟩)
      (fun guard memGuard => guards guard (.inr ⟨s, mem, memGuard⟩))
      (fun t memT => leaf t (.inr ⟨s, mem, memT⟩)) ins mergeable st) inner]
    rw [← Schedule.run_guard (fun st => inRange start end_ (val.eval M st env 0).toInt) stays]
    refine Schedule.run_congr (fun i _ st => ?_) st
    rw [Stmt.exec, value]
  | call | store | storeLocal =>
    intro env ins _ st
    exact leaf _ (Stmt.mem_collectStmts_self _) rfl env ins st

theorem Stmt.execBody_mapLeaves (inside : Env → Prop) {body : List (Stmt F)}
    (enter : ∀ loop ∈ Stmt.collectLoopsBody body, ∀ env, inside env → ∀ i ∈ loop.1.iterations,
      inside (Function.update env loop.1.id i))
    (unbound : L ∉ Stmt.loopIds body)
    (guards : ∀ guard ∈ body.flatMap Stmt.collectIfs, ∀ index ∈ guard.1.collectIndices,
      index.1 ≠ L)
    (leaf : ∀ t ∈ Stmt.collectStmtsBody body, t.isScope = false → ∀ env, inside env → ∀ st,
      Stmt.execBody M env (f t) st =
        Schedule.run (fun i => t.exec M (Function.update env L i)) block st)
    {env : Env} (ins : inside env) (mergeable : Stmt.MergeableBody M L block env body)
    (st : State F) : Stmt.execBody M env (Stmt.mapLeavesBody f body) st =
      Schedule.run (fun i => Stmt.execBody M (Function.update env L i) body) block st := by
  rw [Stmt.mapLeavesBody_eq]
  apply Stmt.execBody_mapLeaves_of _ mergeable
  intro s mem mergeable st
  rw [Stmt.collectStmtsBody_eq] at leaf
  apply Stmt.exec_mapLeaves inside _ _ _ _ ins mergeable st
  · exact fun loop memLoop => enter loop (List.mem_flatMap.mpr ⟨s, mem, memLoop⟩)
  · intro loop memLoop same
    exact unbound (same ▸ List.mem_map_of_mem (List.mem_flatMap.mpr ⟨s, mem, memLoop⟩))
  · exact fun guard memGuard => guards guard (List.mem_flatMap.mpr ⟨s, mem, memGuard⟩)
  · exact fun t memT => leaf t (List.mem_flatMap.mpr ⟨s, mem, memT⟩)

/-! ## Loops over blocks -/

def iterationBlock (factor : Nat) (stride : Nat) (start : Int) : List Int :=
  (List.range factor).map fun k => start + ((k * stride : Nat) : Int)

/-- A block that starts inside a range made of whole blocks ends inside it. -/
theorem block_fits {unit count q n e bound : Nat} (blocks : e = unit * count) (start : n = unit * q)
    (below : n < e) (inside : e ≤ bound) : (q + 1) * unit ≤ bound := by
  have more : q + 1 ≤ count := by
    by_contra more
    have := Nat.mul_le_mul_left unit (show count ≤ q by omega)
    omega
  calc (q + 1) * unit ≤ count * unit := Nat.mul_le_mul_right unit more
    _ = e := by rw [blocks, Nat.mul_comm]
    _ ≤ bound := inside

/-- A loop whose stride is multiplied and whose leaves do what they did in a block of iterations
runs the iterations of the loop, when its range is made of whole blocks. -/
theorem Program.exec_mergedLoop (factor : Nat) {p : Program F} {e newStride : UInt32}
    {header : Loop} {body : List (Stmt F)} (verified : p.verify = true)
    (mem : (header, body) ∈ p.collectLoops) (nonempty : 0 < factor)
    (scaled : newStride.toNat = header.stride.toNat * factor)
    (guards : ∀ guard ∈ body.flatMap Stmt.collectIfs, ∀ index ∈ guard.1.collectIndices,
      index.1 ≠ header.id)
    (whole : header.stride.toNat * factor ∣ e.toNat) (inside : e.toNat ≤ header.end_.toNat)
    (merge : ∀ env, p.Reachable env → ∀ n,
      (n + 1) * (header.stride.toNat * factor) ≤ header.end_.toNat →
        Stmt.MergeableBody M header.id (iterationBlock factor header.stride.toNat
          (n * (header.stride.toNat * factor) : Nat)) env body)
    (leaf : ∀ t ∈ Stmt.collectStmtsBody body, t.isScope = false → ∀ env, p.Reachable env → ∀ n,
      (n + 1) * (header.stride.toNat * factor) ≤ header.end_.toNat →
        env header.id = (n * (header.stride.toNat * factor) : Nat) → ∀ st,
          Stmt.execBody M env (f t) st =
            Schedule.run (fun i => t.exec M (Function.update env header.id i))
              (iterationBlock factor header.stride.toNat (env header.id)) st)
    {env : Env} (reach : p.Reachable env) (st : State F) :
    Stmt.execBody M env
        [.loop { header with end_ := e, stride := newStride } (Stmt.mapLeavesBody f body)] st =
      (Stmt.loop { header with end_ := e } body).exec M env st := by
  obtain ⟨-, -, positive, -⟩ := Loop.verify_iff.mp (Program.verify_loop verified mem)
  have positive : 0 < header.stride.toNat := positive
  obtain ⟨count, blocks⟩ := whole
  -- The iterations of the loop are those of the merged loop, each with its block.
  have groups : Loop.iterations { header with end_ := e } =
      (Loop.iterations { header with end_ := e, stride := newStride }).flatMap
        (iterationBlock factor header.stride.toNat) := by
    simp only [Loop.iterations, scaled]
    rw [blocks, Nat.mul_comm _ count, IterationSpace.strided_groups positive nonempty,
      List.map_flatMap, List.flatMap_map]
    refine List.flatMap_congr fun n _ => ?_
    simp [iterationBlock, Function.comp_def]
  rw [Stmt.execBody_singleton, Stmt.exec, Stmt.exec, groups, Schedule.run_flatMap]
  refine Schedule.run_congr (fun b memB st => ?_) st
  obtain ⟨n, memN, rfl⟩ := List.mem_map.mp memB
  have both : n < e.toNat ∧ header.stride.toNat * factor ∣ n := by
    rw [← scaled]
    refine (IterationSpace.mem_strided ?_).mp memN
    rw [scaled]
    exact Nat.mul_pos positive nonempty
  obtain ⟨below, q, start⟩ := both
  have within : n < header.end_.toNat := by omega
  have here : p.Reachable (Function.update env header.id (n : Int)) := by
    apply reach.enter verified mem
    apply (Loop.mem_iterations positive).mpr
    exact ⟨by omega, Int.ofNat_lt.mpr within,
      Int.natCast_dvd_natCast.mpr ((Dvd.intro _ rfl).trans ⟨q, start⟩)⟩
  have fits := block_fits blocks start below inside
  have mergeable := merge _ here q fits
  rw [Nat.mul_comm q, ← start] at mergeable
  -- Inside of an iteration of the merged loop, every leaf does what it does in the block.
  have merged := Stmt.execBody_mapLeaves (f := f) (fun env => env header.id = n ∧ p.Reachable env) ?_
    (Program.id_not_mem_body verified mem) guards ?_ ⟨by simp, here⟩ mergeable st
  · simpa using merged
  · intro loop memLoop env ins i memI
    -- The loops of the body are different from the loop itself, so they leave its index alone.
    have apart : header.id ≠ loop.1.id := fun same =>
      Program.id_not_mem_body verified mem (same ▸ List.mem_map_of_mem memLoop)
    refine ⟨by simp [apart, ins.1], ins.2.enter verified ?_ memI⟩
    exact Program.collectLoops_body mem memLoop
  · intro t memT scope env ins st
    rw [← ins.1]
    refine leaf t memT scope env ins.2 q fits ?_ st
    rw [ins.1, start, Nat.mul_comm]

end Bistra
