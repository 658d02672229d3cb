import Bistra.Semantics.Merge
import Bistra.Transforms.Peel

/-! # Widening

`widen` of `Transforms.cpp`: the stride of the loop is multiplied by `wf`, and the stores that
use its index are repeated for the iterations that are left out.  Whatever else the body does
is done less often.
-/

namespace Bistra

variable {F : Type}

/-- `collectStoreSites`: every use of the index is inside a store. -/
def collectStoreSites (L : LoopId) (body : List (Stmt F)) : Bool :=
  (Stmt.collectStmtsBody body).all fun
    | .store _ _ _ _ => true
    | s => !s.usesIndex L

/-- `widenStore`: a copy of the store at the index `L + offset`. -/
def widenStore (L : LoopId) (offset : UInt32) (S : Stmt F) : Stmt F :=
  (S.clone 0 id).mapExprs
    (Expr.replaceIndex L (.binary .add (.indexOf L) (.const offset.toNat)))

/-- A leaf of the widened loop.  The copies are put right after the store, the last one
first. -/
def widenLeaf (wf stride : UInt32) (L : LoopId) (S : Stmt F) : List (Stmt F) :=
  match S with
  | .store _ _ _ _ =>
    if S.usesIndex L then
      S :: ((List.range' 1 (wf.toNat - 1)).map fun i =>
        widenStore L ((wf - UInt32.ofNat i) * stride) S).reverse
    else [S]
  | leaf => [leaf]

def widenLoop (wf : UInt32) (header : Loop) (body : List (Stmt F)) : List (Stmt F) :=
  [.loop { header with stride := header.stride * wf }
    (Stmt.mapLeavesBody (widenLeaf wf header.stride header.id) body)]

/-- `widen`.  `none` is a failed assertion or a division by zero. -/
def widen (p : Program F) (L : LoopId) (wf : UInt32) : Option (Program F × Option LoopId) :=
  match p.findLoop L with
  | none => none
  | some (header, body) =>
    let newStride := header.stride * wf
    if ¬ (1 < wf ∧ wf < 1024) then none
    else if Stmt.usesLocals body then some (p, none)
    else if header.end_ < newStride then some (p, none)
    else if !collectStoreSites L body then some (p, none)
    else if newStride = 0 then none
    else
      let rest := header.end_ % newStride
      let peeled :=
        if rest ≠ 0 then peelLoop p L (header.end_ - rest).toInt32 else some (p, some L)
      peeled.map fun (q, tailOrOrig) => (q.substLoop L (widenLoop wf), tailOrOrig)

theorem collectStoreSites_leaf {L : LoopId} {body : List (Stmt F)}
    (sites : collectStoreSites L body = true) {S : Stmt F} (mem : S ∈ Stmt.collectStmtsBody body)
    (uses : S.usesIndex L = true) : ∃ arg indices value accumulate,
      S = .store arg indices value accumulate := by
  have site := List.all_eq_true.mp sites S mem
  cases S with
  | store arg indices value accumulate => exact ⟨arg, indices, value, accumulate, rfl⟩
  | loop | ifRange | call | storeLocal => simp [uses] at site

theorem collectStoreSites_guard {L : LoopId} {body : List (Stmt F)}
    (sites : collectStoreSites L body = true) :
    ∀ guard ∈ body.flatMap Stmt.collectIfs, ∀ index ∈ guard.1.collectIndices, index.1 ≠ L := by
  intro guard mem
  obtain ⟨s, memBody, mem⟩ := List.mem_flatMap.mp mem
  obtain ⟨t, memT, found⟩ := List.mem_filterMap.mp mem
  cases t with
  | ifRange val start end_ inner =>
    cases found
    have site := List.all_eq_true.mp sites (.ifRange val start end_ inner) (by
      rw [Stmt.collectStmtsBody_eq]
      exact List.mem_flatMap.mpr ⟨s, memBody, memT⟩)
    simp only [Bool.not_eq_true'] at site
    exact Stmt.usesIndex_eq_false.mp site val (by simp [Stmt.roots])
  | loop | call | store | storeLocal => cases found

section Correctness

variable [Field F] [LinearOrder F]

/-- What the widened loop must not meet: vector indices in what it copies, leaves that it does
less often although this makes a difference, and parts of the body that change their order
although they do not commute. -/
structure WidenSafe (M : Machine F) (p : Program F) (wf : Nat) (header : Loop)
    (body : List (Stmt F)) : Prop where
  scalar : ∀ S ∈ Stmt.collectStmtsBody body, S.isScope = false → S.usesIndex header.id = true →
    ∀ e ∈ S.roots, ∀ index ∈ e.collectIndices, index.2 = .scalar .indexTy
  scalarTail : ¬ header.stride.toNat * wf ∣ header.end_.toNat → Stmt.AllScalar body
  repeats : ∀ S ∈ Stmt.collectStmtsBody body, S.isScope = false → S.usesIndex header.id = false →
    ∀ env, p.Reachable env → ∀ st, S.exec M env (S.exec M env st) = S.exec M env st
  merge : ∀ env, p.Reachable env → ∀ n, (n + 1) * (header.stride.toNat * wf) ≤ header.end_.toNat →
    Stmt.MergeableBody M header.id
      (iterationBlock wf header.stride.toNat (n * (header.stride.toNat * wf) : Nat)) env body

/-- A copied store does what the store does at the index that the copy is for. -/
theorem exec_widenStore {M : Machine F} {L : LoopId} {offset : UInt32} {S : Stmt F}
    (leaf : S.isScope = false)
    (scalar : ∀ e ∈ S.roots, ∀ index ∈ e.collectIndices, index.2 = .scalar .indexTy) (env : Env)
    (st : State F) :
    (widenStore L offset S).exec M env st =
      S.exec M (Function.update env L (env L + offset.toNat)) st := by
  -- The copy of a scalar index is the index.
  have copied : S.clone 0 id = S := by
    rw [Stmt.clone_leaf leaf]
    apply Stmt.mapExprs_self
    intro e mem
    rw [Stmt.collectRoots_leaf leaf] at mem
    apply Expr.mapIndex_self
    intro index memIndex
    rw [scalar e mem index memIndex]
    rfl
  have replaced : Stmt.execBody M env (Stmt.replaceIndex L
      (.binary .add (.indexOf L) (.const offset.toNat)) [S]) st =
        Stmt.execBody M (Function.update env L (env L + offset.toNat)) [S] st := by
    apply Stmt.execBody_replaceIndex
      (fun env env' => env L = env' L + offset.toNat ∧ ∀ K, K ≠ L → env' K = env K) rfl
    · intro s mem e memRoot index memIndex _
      rw [List.mem_singleton.mp mem, Stmt.collectRoots_leaf leaf] at memRoot
      exact scalar e memRoot index memIndex
    · intro loop mem
      simp [Stmt.collectLoopsBody, Stmt.collectLoops_leaf leaf] at mem
    · exact fun _ _ _ _ _ _ apart env env' related => related.2 _ apart
    · intro st env env' related lane
      simp [Expr.indexOf, Expr.eval, Machine.binOp, BinOpKind.onInt, related.1]
    · exact ⟨by simp, fun K apart => by simp [apart]⟩
  rw [widenStore, copied]
  exact replaced

theorem Stmt.exec_update {M : Machine F} {L : LoopId} {S : Stmt F} (leaf : S.isScope = false)
    (unused : S.usesIndex L = false) (env : Env) (i : Int) (st : State F) :
    S.exec M (Function.update env L i) st = S.exec M env st := by
  apply Stmt.exec_congr
  intro e mem index memIndex
  rw [Stmt.collectRoots_leaf leaf] at mem
  exact Function.update_of_ne (Stmt.usesIndex_eq_false.mp unused e mem index memIndex) _ _

omit [Field F] [LinearOrder F] in
theorem widenLeaf_store {wf stride : UInt32} {L : LoopId} {S : Stmt F}
    (store : ∃ arg indices value accumulate, S = .store arg indices value accumulate)
    (uses : S.usesIndex L = true) (many : 1 < wf.toNat) :
    widenLeaf wf stride L S = S :: (List.range (wf.toNat - 1)).map fun k =>
      widenStore L (UInt32.ofNat (k + 1) * stride) S := by
  obtain ⟨arg, indices, value, accumulate, rfl⟩ := store
  rw [widenLeaf, if_pos uses]
  congr 1
  apply List.ext_getElem
  · simp
  · intro k below _
    simp only [List.length_reverse, List.length_map, List.length_range'] at below
    simp only [List.getElem_reverse, List.getElem_map, List.getElem_range', List.length_map,
      List.length_range', List.getElem_range]
    have copy : UInt32.ofNat (k + 1) =
        UInt32.ofNat (wf.toNat - (1 + 1 * (wf.toNat - 1 - 1 - k))) := by
      congr 1
      omega
    rw [copy, UInt32.ofNat_sub (by omega), UInt32.ofNat_toNat]

/-- A leaf of the widened loop does what the leaf does in the iterations of a block. -/
theorem exec_widenLeaf {M : Machine F} {wf stride : UInt32} {L : LoopId} {S : Stmt F}
    (leaf : S.isScope = false) (many : 1 < wf.toNat)
    (fits : ∀ k < wf.toNat, (UInt32.ofNat k * stride).toNat = k * stride.toNat)
    (sites : S.usesIndex L = true → ∃ arg indices value accumulate,
      S = .store arg indices value accumulate)
    (scalar : S.usesIndex L = true → ∀ e ∈ S.roots, ∀ index ∈ e.collectIndices,
      index.2 = .scalar .indexTy) {env : Env}
    (repeats : S.usesIndex L = false → ∀ st, S.exec M env (S.exec M env st) = S.exec M env st)
    (st : State F) :
    Stmt.execBody M env (widenLeaf wf stride L S) st =
      Schedule.run (fun i => S.exec M (Function.update env L i))
        (iterationBlock wf.toNat stride.toNat (env L)) st := by
  -- The block is the iteration itself, and the others that the copies are for.
  have whole : iterationBlock wf.toNat stride.toNat (env L) =
      env L :: (List.range (wf.toNat - 1)).map fun k =>
        env L + (((k + 1) * stride.toNat : Nat) : Int) := by
    have split : List.range wf.toNat = 0 :: (List.range (wf.toNat - 1)).map Nat.succ := by
      rw [← List.range_succ_eq_map]
      congr 1
      omega
    rw [iterationBlock, split, List.map_cons, List.map_map]
    simp [Function.comp_def]
  cases uses : S.usesIndex L with
  | true =>
    rw [widenLeaf_store (sites uses) uses many, whole, Stmt.execBody_cons, Schedule.run_cons,
      Function.update_eq_self, Stmt.execBody_eq_run, Schedule.run_map, Schedule.run_map]
    refine Schedule.run_congr (fun k mem st => ?_) _
    have below := List.mem_range.mp mem
    rw [exec_widenStore leaf (scalar uses), fits (k + 1) (by omega)]
  -- The leaf is left as it is: it is done once for the whole block.
  | false =>
    have single : widenLeaf wf stride L S = [S] := by
      cases S with
      | store => simp [widenLeaf, uses]
      | loop | ifRange | call | storeLocal => rfl
    have nonempty : iterationBlock wf.toNat stride.toNat (env L) ≠ [] := by simp [whole]
    rw [single, Stmt.execBody_singleton, ← Schedule.run_repeat (repeats uses) nonempty]
    exact Schedule.run_congr (fun i _ st => (Stmt.exec_update leaf uses env i st).symm) st

/-- The widened loop runs the iterations of the loop, when its range is made of whole blocks. -/
theorem exec_widenLoop {M : Machine F} {p : Program F} {wf e : UInt32} {header : Loop}
    {body : List (Stmt F)} (verified : p.verify = true) (mem : (header, body) ∈ p.collectLoops)
    (many : 1 < wf.toNat) (few : wf.toNat < 1024)
    (sites : collectStoreSites header.id body = true)
    (safe : WidenSafe M p wf.toNat header body)
    (whole : header.stride.toNat * wf.toNat ∣ e.toNat) (inside : e.toNat ≤ header.end_.toNat)
    {env : Env} (reach : p.Reachable env) (st : State F) :
    Stmt.execBody M env (widenLoop wf { header with end_ := e } body) st =
      (Stmt.loop { header with end_ := e } body).exec M env st := by
  obtain ⟨-, -, -, small, -⟩ := Loop.verify_iff.mp (Program.verify_loop verified mem)
  have scaled : ∀ k, k ≤ 1024 → (UInt32.ofNat k * header.stride).toNat =
      k * header.stride.toNat := by
    intro k le
    have product : k * header.stride.toNat ≤ 1024 * 1024 := Nat.mul_le_mul le small.le
    rw [UInt32.toNat_mul, UInt32.toNat_ofNat', Nat.mod_eq_of_lt (by omega : k < 2 ^ 32),
      Nat.mod_eq_of_lt (by omega)]
  have newStride : (header.stride * wf).toNat = header.stride.toNat * wf.toNat := by
    have product := scaled wf.toNat few.le
    rw [UInt32.ofNat_toNat] at product
    rw [UInt32.mul_comm, product, Nat.mul_comm]
  apply Program.exec_mergedLoop wf.toNat verified mem (by omega) newStride (collectStoreSites_guard sites)
    whole inside safe.merge _ reach
  intro t memT leaf env reach _ _ _ st
  apply exec_widenLeaf leaf many (fun k below => scaled k (by omega))
  · exact collectStoreSites_leaf sites memT
  · exact safe.scalar t memT leaf
  · exact fun unused => safe.repeats t memT leaf unused env reach

omit [Field F] [LinearOrder F] in
theorem widen_eq_some {p p' : Program F} {L T : LoopId} {wf : UInt32} {header : Loop}
    {body : List (Stmt F)} (found : p.findLoop L = some (header, body))
    (widened : widen p L wf = some (p', some T)) :
    1 < wf.toNat ∧ wf.toNat < 1024 ∧ (header.stride * wf).toNat ≤ header.end_.toNat ∧
      collectStoreSites L body = true ∧
      ((header.end_ % (header.stride * wf) = 0 ∧ p' = p.substLoop L (widenLoop wf)) ∨
        header.end_ % (header.stride * wf) ≠ 0 ∧ ∃ q, peelLoop p L (header.end_ - header.end_ % (header.stride * wf)).toInt32 =
          some (q, some T) ∧ p' = q.substLoop L (widenLoop wf)) := by
  simp only [widen, found] at widened
  split at widened
  · cases widened
  next bounds =>
    split at widened
    · simp at widened
    split at widened
    · simp at widened
    next large =>
    split at widened
    · simp at widened
    next sites =>
      split at widened
      · cases widened
      obtain ⟨⟨q, tail⟩, peeled, same⟩ := Option.map_eq_some_iff.mp widened
      cases same
      simp only [not_not, UInt32.lt_iff_toNat_lt, not_lt] at bounds large
      refine ⟨bounds.1, bounds.2, large, by simpa using sites, ?_⟩
      -- A tail that is no whole block is peeled off first.
      split at peeled
      next part => exact .inr ⟨part, q, peeled, rfl⟩
      next whole =>
        cases peeled
        exact .inl ⟨not_not.mp whole, rfl⟩

end Correctness

/-- The iterations of a loop may be run in any order. -/
def Loop.AnyOrder {F : Type} [Field F] [LinearOrder F] (M : Machine F) (header : Loop)
    (body : List (Stmt F)) : Prop :=
  ∀ (env : Env) (order : List Int), header.iterations.Perm order → ∀ st,
    Schedule.run (fun i => Stmt.execBody M (Function.update env header.id i) body) order st =
      (Stmt.loop header body).exec M env st

/-- `for (i in 0 .. 8) A[0] += 1` -/
def countIterations : Program ℚ where
  name := "count_iterations"
  args := [⟨"A", ⟨[1], ["x"], .float32Ty, oneDim⟩⟩]
  vars := []
  body := [.loop ⟨0, "i", 8, 1⟩ [.store 0 [.const 0] (.constFP 1) true]]

end Bistra
