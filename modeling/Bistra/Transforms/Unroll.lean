import Bistra.Program.Clone
import Bistra.Program.Scopes
import Bistra.Transforms.Tile

/-! # Unrolling

`unrollLoop` of `Transforms.cpp`: the body of the loop is copied for every iteration, and the index
of the loop becomes a number in each of the copies.
-/

namespace Bistra

variable {F : Type}

/-- The values of `iter` from here on.  The addition wraps around, and `none` is a loop that has
met more values than there are. -/
def unrollIters (end_ stride : UInt32) : Nat → UInt32 → Option (List UInt32)
  | 0, _ => none
  | fuel + 1, iter =>
    if iter < end_ then (unrollIters end_ stride fuel (iter + stride)).map (iter :: ·) else some []

/-- The addresses of the loops of an iteration come after those of the iterations before it. -/
def Program.unrollBase (p : Program F) (iter : UInt32) : LoopId := p.freshLoop * (iter.toNat + 1)

/-- The copy of the body that an iteration makes; `none` is a failed assertion of `clone`. -/
def unrollIteration (p : Program F) (scope : List LoopId) (L : LoopId) (body : List (Stmt F))
    (iter : UInt32) : Option (List (Stmt F)) :=
  (Stmt.cloneBodyChecked p.decls (p.unrollBase iter) scope id body).map
    (Stmt.replaceIndex L (.const iter.toNat))

/-- `unrollLoop`.  `none` is a failed assertion, or a loop that does not end. -/
def unrollLoop (p : Program F) (L : LoopId) (maxTripCount : UInt32) : Option (Program F × Bool) :=
  match p.findLoop L, p.scopeOf L with
  | some (header, body), some scope =>
    if maxTripCount < header.end_ then some (p, false)
    else
      (unrollIters header.end_ header.stride (2 ^ 32 + 1) 0).bind fun iters =>
        (iters.mapM (unrollIteration p scope L body)).map fun unrolledBodies =>
          (p.substLoop L fun _ _ => unrolledBodies.flatten, true)
  | _, _ => none

/-! ## The iterations -/

/-- The loop of `unrollLoop` meets the multiples of the stride from `iter` on. -/
theorem unrollIters_eq {end_ stride : UInt32} (positive : 0 < stride.toNat)
    (aligned : stride.toNat ∣ end_.toNat) : ∀ (fuel : Nat) (iter : UInt32),
      end_.toNat - iter.toNat < fuel → iter.toNat ≤ end_.toNat → stride.toNat ∣ iter.toNat →
      ∃ iters, unrollIters end_ stride fuel iter = some iters ∧
        iters.map UInt32.toNat =
          (IterationSpace.strided (end_.toNat - iter.toNat) stride.toNat).map (iter.toNat + ·)
  | 0, _, enough, _, _ => absurd enough (Nat.not_lt_zero _)
  | fuel + 1, iter, enough, inside, multiple => by
    rw [unrollIters]
    split
    next below =>
      have below : iter.toNat < end_.toNat := UInt32.lt_iff_toNat_lt.mp below
      -- The next multiple is at most the end, which is a multiple itself: nothing wraps around.
      have next : iter.toNat + stride.toNat ≤ end_.toNat := by
        have gap : stride.toNat ∣ end_.toNat - iter.toNat := Nat.dvd_sub aligned multiple
        have := Nat.le_of_dvd (by omega) gap
        omega
      have sum : (iter + stride).toNat = iter.toNat + stride.toNat := by
        rw [UInt32.toNat_add, Nat.mod_eq_of_lt]
        exact Nat.lt_of_le_of_lt next end_.toNat_lt
      obtain ⟨rest, found, values⟩ := unrollIters_eq positive aligned fuel (iter + stride)
        (by omega) (by omega) (sum ▸ Nat.dvd_add multiple dvd_rfl)
      have split := IterationSpace.strided_split positive (dvd_refl stride.toNat)
        (show stride.toNat ≤ end_.toNat - iter.toNat by omega)
      refine ⟨iter :: rest, by rw [found, Option.map_some], ?_⟩
      rw [List.map_cons, values, split, IterationSpace.strided_self positive, sum, List.map_append,
        List.map_map, Nat.sub_sub]
      simp [Function.comp_def, Nat.add_assoc]
    next above =>
      have above : ¬ iter.toNat < end_.toNat := fun less => above (UInt32.lt_iff_toNat_lt.mpr less)
      refine ⟨[], rfl, ?_⟩
      rw [show end_.toNat - iter.toNat = 0 by omega, IterationSpace.strided_zero]
      rfl

/-! ## The copies -/

/-- The copy of the body in an iteration, when `clone` completes. -/
def Program.unrolledBody (p : Program F) (L : LoopId) (body : List (Stmt F)) (iter : UInt32) :
    List (Stmt F) :=
  Stmt.replaceIndex L (.const iter.toNat) (Stmt.cloneBody (p.unrollBase iter) id body)

theorem Program.freshLoop_le_unrollBase (p : Program F) (iter : UInt32) :
    p.freshLoop ≤ p.unrollBase iter :=
  Nat.le_mul_of_pos_right _ (Nat.succ_pos _)

theorem unrollIteration_eq {p : Program F} {scope : List LoopId} {L : LoopId}
    {body : List (Stmt F)} (scalar : Stmt.AllScalar body)
    (verified : ∀ s ∈ body, s.verify p.decls scope = true) (iter : UInt32) :
    unrollIteration p scope L body iter = some (p.unrolledBody L body iter) := by
  have cloned : ∀ s ∈ body, s.cloneChecked p.decls (p.unrollBase iter) scope id =
      some (s.clone (p.unrollBase iter) id) := fun s mem =>
    Stmt.cloneChecked_of_verify (scalar s mem) (fun K known => known) (verified s mem)
  rw [unrollIteration, Stmt.cloneBodyChecked_eq cloned]
  rfl

theorem Program.loopIds_unrolledBody (p : Program F) (L : LoopId) (body : List (Stmt F))
    (iter : UInt32) : Stmt.loopIds (p.unrolledBody L body iter) =
      (Stmt.loopIds body).map (p.unrollBase iter + ·) := by
  rw [Program.unrolledBody, Stmt.replaceIndex, Stmt.loopIds_mapExprs, Stmt.loopIds_clone]

theorem Program.verify_unrolledBody {p : Program F} {scope : List LoopId} {header : Loop}
    {body : List (Stmt F)} (scalar : Stmt.AllScalar body)
    (verified : (Stmt.loop header body).verify p.decls scope = true) (iter : UInt32) :
    Stmt.verifyBody p.decls scope (p.unrolledBody header.id body iter) = true := by
  simp only [Stmt.verify, Stmt.verifyBody_eq, Bool.and_eq_true, List.all_eq_true] at verified
  rw [Stmt.verifyBody_eq, List.all_eq_true, Program.unrolledBody, Stmt.replaceIndex,
    Stmt.cloneBody_eq]
  intro s mem
  obtain ⟨copy, memCopy, rfl⟩ := List.mem_map.mp mem
  obtain ⟨s, memS, rfl⟩ := List.mem_map.mp memCopy
  have copied : (s.clone (p.unrollBase iter) id).verify p.decls (header.id :: scope) = true :=
    Stmt.verify_clone (scalar s memS) (fun K known => known) (verified.2 s memS)
  apply Stmt.verify_replaceIndex rfl _ _ _ copied
  · exact fun inner _ => rfl
  · exact fun K known apart => List.mem_of_ne_of_mem apart known
  · exact fun e memRoot index memIndex _ => Stmt.scalar_clone e memRoot index memIndex

theorem Program.nodup_unrolled {p : Program F} {L : LoopId} {body : List (Stmt F)}
    {iters : List UInt32} (nodup : (Stmt.loopIds body).Nodup)
    (known : ∀ K ∈ Stmt.loopIds body, K < p.freshLoop) (distinct : iters.Nodup) :
    (Stmt.loopIds (iters.flatMap (p.unrolledBody L body))).Nodup := by
  have ids : Stmt.loopIds (iters.flatMap (p.unrolledBody L body)) =
      iters.flatMap fun iter => (Stmt.loopIds body).map (p.unrollBase iter + ·) := by
    induction iters with
    | nil => rfl
    | cons iter rest ih =>
      rw [List.flatMap_cons, Stmt.loopIds_append, Program.loopIds_unrolledBody,
        ih (List.nodup_cons.mp distinct).2, List.flatMap_cons]
  rw [ids, List.nodup_flatMap]
  refine ⟨fun iter _ => nodup.map fun a b same => Nat.add_left_cancel same, ?_⟩
  apply distinct.imp
  intro a b apart id memA memB
  obtain ⟨K, memK, rfl⟩ := List.mem_map.mp memA
  obtain ⟨K', memK', same⟩ := List.mem_map.mp memB
  -- The quotient of the address by the number of addresses of an iteration is the iteration.
  have blocks : ∀ {iter : UInt32} {K : LoopId}, K < p.freshLoop →
      (p.unrollBase iter + K) / p.freshLoop = iter.toNat + 1 := by
    intro iter K below
    rw [Program.unrollBase, Nat.mul_add_div (Nat.zero_lt_of_lt below), Nat.div_eq_of_lt below,
      Nat.add_zero]
  have quotients := congrArg (· / p.freshLoop) same
  simp only [blocks (known K memK), blocks (known K' memK')] at quotients
  exact apart (UInt32.toNat_inj.mp (Nat.succ_injective quotients)).symm

/-! ## Unrolling preserves meaning -/

section Correctness

variable [Field F] [LinearOrder F]

/-- The copy does what the body does in its iteration. -/
theorem Program.exec_unrolledBody {M : Machine F} {p : Program F} {L : LoopId}
    {body : List (Stmt F)} (known : ∀ K ∈ Stmt.loopIds body, K < p.freshLoop)
    (below : L < p.freshLoop)
    (indices : ∀ s ∈ body, ∀ e ∈ s.collectRoots, ∀ index ∈ e.collectIndices,
      index.1 < p.freshLoop)
    (scalar : Stmt.AllScalar body) (iter : UInt32) (env : Env) (st : State F) :
    Stmt.execBody M env (p.unrolledBody L body iter) st =
      Stmt.execBody M (Function.update env L (Int.ofNat iter.toNat)) body st := by
  have base := p.freshLoop_le_unrollBase iter
  have replaced : Stmt.execBody M env (p.unrolledBody L body iter) st =
      Stmt.execBody M (Function.update env L (Int.ofNat iter.toNat))
        (Stmt.cloneBody (p.unrollBase iter) id body) st := by
    apply Stmt.execBody_replaceIndex
      (fun env env' => env L = iter.toNat ∧ ∀ K, K ≠ L → env' K = env K)
    · rfl
    · intro copy mem e memRoot index memIndex _
      rw [Stmt.cloneBody_eq] at mem
      obtain ⟨s, _, rfl⟩ := List.mem_map.mp mem
      exact Stmt.scalar_clone e memRoot index memIndex
    · intro loop mem env env' i related
      have inner : loop.1.id ∈ Stmt.loopIds (Stmt.cloneBody (p.unrollBase iter) id body) :=
        List.mem_map_of_mem mem
      rw [Stmt.loopIds_clone] at inner
      obtain ⟨K, _, (address : p.unrollBase iter + K = loop.1.id)⟩ := List.mem_map.mp inner
      -- A loop of the copy is new, so it is not the unrolled one.
      have apart : L ≠ loop.1.id := by
        rw [← address]
        exact Nat.ne_of_lt (Nat.lt_of_lt_of_le below (base.trans (Nat.le_add_right _ K)))
      refine ⟨by simpa [apart] using related.1, fun K differs => ?_⟩
      by_cases bound : K = loop.1.id
      · simp [bound]
      · simpa [bound] using related.2 K differs
    · exact fun _ _ _ _ _ _ apart env env' related => related.2 _ apart
    · intro st env env' related lane
      simp [Expr.eval, related.1]
    · exact ⟨by simp, fun K apart => by simp [apart]⟩
  rw [replaced, Stmt.cloneBody_eq]
  refine Stmt.execBody_map (fun s mem st => ?_) st
  apply Stmt.exec_clone
  · intro loop memLoop
    exact (known _ (List.mem_map_of_mem (List.mem_flatMap.mpr ⟨s, mem, memLoop⟩))).trans_le base
  · intro e memRoot index memIndex
    exact ⟨(indices s mem e memRoot index memIndex).trans_le base,
      scalar s mem e memRoot index memIndex⟩
  · exact fun L below => ⟨fun K _ _ => (below.trans_le (Nat.le_add_right _ K)).ne, rfl⟩

/-- What unrolling leaves of the loop: `copies` do what the loop has done, and the program that has
them in its place does what the program has done and has no index of the loop. -/
structure Unrolled (p : Program F) (header : Loop) (body copies : List (Stmt F)) : Prop where
  exec : ∀ (M : Machine F) env st,
    Stmt.execBody M env copies st = (Stmt.loop header body).exec M env st
  run : ∀ (M : Machine F) st, (p.substLoop header.id fun _ _ => copies).run M st = p.run M st
  verified : (p.substLoop header.id fun _ _ => copies).verify = true
  indices : ∀ s ∈ (p.substLoop header.id fun _ _ => copies).body, ∀ e ∈ s.collectRoots,
    ∀ index ∈ e.collectIndices, index.1 ≠ header.id

theorem unrolled_copies {p : Program F} {header : Loop} {body : List (Stmt F)}
    {iters : List UInt32} (verified : p.verify = true)
    (found : p.findLoop header.id = some (header, body)) (scalar : Stmt.AllScalar body)
    (values : iters.map UInt32.toNat =
      IterationSpace.strided header.end_.toNat header.stride.toNat) :
    Unrolled p header body (iters.flatMap (p.unrolledBody header.id body)) := by
  obtain ⟨mem, -⟩ := Program.findLoop_mem found
  obtain ⟨-, -, positive, -⟩ := Loop.verify_iff.mp (Program.verify_loop verified mem)
  have known : ∀ K ∈ header.id :: Stmt.loopIds body, K < p.freshLoop := fun K memK =>
    Program.lt_freshLoop ((Program.loopIds_sublist mem).subset memK)
  have inner : ∀ K ∈ Stmt.loopIds body, K < p.freshLoop := fun K memK =>
    known K (List.mem_cons_of_mem _ memK)
  have nodup := Program.nodup_loopIds verified
  -- Each copy does what the body does in its iteration.
  have exec : ∀ (M : Machine F) env st,
      Stmt.execBody M env (iters.flatMap (p.unrolledBody header.id body)) st =
        (Stmt.loop header body).exec M env st := by
    intro M env st
    rw [Stmt.exec, Loop.iterations, ← values, List.map_map, Schedule.run_map,
      Stmt.execBody_eq_run, Schedule.run_flatMap]
    refine Schedule.run_congr (fun iter _ st => ?_) st
    rw [← Stmt.execBody_eq_run]
    apply Program.exec_unrolledBody inner (known _ List.mem_cons_self) _ scalar
    intro s memS e memRoot index memIndex
    exact Program.lt_freshLoop (Program.body_index_mem_loopIds verified mem memS memRoot memIndex)
  -- The copies have loops of their own, so nothing clashes with the rest of the program.
  have fresh : ∀ id ∈ Stmt.loopIds (iters.flatMap (p.unrolledBody header.id body)),
      id ∉ Stmt.loopIds p.body := by
    intro id memNew memOld
    obtain ⟨loop, memLoop, rfl⟩ := List.mem_map.mp memNew
    rw [Stmt.collectLoopsBody, List.flatMap_assoc] at memLoop
    obtain ⟨iter, _, memLoop⟩ := List.mem_flatMap.mp memLoop
    have copied : loop.1.id ∈ Stmt.loopIds (p.unrolledBody header.id body iter) :=
      List.mem_map_of_mem memLoop
    rw [Program.loopIds_unrolledBody] at copied
    obtain ⟨K, _, address⟩ := List.mem_map.mp copied
    have base := p.freshLoop_le_unrollBase iter
    exact Nat.not_lt.mpr (base.trans (Nat.le_add_right _ K))
      (lt_of_eq_of_lt address (Program.lt_freshLoop memOld))
  -- The copies take the place of the loop in a verified program.
  have copies : (p.substLoop header.id fun _ _ =>
      iters.flatMap (p.unrolledBody header.id body)).verify = true := by
    apply Program.verify_substLoop verified found
    · intro scope verified
      rw [Stmt.verifyBody_eq, List.all_flatMap, List.all_eq_true]
      intro iter _
      rw [← Stmt.verifyBody_eq]
      exact Program.verify_unrolledBody scalar verified iter
    · apply Program.nodup_unrolled (nodup.sublist _) inner
      · apply List.Nodup.of_map UInt32.toNat
        rw [values]
        exact IterationSpace.nodup_strided positive
      · exact (List.sublist_cons_self _ _).trans (Program.loopIds_sublist mem)
    · exact fun id memNew memOld => absurd memOld (fresh id memNew)
  exact {
    exec
    run := by
      intro M st
      apply Program.run_substLoop verified
      intro loop foundLoop env _ st
      rw [found, Option.some.injEq] at foundLoop
      rw [← foundLoop, exec]
    verified := copies
    indices := by
      intro s memS e memRoot index memIndex same
      have owner := Program.index_mem_loopIds copies memS memRoot memIndex
      rw [same] at owner
      apply Program.not_mem_loopIds_substLoop verified found _ owner
      exact fun copied => fresh _ copied (List.mem_map_of_mem mem) }

/-- **Unrolling** a loop without vector indices. -/
theorem unrollLoop_preserves {p : Program F} {L : LoopId} {maxTripCount : UInt32} {header : Loop}
    {body : List (Stmt F)} (verified : p.verify = true)
    (found : p.findLoop L = some (header, body)) (few : header.end_ ≤ maxTripCount)
    (scalar : Stmt.AllScalar body) :
    ∃ copies, unrollLoop p L maxTripCount = some (p.substLoop L fun _ _ => copies, true) ∧
      Unrolled p header body copies := by
  obtain ⟨mem, rfl⟩ := Program.findLoop_mem found
  obtain ⟨-, whole, positive, -⟩ := Loop.verify_iff.mp (Program.verify_loop verified mem)
  obtain ⟨scope, scopeOf, inScope⟩ := Program.scopeOf_eq_some verified mem
  obtain ⟨iters, run, values⟩ := unrollIters_eq positive whole (2 ^ 32 + 1) 0
    (Nat.lt_succ_of_lt (Nat.lt_of_le_of_lt (Nat.sub_le _ _) header.end_.toNat_lt))
    (Nat.zero_le _) (dvd_zero _)
  have values : iters.map UInt32.toNat =
      IterationSpace.strided header.end_.toNat header.stride.toNat := by
    simpa using values
  have made : iters.mapM (unrollIteration p scope header.id body) =
      some (iters.map (p.unrolledBody header.id body)) := by
    rw [show unrollIteration p scope header.id body =
      fun iter => pure (p.unrolledBody header.id body iter) from
        funext fun iter => unrollIteration_eq scalar inScope iter, List.mapM_pure]
    rfl
  refine ⟨iters.flatMap (p.unrolledBody header.id body), ?_, ?_⟩
  · simp only [unrollLoop, found, scopeOf, if_neg (UInt32.not_lt.mpr few), run, Option.bind_some,
      made, Option.map_some]
    rfl
  · exact unrolled_copies verified found scalar values

end Correctness

theorem unrollLoop_preserves_storeIndex :
    ∃ copies, unrollLoop storeIndex 0 10 = some (storeIndex.substLoop 0 fun _ _ => copies, true) ∧
      Unrolled storeIndex ⟨0, "i", 10, 1⟩ [.store 0 [.indexOf 0] (.indexOf 0) false] copies := by
  apply unrollLoop_preserves (by decide) rfl (by decide)
  unfold Stmt.AllScalar
  decide

/-- Unrolling does not always preserve what a program does: the index of a vector store becomes a
scalar number. -/
theorem unrollLoop_changes_meaning : vectorizedIndex.verify = true ∧
    ∃ p', unrollLoop vectorizedIndex 0 8 = some (p', true) ∧
      p'.run .bare .zero ≠ vectorizedIndex.run .bare .zero := by
  refine ⟨by decide, _, rfl, fun same => ?_⟩
  have cell := congrArg (fun st => st.bufs 0 [5]) same
  have written : (vectorizedIndex.run .bare .zero).bufs 0 [5] = .idx 5 := by decide
  simp only [written] at cell
  exact absurd cell (by decide)

end Bistra
