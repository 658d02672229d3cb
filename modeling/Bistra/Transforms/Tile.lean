import Mathlib.Algebra.Order.Field.Rat
import Bistra.Semantics.Rewrite

/-! # Tiling

`tile` of `Transforms.cpp`.  The loop `L` becomes a loop over blocks around a new loop over
the places of a block, and every index of `L` becomes `NL + L * blockSize`.  A block size
that does not divide the range is handled by an `IfRange` around the body, whose bounds are
signed 32-bit numbers while the range of a loop is an unsigned one.
-/

namespace Bistra

variable {F : Type}

def newIndexName (origName suffix : String) (index : Nat) : String :=
  origName ++ "_" ++ suffix ++ "_" ++ toString index

theorem isLegalName_newIndexName {origName suffix : String} {index : Nat}
    (legal : isLegalName origName = true) (legalSuffix : isLegalName suffix = true) :
    isLegalName (newIndexName origName suffix index) = true := by
  have digits : ∀ c ∈ (toString index).toList, c.isAlphanum = true := by
    intro c mem
    rw [Nat.toString_eq_ofList_toDigits, String.toList_ofList] at mem
    rw [Char.isAlphanum, Nat.isDigit_of_mem_toDigits (by decide) (by decide) mem, Bool.or_true]
  have separator : "_".toList = ['_'] := rfl
  rw [isLegalName, List.all_eq_true] at legal legalSuffix ⊢
  simp only [newIndexName, String.toList_append, List.mem_append, separator, List.mem_singleton]
  rintro c ((((mem | mem) | mem) | mem) | mem)
  · exact legal c mem
  · simp [mem]
  · exact legalSuffix c mem
  · simp [mem]
  · simp [digits c mem]

/-- The combination of two indices that replaces the index of a tiled loop. -/
def tileIndex (L NL : LoopId) (blockSize : UInt32) : Expr F :=
  .binary .add (.indexOf NL) (.binary .mul (.indexOf L) (.const blockSize.toNat))

/-- The range check on the last block is needed. -/
def needRangeCheck (header : Loop) (blockSize : UInt32) : Bool := header.end_ % blockSize ≠ 0

/-- The original loop after tiling: it counts the blocks. -/
def tileOuter (blockSize : UInt32) (header : Loop) : Loop :=
  { header with
    end_ := header.end_ / blockSize + (if needRangeCheck header blockSize then 1 else 0)
    stride := 1 }

/-- The new loop: it counts the places of a block. -/
def tileInner (NL : LoopId) (blockSize : UInt32) (header : Loop) : Loop :=
  ⟨NL, newIndexName header.name "tile" blockSize.toNat, blockSize, header.stride⟩

/-- The body of the new loop, before the indices are updated. -/
def tileContent (blockSize : UInt32) (header : Loop) (body : List (Stmt F)) : List (Stmt F) :=
  if needRangeCheck header blockSize then
    [.ifRange (.indexOf header.id) 0 header.end_.toInt32 body]
  else body

/-- The nest that replaces a tiled loop. -/
def tileLoop (NL : LoopId) (blockSize : UInt32) (header : Loop) (body : List (Stmt F)) :
    List (Stmt F) :=
  [.loop (tileOuter blockSize header)
    (Stmt.replaceIndex header.id (tileIndex header.id NL blockSize)
      [.loop (tileInner NL blockSize header) (tileContent blockSize header body)])]

/-- `tile`.  `none` is a division by zero. -/
def tile (p : Program F) (L : LoopId) (blockSize : UInt32) :
    Option (Program F × Option LoopId) :=
  match p.findLoop L with
  | none => none
  | some (header, _) =>
    if header.end_ ≤ blockSize then some (p, none)
    else if header.stride = 0 then none
    else if blockSize % header.stride ≠ 0 then some (p, none)
    else if blockSize = 0 then none
    else some (p.substLoop L (tileLoop p.freshLoop blockSize), some p.freshLoop)

/-- The values that `NL + L * blockSize` takes when the body of the tiled nest runs, in
order. -/
def tiledIterations (NL : LoopId) (blockSize : UInt32) (header : Loop) : List Int :=
  (tileOuter blockSize header).iterations.flatMap fun i =>
    ((tileInner NL blockSize header).iterations.map fun j => j + i * (blockSize.toNat : Int)).filter
      fun index => !needRangeCheck header blockSize || inRange 0 header.end_.toInt32 index

/-! ## The iteration space -/

theorem inRange_zero {n : UInt32} {index : Int} (nonneg : 0 ≤ index) :
    inRange 0 n.toInt32 index = true ↔ n.toNat < 2 ^ 31 ∧ index < n.toNat := by
  have below := n.toNat_lt
  simp only [inRange, toInt32_toInt, Int32.toInt_zero, decide_eq_true_eq]
  split <;> omega

/-- The number of blocks. -/
theorem tileOuter_end {header : Loop} {blockSize : UInt32} (nonempty : 0 < blockSize.toNat) :
    (tileOuter blockSize header).end_.toNat =
      header.end_.toNat / blockSize.toNat +
        (if header.end_.toNat % blockSize.toNat = 0 then 0 else 1) := by
  have need : needRangeCheck header blockSize = true ↔
      header.end_.toNat % blockSize.toNat ≠ 0 := by
    simp [needRangeCheck, ← UInt32.toNat_inj]
  have bound := header.end_.toNat_lt
  simp only [tileOuter, UInt32.toNat_add, UInt32.toNat_div]
  by_cases divides : header.end_.toNat % blockSize.toNat = 0
  · have fits : header.end_.toNat / blockSize.toNat ≤ header.end_.toNat := Nat.div_le_self _ _
    simp only [need, divides, ne_eq, not_true, if_false, if_true, UInt32.toNat_zero]
    generalize header.end_.toNat / blockSize.toNat = blocks at fits ⊢
    omega
  · have wide : 2 ≤ blockSize.toNat := by
      by_contra narrow
      have one : blockSize.toNat = 1 := by omega
      exact divides (by rw [one, Nat.mod_one])
    have fits : header.end_.toNat / blockSize.toNat ≤ header.end_.toNat / 2 :=
      Nat.div_le_div_left wide (by omega)
    simp only [need, divides, ne_eq, not_false_eq_true, if_true, if_false, UInt32.toNat_one]
    generalize header.end_.toNat / blockSize.toNat = blocks at fits ⊢
    omega

/-- The blocks cover the range. -/
theorem le_tileOuter_end_mul {header : Loop} {blockSize : UInt32}
    (nonempty : 0 < blockSize.toNat) :
    header.end_.toNat ≤ (tileOuter blockSize header).end_.toNat * blockSize.toNat := by
  have division := Nat.div_add_mod' header.end_.toNat blockSize.toNat
  have below := Nat.mod_lt header.end_.toNat nonempty
  rw [tileOuter_end nonempty, Nat.add_mul]
  split <;> omega

/-- The tiled nest visits the iterations of the loop, in order, when no range check is needed
or the range is a signed number. -/
theorem tiledIterations_eq {NL : LoopId} {header : Loop} {blockSize : UInt32}
    (positive : 0 < header.stride.toNat) (aligned : header.stride.toNat ∣ blockSize.toNat)
    (nonempty : 0 < blockSize.toNat)
    (fits : blockSize.toNat ∣ header.end_.toNat ∨ header.end_.toNat < 2 ^ 31) :
    tiledIterations NL blockSize header = header.iterations := by
  -- The outer loop counts the blocks, the inner one the places in a block.
  have outer : (tileOuter blockSize header).iterations =
      (List.range (tileOuter blockSize header).end_.toNat).map Int.ofNat := by
    simp [Loop.iterations, tileOuter, IterationSpace.strided_one]
  rw [Loop.iterations, IterationSpace.strided_blocks positive aligned nonempty
    (le_tileOuter_end_mul nonempty), List.map_flatMap, tiledIterations, outer, List.flatMap_map]
  refine List.flatMap_congr fun i memI => ?_
  simp only [Loop.iterations, tileInner, List.map_map, List.filter_map]
  have shift : ∀ j : Nat, (Int.ofNat j) + Int.ofNat i * (blockSize.toNat : Int) =
      Int.ofNat (j + i * blockSize.toNat) := fun j => by simp
  have guard : ∀ j ∈ IterationSpace.strided blockSize.toNat header.stride.toNat,
      (!needRangeCheck header blockSize ||
          inRange 0 header.end_.toInt32 (Int.ofNat (j + i * blockSize.toNat))) =
        decide (j + i * blockSize.toNat < header.end_.toNat) := by
    intro j memJ
    have belowJ := ((IterationSpace.mem_strided positive).mp memJ).1
    have check := @inRange_zero header.end_ (Int.ofNat (j + i * blockSize.toNat))
      (Int.natCast_nonneg _)
    by_cases divides : header.end_.toNat % blockSize.toNat = 0
    -- With whole blocks no place is behind the end, and no check is made.
    · have block : (i + 1) * blockSize.toNat ≤ header.end_.toNat := by
        have := Nat.mul_le_mul_right blockSize.toNat (List.mem_range.mp memI)
        rw [tileOuter_end nonempty, if_pos divides] at this
        exact this.trans (Nat.div_mul_le_self _ _)
      rw [Nat.add_mul] at block
      have need : needRangeCheck header blockSize = false := by
        simpa [needRangeCheck, ← UInt32.toNat_inj] using divides
      simp only [need, Bool.not_false, Bool.true_or, Bool.true_eq, decide_eq_true_eq]
      omega
    · have need : needRangeCheck header blockSize = true := by
        simpa [needRangeCheck, ← UInt32.toNat_inj] using divides
      -- The check compares with the end as a signed number, which is the end itself.
      have small := fits.resolve_left fun dvd => divides (Nat.mod_eq_zero_of_dvd dvd)
      rw [need, Bool.not_true, Bool.false_or, Bool.eq_iff_iff, check, decide_eq_true_eq]
      simp only [Int.ofNat_eq_natCast, Int.ofNat_lt]
      omega
  rw [List.filter_congr (fun j memJ => ?_)]
  · exact List.map_congr_left fun j _ => shift j
  · simpa only [Function.comp, shift] using guard j memJ

/-- A range check on a range that is no signed number never holds. -/
theorem tiledIterations_eq_nil {NL : LoopId} {header : Loop} {blockSize : UInt32}
    (check : ¬ blockSize.toNat ∣ header.end_.toNat) (large : 2 ^ 31 ≤ header.end_.toNat) :
    tiledIterations NL blockSize header = [] := by
  have need : needRangeCheck header blockSize = true := by
    simpa [needRangeCheck, ← UInt32.toNat_inj, Nat.dvd_iff_mod_eq_zero] using check
  have negative : ∀ index : Int, inRange 0 header.end_.toInt32 index = false := by
    intro index
    have below := header.end_.toNat_lt
    simp only [inRange, toInt32_toInt, Int32.toInt_zero, decide_eq_false_iff_not]
    split <;> omega
  simp [tiledIterations, need, negative]

/-! ## The tiled nest -/

section Correctness

variable [Field F] [LinearOrder F]

/-- The tiled nest runs the body of the loop at `tiledIterations`. -/
theorem exec_tileLoop {M : Machine F} {NL : LoopId} {blockSize : UInt32} {header : Loop}
    {body : List (Stmt F)} (scalar : Stmt.ScalarIndex header.id body)
    (unbound : header.id ∉ Stmt.loopIds body) (freshId : NL ≠ header.id)
    (freshLoops : NL ∉ Stmt.loopIds body)
    (freshIndices : ∀ s ∈ body, ∀ e ∈ s.collectRoots, ∀ index ∈ e.collectIndices, index.1 ≠ NL)
    (env : Env) (st : State F) :
    Stmt.execBody M env (tileLoop NL blockSize header body) st =
      Schedule.run (fun i => Stmt.execBody M (Function.update env header.id i) body)
        (tiledIterations NL blockSize header) st := by
  -- The body at block `i` and place `j` is the old body at index `j + i * blockSize`.
  let related : Env → Env → Prop := fun env env' =>
    env header.id = env' NL + env' header.id * blockSize.toNat ∧
      ∀ L, L ≠ header.id → L ≠ NL → env' L = env L
  have content : ∀ i j st,
      Stmt.execBody M (Function.update (Function.update env header.id i) NL j)
          (Stmt.replaceIndex header.id (tileIndex header.id NL blockSize)
            (tileContent blockSize header body)) st =
        Stmt.execBody M (Function.update env header.id (j + i * blockSize.toNat))
          (tileContent blockSize header body) st := by
    intro i j st
    have loops : ∀ loop ∈ Stmt.collectLoopsBody (tileContent blockSize header body),
        loop ∈ Stmt.collectLoopsBody body := by
      simp only [tileContent]
      split <;> simp [Stmt.collectLoopsBody]
    have roots : ∀ s ∈ tileContent blockSize header body, ∀ e ∈ s.collectRoots,
        e = .indexOf header.id ∨ ∃ s ∈ body, e ∈ s.collectRoots := by
      simp only [tileContent]
      split
      · simp
      · exact fun s mem e memRoot => .inr ⟨s, mem, memRoot⟩
    refine Stmt.execBody_replaceIndex related rfl ?_ ?_ ?_ ?_ ?_ st
    · intro s mem e memRoot index memIndex hit
      rcases roots s mem e memRoot with rfl | ⟨s, mem, memRoot⟩
      · simp only [Expr.indexOf, Expr.collectIndices, List.mem_singleton] at memIndex
        rw [memIndex]
      · exact scalar s mem e memRoot index memIndex hit
    · intro loop memLoop env env' k rel
      have known : loop.1.id ∈ Stmt.loopIds body := List.mem_map_of_mem (loops loop memLoop)
      have apartL : header.id ≠ loop.1.id := fun same => unbound (same ▸ known)
      have apartNL : NL ≠ loop.1.id := fun same => freshLoops (same ▸ known)
      refine ⟨?_, fun L apart apart' => ?_⟩
      · simpa [apartL, apartNL] using rel.1
      · by_cases bound : L = loop.1.id
        · simp [bound]
        · simpa [bound] using rel.2 L apart apart'
    · intro s mem e memRoot index memIndex apart env env' rel
      rcases roots s mem e memRoot with rfl | ⟨s, mem, memRoot⟩
      · simp only [Expr.indexOf, Expr.collectIndices, List.mem_singleton] at memIndex
        exact absurd (by rw [memIndex]) apart
      · exact rel.2 _ apart (freshIndices s mem e memRoot index memIndex)
    · intro st env env' rel lane
      simp [tileIndex, Expr.indexOf, Expr.eval, Machine.binOp, BinOpKind.onInt, rel.1]
    · refine ⟨?_, fun L apart apart' => ?_⟩
      · simp [freshId.symm]
      · simp [apart, apart']
  have guard : ∀ index st,
      Stmt.execBody M (Function.update env header.id index) (tileContent blockSize header body) st =
        if !needRangeCheck header blockSize || inRange 0 header.end_.toInt32 index then
          Stmt.execBody M (Function.update env header.id index) body st
        else st := by
    intro index st
    cases need : needRangeCheck header blockSize
    · simp [tileContent, need]
    · simp [tileContent, need, Stmt.exec, Expr.indexOf, Expr.eval, Scalar.toInt]
  have unfolded : Stmt.replaceIndex header.id (tileIndex header.id NL blockSize)
      [Stmt.loop (tileInner NL blockSize header) (tileContent blockSize header body)] =
        [.loop (tileInner NL blockSize header)
          (Stmt.replaceIndex header.id (tileIndex header.id NL blockSize)
            (tileContent blockSize header body))] := by
    simp [Stmt.replaceIndex, Stmt.mapExprs]
  rw [tileLoop, Stmt.execBody_singleton, Stmt.exec, unfolded, tiledIterations,
    Schedule.run_flatMap]
  refine Schedule.run_congr (fun i _ st => ?_) st
  rw [Schedule.run_filter, Schedule.run_map, Stmt.execBody_singleton, Stmt.exec]
  refine Schedule.run_congr (fun j _ st => ?_) st
  exact (content i j st).trans (guard _ st)

omit [Field F] [LinearOrder F] in
theorem tile_eq_some {p p' : Program F} {L NL : LoopId} {blockSize : UInt32} {header : Loop}
    {body : List (Stmt F)} (found : p.findLoop L = some (header, body))
    (tiled : tile p L blockSize = some (p', some NL)) :
    p' = p.substLoop L (tileLoop NL blockSize) ∧ NL = p.freshLoop ∧
      blockSize.toNat < header.end_.toNat ∧ header.stride.toNat ∣ blockSize.toNat ∧
      0 < blockSize.toNat := by
  simp only [tile, found] at tiled
  split at tiled
  · simp at tiled
  · split at tiled
    · cases tiled
    · split at tiled
      · simp at tiled
      · split at tiled
        · cases tiled
        · rename_i large _ aligned nonempty
          simp only [Option.some.injEq, Prod.mk.injEq] at tiled
          obtain ⟨rfl, rfl⟩ := tiled
          simp only [UInt32.le_iff_toNat_le, not_le, ← UInt32.toNat_inj, UInt32.toNat_mod,
            UInt32.toNat_zero, ne_eq, not_not] at large aligned nonempty
          exact ⟨rfl, rfl, large, Nat.dvd_of_mod_eq_zero aligned, by omega⟩

/-- **Tiling.**  The nest that `tile` builds runs the body of the loop at `tiledIterations`;
these are the iterations of the loop, in order, exactly when the block size divides the range
or the range is below `2 ^ 31`, and then the program does what it did before. -/
theorem tile_preserves {p p' : Program F} {L NL : LoopId} {blockSize : UInt32} {header : Loop}
    {body : List (Stmt F)} (verified : p.verify = true)
    (found : p.findLoop L = some (header, body))
    (tiled : tile p L blockSize = some (p', some NL)) (scalar : Stmt.ScalarIndex L body) :
    (∀ (M : Machine F) (env : Env) (st : State F),
      Stmt.execBody M env (tileLoop NL blockSize header body) st =
        Schedule.run (fun i => Stmt.execBody M (Function.update env L i) body)
          (tiledIterations NL blockSize header) st) ∧
    (tiledIterations NL blockSize header = header.iterations ↔
      blockSize.toNat ∣ header.end_.toNat ∨ header.end_.toNat < 2 ^ 31) ∧
    ((blockSize.toNat ∣ header.end_.toNat ∨ header.end_.toNat < 2 ^ 31) →
      ∀ (M : Machine F) (st : State F), p'.run M st = p.run M st) := by
  obtain ⟨mem, rfl⟩ := Program.findLoop_mem found
  obtain ⟨rfl, rfl, -, aligned, nonempty⟩ := tile_eq_some found tiled
  obtain ⟨inhabited, -, positive, -⟩ := Loop.verify_iff.mp (Program.verify_loop verified mem)
  have sub := (Program.loopIds_sublist mem).subset
  -- The nest does what the loop does at the iterations that it visits.
  have nest : ∀ (M : Machine F) (env : Env) (st : State F),
      Stmt.execBody M env (tileLoop p.freshLoop blockSize header body) st =
        Schedule.run (fun i => Stmt.execBody M (Function.update env header.id i) body)
          (tiledIterations p.freshLoop blockSize header) st := by
    intro M env st
    refine exec_tileLoop scalar (Program.id_not_mem_body verified mem) ?_ ?_ ?_ env st
    · exact (Nat.ne_of_lt (Program.lt_freshLoop (sub (List.mem_cons_self ..)))).symm
    · exact fun known => Nat.lt_irrefl _ (Program.lt_freshLoop (sub (List.mem_cons_of_mem _ known)))
    · intro s memBody e memRoot index memIndex
      exact Nat.ne_of_lt (Program.lt_freshLoop
        (Program.body_index_mem_loopIds verified mem memBody memRoot memIndex))
  refine ⟨nest, ⟨fun same => ?_, tiledIterations_eq positive aligned nonempty⟩, fun fits M st => ?_⟩
  -- With a larger range the check on the last block compares with a negative number.
  · by_contra large
    rw [not_or, not_lt] at large
    rw [tiledIterations_eq_nil large.1 large.2, Loop.iterations, eq_comm, List.map_eq_nil_iff] at same
    exact IterationSpace.strided_ne_nil positive inhabited same
  · refine Program.run_substLoop verified (fun loop foundLoop env _ st => ?_) st
    rw [found, Option.some.injEq] at foundLoop
    subst foundLoop
    rw [nest M env st, tiledIterations_eq positive aligned nonempty fits, Stmt.exec]

end Correctness

/-- `for (i in 0 .. 10) A[i] = i`, on a buffer of indices. -/
def storeIndex : Program ℚ where
  name := "store_index"
  args := [⟨"A", ⟨[10], ["x"], .indexTy, oneDim⟩⟩]
  vars := []
  body := [.loop ⟨0, "i", 10, 1⟩ [.store 0 [.indexOf 0] (.indexOf 0) false]]

/-- Tiling `storeIndex` by four: the last block is cut by the range check. -/
theorem tile_preserves_storeIndex :
    storeIndex.verify = true ∧ ∃ p', tile storeIndex 0 4 = some (p', some 1) ∧
      ∀ (M : Machine ℚ) (st : State ℚ), p'.run M st = storeIndex.run M st := by
  have verified : storeIndex.verify = true := by decide
  have scalar : Stmt.ScalarIndex 0
      [(.store 0 [.indexOf 0] (.indexOf 0) false : Stmt ℚ)] := by
    simp [Stmt.ScalarIndex, Expr.ScalarIndex, Expr.indexOf, Expr.collectIndices]
  have tiled : tile storeIndex 0 4 =
      some (storeIndex.substLoop 0 (tileLoop 1 4), some 1) := rfl
  exact ⟨verified, _, tiled, (tile_preserves verified rfl tiled scalar).2.2 (.inr (by decide))⟩

/-- `for (i in 0 .. 2147483649) A[0] = 1`. -/
def narrowedGuard : Program ℚ where
  name := "narrowed_guard"
  args := [⟨"A", ⟨[1], ["x"], .float32Ty, oneDim⟩⟩]
  vars := []
  body := [.loop ⟨0, "i", 2147483649, 1⟩ [.store 0 [.const 0] (.constFP 1) false]]

/-- `for (i in 0 .. 8, 4) A[i].4 = i`, the vectorized form of a loop that stores its index. -/
def vectorizedIndex : Program ℚ where
  name := "vectorized_index"
  args := [⟨"A", ⟨[8], ["x"], .indexTy, oneDim⟩⟩]
  vars := []
  body := [.loop ⟨0, "i", 8, 4⟩
    [.store 0 [.indexOf 0] (.index 0 ⟨.indexTy, ⟨4, VecWidth.fits_four⟩⟩) false]]

/-- The range check that tiling puts into `narrowedGuard` compares with a negative end: the
statement never runs. -/
theorem exec_tiled_narrowedGuard (M : Machine ℚ) (st : State ℚ) :
    (narrowedGuard.substLoop 0 (tileLoop 1 2)).run M st = st := by
  have nest : (narrowedGuard.substLoop 0 (tileLoop 1 2)).body =
      tileLoop 1 2 ⟨0, "i", 2147483649, 1⟩ [.store 0 [.const 0] (.constFP 1) false] := rfl
  rw [Program.run, nest, exec_tileLoop, tiledIterations_eq_nil (by decide) (by decide)]
  · rfl
  all_goals simp [Stmt.ScalarIndex, Expr.ScalarIndex, Expr.collectIndices, Stmt.loopIds,
    Stmt.collectLoopsBody]

theorem exec_narrowedGuard (M : Machine ℚ) (st : State ℚ) :
    (narrowedGuard.run M st).bufs 0 [0] = .flt 1 := by
  let step : Int → State ℚ → State ℚ := fun i =>
    Stmt.execBody M (Function.update (fun _ => 0) 0 i)
      [.store 0 [.const 0] (.constFP 1) false]
  have writes : ∀ i st, (step i st).bufs 0 [0] = .flt 1 := fun i st => rfl
  have unfolded : narrowedGuard.run M st =
      Schedule.run step (Loop.iterations ⟨0, "i", 2147483649, 1⟩) st := rfl
  have nonempty : Loop.iterations ⟨0, "i", 2147483649, 1⟩ ≠ [] := by
    simpa [Loop.iterations] using IterationSpace.strided_ne_nil (by decide) (by decide)
  obtain ⟨first, rest, split⟩ := List.exists_cons_of_ne_nil nonempty
  rw [unfolded, split, Schedule.run_cons]
  exact Schedule.run_invariant (fun st => st.bufs 0 [0] = .flt 1)
    (fun i _ st _ => writes i st) (writes first st)

/-- Tiling does not always preserve what a program does: the range check is lost on a range
from `2 ^ 31` on, and a vector index becomes a scalar one. -/
theorem tile_changes_meaning :
    (narrowedGuard.verify = true ∧ ∃ p', tile narrowedGuard 0 2 = some (p', some 1) ∧
      p'.run .bare .zero ≠ narrowedGuard.run .bare .zero) ∧
    (vectorizedIndex.verify = true ∧ ∃ p', tile vectorizedIndex 0 4 = some (p', some 1) ∧
      p'.run .bare .zero ≠ vectorizedIndex.run .bare .zero) := by
  refine ⟨⟨by decide, _, rfl, fun same => ?_⟩, ⟨by decide, _, rfl, fun same => ?_⟩⟩
  · have cell := congrArg (fun st => st.bufs 0 [0]) same
    have fresh : narrowedGuard.freshLoop = 1 := rfl
    simp [fresh, exec_narrowedGuard, exec_tiled_narrowedGuard, State.zero] at cell
  · have cell := congrArg (fun st => st.bufs 0 [1]) same
    have written : (vectorizedIndex.run .bare .zero).bufs 0 [1] = .idx 1 := by decide
    have unwritten : ((vectorizedIndex.substLoop 0 (tileLoop 1 4)).run .bare .zero).bufs 0 [1] =
        .flt 0 := by decide
    simp only [written] at cell
    exact absurd (unwritten.symm.trans cell) (by decide)

end Bistra
