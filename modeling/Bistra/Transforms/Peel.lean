import Bistra.Transforms.Tile

/-! # Peeling

`peelLoop` of `Transforms.cpp`: the loop is cut at `k`, and a copy of it runs the rest with
the index `k + L2`.  The cut is computed with `int`, so loops with a range from `2 ^ 31` on
are never peeled.
-/

namespace Bistra

variable {F : Type}

/-- The cut of a loop, before its alignment is checked: negative values count from the end. -/
def peelPoint (origLoopEndRange k : Int32) : Option Int32 :=
  if k < 1 then
    if -k < origLoopEndRange then some (origLoopEndRange + k) else none
  else some k

/-- The index that replaces the index of the copy. -/
def peelIndex (k : Int32) (L2 : LoopId) : Expr F := .binary .add (.const k.toInt) (.indexOf L2)

/-- The copy that runs the rest of the loop. -/
def peelTail (base : LoopId) (k : Int32) (header : Loop) (body : List (Stmt F)) : Stmt F :=
  let L2 := base + header.id
  .loop ⟨L2, newIndexName header.name "peeled" 0, (header.end_.toInt32 - k).toUInt32, header.stride⟩
    (Stmt.replaceIndex L2 (peelIndex k L2)
      (Stmt.cloneBody base (Function.update id header.id L2) body))

/-- The two loops that replace a peeled loop. -/
def peelLoops (base : LoopId) (k : Int32) (header : Loop) (body : List (Stmt F)) :
    List (Stmt F) :=
  [.loop { header with end_ := k.toUInt32 } body, peelTail base k header body]

/-- `peelLoop`.  `none` is a division by zero. -/
def peelLoop (p : Program F) (L : LoopId) (k : Int32) : Option (Program F × Option LoopId) :=
  match p.findLoop L with
  | none => none
  | some (header, _) =>
    match peelPoint header.end_.toInt32 k with
    | none => some (p, none)
    | some k =>
      if header.end_.toInt32 < k then some (p, none)
      else if header.stride = 0 then none
      else if k.toUInt32 % header.stride ≠ 0 then some (p, none)
      else some (p.substLoop L (peelLoops p.freshLoop k), some (p.freshLoop + L))

/-- The cut `k` of a loop is a signed number inside the range and a multiple of the stride. -/
structure PeelPoint (header : Loop) (k : Int32) : Prop where
  positive : 0 < k.toInt
  inside : k.toInt ≤ header.end_.toNat
  signed : header.end_.toNat < 2 ^ 31
  aligned : header.stride.toNat ∣ k.toUInt32.toNat

theorem toUInt32_toNat {n : Int32} (nonneg : 0 ≤ n.toInt) : (n.toUInt32.toNat : Int) = n.toInt := by
  have back : n.toUInt32.toInt32 = n := by simp
  have value := toInt32_toInt n.toUInt32
  have below := n.toUInt32.toNat_lt
  rw [back] at value
  split at value <;> omega

theorem PeelPoint.toNat_rest {header : Loop} {k : Int32} (point : PeelPoint header k) :
    (header.end_.toInt32 - k).toUInt32.toNat = header.end_.toNat - k.toUInt32.toNat := by
  have positive := point.positive
  have inside := point.inside
  have signed := point.signed
  have cut := toUInt32_toNat point.positive.le
  have whole : header.end_.toInt32.toInt = header.end_.toNat := by
    rw [toInt32_toInt, if_pos signed]
  have rest : (header.end_.toInt32 - k).toInt = header.end_.toNat - k.toInt := by
    rw [Int32.toInt_sub, whole]
    exact Int.bmod_eq_of_le (by omega) (by omega)
  have value := toUInt32_toNat (n := header.end_.toInt32 - k) (by omega)
  omega

theorem peelPoint_eq_some {header : Loop} {k cut : Int32}
    (defined : k.toInt ≠ -2 ^ 31 ∨ 2 ^ 31 ≤ header.end_.toNat)
    (point : peelPoint header.end_.toInt32 k = some cut) (fits : ¬ header.end_.toInt32 < cut) :
    0 < cut.toInt ∧ cut.toInt ≤ header.end_.toNat ∧ header.end_.toNat < 2 ^ 31 := by
  have range := header.end_.toNat_lt
  have whole := toInt32_toInt header.end_
  have least := k.le_toInt
  have most := k.toInt_lt
  have one : (1 : Int32).toInt = 1 := rfl
  simp only [Int32.lt_iff_toInt_lt, not_lt] at fits
  simp only [peelPoint, Int32.lt_iff_toInt_lt, one] at point
  split at point
  next small =>
    split at point
    next inside =>
      cases point
      -- The negation overflows for the least number only.
      by_cases least : k.toInt = -2 ^ 31
      · -- The sum wraps to a number that is not negative, and so is above the range.
        have large := defined.resolve_left (fun differs => differs least)
        rw [Int32.toInt_add, Int.bmod_def] at fits
        split at whole <;> split at fits <;> omega
      · have negated : (-k).toInt = -k.toInt := by
          rw [Int32.toInt_neg]
          exact Int.bmod_eq_of_le (by omega) (by omega)
        rw [negated] at inside
        have sum : (header.end_.toInt32 + k).toInt = header.end_.toInt32.toInt + k.toInt := by
          rw [Int32.toInt_add]
          split at whole <;> exact Int.bmod_eq_of_le (by omega) (by omega)
        split at whole <;> omega
    next => cases point
  -- The cut counts from the start and is checked as it is.
  next large =>
    cases point
    split at whole <;> omega

theorem peelLoop_eq_some {p p' : Program F} {L L2 : LoopId} {k : Int32} {header : Loop}
    {body : List (Stmt F)} (found : p.findLoop L = some (header, body))
    (defined : k.toInt ≠ -2 ^ 31 ∨ 2 ^ 31 ≤ header.end_.toNat)
    (peeled : peelLoop p L k = some (p', some L2)) :
    ∃ cut, peelPoint header.end_.toInt32 k = some cut ∧ PeelPoint header cut ∧
      p' = p.substLoop L (peelLoops p.freshLoop cut) ∧ L2 = p.freshLoop + L := by
  simp only [peelLoop, found] at peeled
  split at peeled
  · simp at peeled
  next cut point =>
    split at peeled
    · simp at peeled
    next fits =>
      split at peeled
      · cases peeled
      · split at peeled
        · simp at peeled
        next aligned =>
          simp only [Option.some.injEq, Prod.mk.injEq] at peeled
          obtain ⟨positive, inside, signed⟩ := peelPoint_eq_some defined point fits
          refine ⟨cut, point, ⟨positive, inside, signed, ?_⟩, peeled.1.symm, peeled.2.symm⟩
          simp only [← UInt32.toNat_inj, UInt32.toNat_mod, UInt32.toNat_zero, ne_eq,
            not_not] at aligned
          exact Nat.dvd_of_mod_eq_zero aligned

/-- Peeling off what is left of the range after whole blocks of `unit`. -/
theorem peelLoop_rest {p q : Program F} {L T : LoopId} {unit : UInt32} {header : Loop}
    {body : List (Stmt F)} (found : p.findLoop L = some (header, body))
    (positive : 0 < unit.toNat) (fits : unit.toNat ≤ header.end_.toNat)
    (peeled : peelLoop p L (header.end_ - header.end_ % unit).toInt32 = some (q, some T)) :
    ∃ cut, PeelPoint header cut ∧
      cut.toUInt32.toNat = header.end_.toNat - header.end_.toNat % unit.toNat ∧
      q = p.substLoop L (peelLoops p.freshLoop cut) ∧ T = p.freshLoop + L := by
  have rest := Nat.mod_lt header.end_.toNat positive
  have short : (header.end_ % unit).toNat ≤ header.end_.toNat := by
    rw [UInt32.toNat_mod]
    exact Nat.mod_le _ _
  have value : (header.end_ - header.end_ % unit).toNat =
      header.end_.toNat - header.end_.toNat % unit.toNat := by
    rw [UInt32.toNat_sub_of_le _ _ (UInt32.le_iff_toNat_le.mpr short), UInt32.toNat_mod]
  have signed := toInt32_toInt (header.end_ - header.end_ % unit)
  have defined : (header.end_ - header.end_ % unit).toInt32.toInt ≠ -2 ^ 31 ∨
      2 ^ 31 ≤ header.end_.toNat := by
    split at signed <;> omega
  obtain ⟨cut, cuts, point, program, tail⟩ := peelLoop_eq_some found defined peeled
  refine ⟨cut, point, ?_, program, tail⟩
  have bound := point.signed
  have one : (1 : Int32).toInt = 1 := rfl
  rw [if_pos (by omega)] at signed
  rw [peelPoint, if_neg (by rw [Int32.lt_iff_toInt_lt]; omega)] at cuts
  cases cuts
  rw [← value]
  simp

section Correctness

variable [Field F] [LinearOrder F]

/-- The copy runs the body at the indices from the cut on. -/
theorem exec_peelTail {M : Machine F} {base : LoopId} {k : Int32} {header : Loop}
    {body : List (Stmt F)} (fresh : ∀ L ∈ Stmt.loopIds body, L < base)
    (unbound : header.id ∉ Stmt.loopIds body)
    (indices : ∀ s ∈ body, ∀ e ∈ s.collectRoots, ∀ index ∈ e.collectIndices, index.1 < base)
    (scalar : Stmt.AllScalar body) (env : Env) (st : State F) :
    (peelTail base k header body).exec M env st =
      Schedule.run (fun j => Stmt.execBody M (Function.update env header.id (k.toInt + j)) body)
        (Loop.iterations { header with end_ := (header.end_.toInt32 - k).toUInt32 }) st := by
  let L2 := base + header.id
  let ctx : LoopId → LoopId := Function.update id header.id L2
  rw [peelTail, Stmt.exec]
  refine Schedule.run_congr (fun j _ st => ?_) st
  -- The new index counts from the cut.
  have replaced : Stmt.execBody M (Function.update env L2 j)
      (Stmt.replaceIndex L2 (peelIndex k L2) (Stmt.cloneBody base ctx body)) st =
        Stmt.execBody M (Function.update env L2 (k.toInt + j)) (Stmt.cloneBody base ctx body) st := by
    apply Stmt.execBody_replaceIndex
      (fun env env' => env L2 = k.toInt + env' L2 ∧ ∀ L, L ≠ L2 → env' L = env L)
    · rfl
    · intro s' mem e memRoot index memIndex _
      rw [Stmt.cloneBody_eq] at mem
      obtain ⟨s, _, rfl⟩ := List.mem_map.mp mem
      exact Stmt.scalar_clone e memRoot index memIndex
    · intro loop mem env env' i related
      have inner : loop.1.id ∈ Stmt.loopIds (Stmt.cloneBody base ctx body) :=
        List.mem_map_of_mem mem
      rw [Stmt.loopIds_clone] at inner
      obtain ⟨L, memL, id⟩ := List.mem_map.mp inner
      have apart : L2 ≠ loop.1.id := by
        intro same
        have clash : header.id = L := Nat.add_left_cancel (same.trans id.symm)
        exact unbound (clash ▸ memL)
      refine ⟨by simpa [apart] using related.1, fun K differs => ?_⟩
      by_cases bound : K = loop.1.id
      · simp [bound]
      · simpa [bound] using related.2 K differs
    · exact fun _ _ _ _ _ _ apart env env' related => related.2 _ apart
    · intro st env env' related lane
      simp [peelIndex, Expr.indexOf, Expr.eval, Machine.binOp, BinOpKind.onInt, related.1]
    · exact ⟨by simp, fun L apart => by simp [apart]⟩
  show Stmt.execBody M (Function.update env L2 j)
    (Stmt.replaceIndex L2 (peelIndex k L2) (Stmt.cloneBody base ctx body)) st = _
  rw [replaced, Stmt.cloneBody_eq]
  refine Stmt.execBody_map (fun s mem st => ?_) st
  apply Stmt.exec_clone
  · intro loop memLoop
    exact fresh _ (List.mem_map_of_mem (List.mem_flatMap.mpr ⟨s, mem, memLoop⟩))
  · intro e memRoot index memIndex
    exact ⟨indices s mem e memRoot index memIndex, scalar s mem e memRoot index memIndex⟩
  · intro L belowL
    by_cases same : L = header.id
    · subst same
      have apart : ∀ K < base, K ≠ header.id → L2 ≠ base + K := fun K _ other clash =>
        other (Nat.add_left_cancel clash).symm
      simpa [ctx] using apart
    · have apart : ∀ K, L ≠ base + K := fun K =>
        Nat.ne_of_lt (Nat.lt_of_lt_of_le belowL (Nat.le_add_right base K))
      simp [ctx, L2, same, apart]

/-- The two loops of a peeled loop run the iterations of the loop, in order. -/
theorem exec_peelLoops {M : Machine F} {base : LoopId} {k : Int32} {header : Loop}
    {body : List (Stmt F)} (point : PeelPoint header k) (positive : 0 < header.stride.toNat)
    (fresh : ∀ L ∈ Stmt.loopIds body, L < base)
    (unbound : header.id ∉ Stmt.loopIds body)
    (indices : ∀ s ∈ body, ∀ e ∈ s.collectRoots, ∀ index ∈ e.collectIndices, index.1 < base)
    (scalar : Stmt.AllScalar body) (env : Env) (st : State F) :
    Stmt.execBody M env (peelLoops base k header body) st =
      (Stmt.loop header body).exec M env st := by
  have value := toUInt32_toNat point.positive.le
  have inside : k.toUInt32.toNat ≤ header.end_.toNat := by
    have := point.inside
    omega
  have split : header.iterations = Loop.iterations { header with end_ := k.toUInt32 } ++
      (Loop.iterations { header with end_ := (header.end_.toInt32 - k).toUInt32 }).map
        (k.toInt + ·) := by
    simp only [Loop.iterations, point.toNat_rest]
    rw [IterationSpace.strided_split positive point.aligned inside, List.map_append, List.map_map,
      List.map_map]
    congr 1
    refine List.map_congr_left fun j _ => ?_
    simp [← value]
  rw [peelLoops, Stmt.execBody_cons, Stmt.execBody_singleton,
    exec_peelTail fresh unbound indices scalar, Stmt.exec, Stmt.exec, split,
    Schedule.run_append, Schedule.run_map]

omit [Field F] [LinearOrder F] in
theorem peelTail_loops {base : LoopId} {k : Int32} {header : Loop} {body : List (Stmt F)} :
    ∀ loop ∈ (peelTail base k header body).collectLoops, base ≤ loop.1.id := by
  intro loop mem
  have ids : loop.1.id ∈ Stmt.loopIds [peelTail base k header body] :=
    List.mem_map_of_mem (by simpa [Stmt.collectLoopsBody] using mem)
  have copied : Stmt.loopIds [peelTail base k header body] =
      (base + header.id) :: (Stmt.loopIds body).map (base + ·) := by
    have inner := Stmt.loopIds_mapExprs (Expr.replaceIndex (base + header.id)
      (peelIndex k (base + header.id) : Expr F))
      (Stmt.cloneBody base (Function.update id header.id (base + header.id)) body)
    rw [Stmt.loopIds_clone] at inner
    rw [← inner]
    simp [Stmt.loopIds, Stmt.collectLoopsBody, peelTail, Stmt.replaceIndex]
  rw [copied] at ids
  cases List.mem_cons.mp ids with
  | inl here => exact here ▸ Nat.le_add_right _ _
  | inr inner =>
    obtain ⟨K, _, same⟩ := List.mem_map.mp inner
    exact same ▸ Nat.le_add_right _ _

/-- Peeling a loop and replacing the part that keeps its identity. -/
theorem Program.run_peel_substLoop {M : Machine F} {p : Program F} {k : Int32} {header : Loop}
    {body : List (Stmt F)} {g : Loop → List (Stmt F) → List (Stmt F)} (verified : p.verify = true)
    (found : p.findLoop header.id = some (header, body)) (point : PeelPoint header k)
    (scalar : Stmt.AllScalar body)
    (same : ∀ env, p.Reachable env → ∀ st,
      Stmt.execBody M env (g { header with end_ := k.toUInt32 } body) st =
        (Stmt.loop { header with end_ := k.toUInt32 } body).exec M env st) (st : State F) :
    ((p.substLoop header.id (peelLoops p.freshLoop k)).substLoop header.id g).run M st =
      p.run M st := by
  obtain ⟨mem, -⟩ := Program.findLoop_mem found
  obtain ⟨-, -, positive, -⟩ := Loop.verify_iff.mp (Program.verify_loop verified mem)
  have known : ∀ L ∈ header.id :: Stmt.loopIds body, L < p.freshLoop := fun L memL =>
    Program.lt_freshLoop ((Program.loopIds_sublist mem).subset memL)
  rw [Program.substLoop_substLoop]
  apply Program.run_substLoop verified
  intro loop foundLoop env reach st
  rw [found, Option.some.injEq] at foundLoop
  subst foundLoop
  -- The loop of the identity is in the first part only, so the second one stays.
  have kept : (peelTail p.freshLoop k header body).substLoop header.id g =
      [peelTail p.freshLoop k header body] := by
    apply Stmt.substLoop_of_not_mem
    intro loop memLoop clash
    have below := known header.id (by simp)
    exact absurd (clash ▸ peelTail_loops loop memLoop) (Nat.not_le.mpr below)
  have whole : Stmt.execBody M env (peelLoops p.freshLoop k header body) st =
      (Stmt.loop header body).exec M env st :=
    exec_peelLoops point positive (fun L memL => known L (List.mem_cons_of_mem _ memL))
      (Program.id_not_mem_body verified mem)
      (fun s memS e memRoot index memIndex => Program.lt_freshLoop
        (Program.body_index_mem_loopIds verified mem memS memRoot memIndex)) scalar env st
  rw [← whole, peelLoops, List.flatMap_cons, Stmt.substLoop, if_pos rfl, List.flatMap_singleton,
    kept, Stmt.execBody_append, same env reach]
  rfl

/-- **Peeling**, at a point inside the range. -/
theorem Program.run_peelLoops {M : Machine F} {p : Program F} {k : Int32} {header : Loop}
    {body : List (Stmt F)} (verified : p.verify = true)
    (found : p.findLoop header.id = some (header, body)) (point : PeelPoint header k)
    (scalar : Stmt.AllScalar body) (st : State F) :
    (p.substLoop header.id (peelLoops p.freshLoop k)).run M st = p.run M st := by
  obtain ⟨mem, -⟩ := Program.findLoop_mem found
  obtain ⟨-, -, positive, -⟩ := Loop.verify_iff.mp (Program.verify_loop verified mem)
  apply Program.run_substLoop verified
  intro loop foundLoop env _ st
  rw [found, Option.some.injEq] at foundLoop
  subst foundLoop
  apply exec_peelLoops point positive _ (Program.id_not_mem_body verified mem) _ scalar env st
  · intro L memL
    exact Program.lt_freshLoop ((Program.loopIds_sublist mem).subset (List.mem_cons_of_mem _ memL))
  · intro s memS e memRoot index memIndex
    exact Program.lt_freshLoop
      (Program.body_index_mem_loopIds verified mem memS memRoot memIndex)

omit [Field F] [LinearOrder F] in
theorem peelLoop_cut {p p' : Program F} {L L2 : LoopId} {k : Int32} {header : Loop}
    {body : List (Stmt F)} (found : p.findLoop L = some (header, body))
    (peeled : peelLoop p L k = some (p', some L2)) :
    ∃ cut, peelPoint header.end_.toInt32 k = some cut ∧ ¬ header.end_.toInt32 < cut ∧
      p' = p.substLoop L (peelLoops p.freshLoop cut) ∧ L2 = p.freshLoop + L := by
  simp only [peelLoop, found] at peeled
  split at peeled
  · simp at peeled
  next cut point =>
    split at peeled
    · simp at peeled
    next fits =>
      split at peeled
      · cases peeled
      · split at peeled
        · simp at peeled
        · simp only [Option.some.injEq, Prod.mk.injEq] at peeled
          exact ⟨cut, point, fits, peeled.1.symm, peeled.2.symm⟩

/-- The ranges of the two loops of `peelLoops` add up to the range of the loop, they are multiples
of the stride, and the second one goes on where the first one ends. -/
structure PeeledEnds (header : Loop) (cut : Int32) : Prop where
  sum : cut.toUInt32.toNat + (header.end_.toInt32 - cut).toUInt32.toNat = header.end_.toNat
  first : header.stride.toNat ∣ cut.toUInt32.toNat
  rest : header.stride.toNat ∣ (header.end_.toInt32 - cut).toUInt32.toNat
  iterations : header.iterations = Loop.iterations { header with end_ := cut.toUInt32 } ++
    (Loop.iterations { header with end_ := (header.end_.toInt32 - cut).toUInt32 }).map
      (cut.toInt + ·)

theorem PeelPoint.peeledEnds {header : Loop} {k : Int32} (point : PeelPoint header k)
    (positive : 0 < header.stride.toNat) (whole : header.stride.toNat ∣ header.end_.toNat) :
    PeeledEnds header k := by
  have value := toUInt32_toNat point.positive.le
  have inside : k.toUInt32.toNat ≤ header.end_.toNat := by
    have := point.inside
    omega
  refine ⟨?_, point.aligned, ?_, ?_⟩
  · rw [point.toNat_rest]
    omega
  · rw [point.toNat_rest]
    exact Nat.dvd_sub whole point.aligned
  · simp only [Loop.iterations, point.toNat_rest]
    rw [IterationSpace.strided_split positive point.aligned inside, List.map_append, List.map_map,
      List.map_map]
    congr 1
    refine List.map_congr_left fun j _ => ?_
    simp [← value]

/-- The least number has no negation, and the cut that comes out is negative. -/
theorem not_peeledEnds_of_least {header : Loop} {k cut : Int32} (least : k.toInt = -2 ^ 31)
    (point : peelPoint header.end_.toInt32 k = some cut) (fits : ¬ header.end_.toInt32 < cut) :
    ¬ PeeledEnds header cut := by
  have range := header.end_.toNat_lt
  have whole := toInt32_toInt header.end_
  have one : (1 : Int32).toInt = 1 := rfl
  have negated : (-k).toInt = -2 ^ 31 := by
    rw [Int32.toInt_neg, least]
    decide
  simp only [peelPoint, Int32.lt_iff_toInt_lt, one, least, negated] at point
  rw [if_pos (by decide)] at point
  split at point
  next inside =>
    cases point
    have sum := Int32.toInt_add header.end_.toInt32 k
    rw [least, Int.bmod_def] at sum
    rw [Int32.lt_iff_toInt_lt] at fits
    have negative : (header.end_.toInt32 + k).toInt = header.end_.toNat - 2 ^ 31 := by
      split at whole <;> split at sum <;> omega
    have unsigned := toInt32_toInt (header.end_.toInt32 + k).toUInt32
    have below := (header.end_.toInt32 + k).toUInt32.toNat_lt
    rw [Int32.toInt32_toUInt32, negative] at unsigned
    intro ends
    have total := ends.sum
    split at whole <;> split at unsigned <;> omega
  next => cases point

/-- **Peeling.**  The two loops share the range of the loop unless `k` is the least number, and then
the program does what it did before. -/
theorem peelLoop_preserves {p p' : Program F} {L L2 : LoopId} {k : Int32} {header : Loop}
    {body : List (Stmt F)} (verified : p.verify = true)
    (found : p.findLoop L = some (header, body))
    (peeled : peelLoop p L k = some (p', some L2)) :
    ∃ cut, p' = p.substLoop L (peelLoops p.freshLoop cut) ∧
      (PeeledEnds header cut ↔ k ≠ Int32.minValue) ∧
      (k ≠ Int32.minValue → Stmt.AllScalar body →
        ∀ (M : Machine F) (st : State F), p'.run M st = p.run M st) := by
  obtain ⟨mem, rfl⟩ := Program.findLoop_mem found
  obtain ⟨-, whole, positive, -⟩ := Loop.verify_iff.mp (Program.verify_loop verified mem)
  obtain ⟨cut, point, fits, rfl, -⟩ := peelLoop_cut found peeled
  have least : k = Int32.minValue ↔ k.toInt = -2 ^ 31 := by
    rw [← Int32.toInt_inj]
    rfl
  have aligned : k ≠ Int32.minValue → PeelPoint header cut := by
    intro defined
    obtain ⟨cut', point', holds, -⟩ := peelLoop_eq_some found (.inl (least.not.mp defined)) peeled
    cases point.symm.trans point'
    exact holds
  refine ⟨cut, rfl, ⟨?_, ?_⟩, ?_⟩
  · intro ends minimal
    exact not_peeledEnds_of_least (least.mp minimal) point fits ends
  · exact fun defined => (aligned defined).peeledEnds positive whole
  · intro defined scalar M st
    exact Program.run_peelLoops verified found (aligned defined) scalar st

end Correctness

/-- Peeling the last two iterations of `storeIndex`. -/
theorem peelLoop_preserves_storeIndex : ∃ p', peelLoop storeIndex 0 (-2) = some (p', some 1) ∧
    ∃ cut, p' = storeIndex.substLoop 0 (peelLoops storeIndex.freshLoop cut) ∧
      PeeledEnds ⟨0, "i", 10, 1⟩ cut ∧
        ∀ (M : Machine ℚ) (st : State ℚ), p'.run M st = storeIndex.run M st := by
  obtain ⟨p', peeled⟩ : ∃ p', peelLoop storeIndex 0 (-2) = some (p', some 1) := ⟨_, rfl⟩
  obtain ⟨cut, same, ends, runs⟩ := peelLoop_preserves (by decide) rfl peeled
  have scalar : Stmt.AllScalar [(.store 0 [.indexOf 0] (.indexOf 0) false : Stmt ℚ)] := by
    simp [Stmt.AllScalar, Expr.indexOf, Expr.collectIndices]
  exact ⟨p', peeled, cut, same, ends.mpr (by decide), runs (by decide) scalar⟩

/-- Peeling does not always preserve what a program does: the index of a vector store becomes a
scalar in the copy. -/
theorem peelLoop_changes_meaning : vectorizedIndex.verify = true ∧
    ∃ p', peelLoop vectorizedIndex 0 4 = some (p', some 1) ∧
      p'.run .bare .zero ≠ vectorizedIndex.run .bare .zero := by
  refine ⟨by decide, _, rfl, fun same => ?_⟩
  have cell := congrArg (fun st => st.bufs 0 [5]) same
  have written : (vectorizedIndex.run .bare .zero).bufs 0 [5] = .idx 5 := by decide
  have unwritten : ((vectorizedIndex.substLoop 0 (peelLoops 1 4)).run .bare .zero).bufs 0 [5] =
      .flt 0 := by decide
  simp only [written] at cell
  exact absurd (unwritten.symm.trans cell) (by decide)

end Bistra
