import Bistra.Analysis.RangeSound
import Bistra.Semantics.Exec

/-! # The dependence test

`Transforms/Dependence.cpp`.  The test compares the subscripts of two accesses dimension by
dimension.  A dimension in which both accesses use the indices of their loops ties the two
iterations together, and a dimension with disjoint ranges keeps the accesses apart.  A dimension
that mentions neither loop does neither, and the test passes over it in the same way.
-/

namespace Bistra

variable {F : Type}

inductive DepRelationKind where
  | someDep | equals | noDep
  deriving DecidableEq

def Expr.isRefOfLoop (e : Expr F) (L : LoopId) (recursive : Bool) : Bool :=
  match e with
  | .index loop _ => loop = L
  | e => recursive && e.dependsOnLoop L

/-- The known ranges of two subscripts are disjoint; `none` is a failed assertion. -/
def disjointRanges (loops : LoopTable) (index1 index2 : Expr F) : Option Bool :=
  (computeKnownIntegerRange loops none index1).bind fun r1 =>
    (computeKnownIntegerRange loops none index2).map fun r2 =>
      match r1, r2 with
      | some range1, some range2 => range1.2 < range2.1 || range2.2 < range1.1
      | _, _ => false

/-- The loop of `checkWeakSIVDependenceForIndex` over the dimensions. -/
def checkDimensions (loops : LoopTable) (I1 I2 : LoopId) :
    List (Expr F) → List (Expr F) → Option DepRelationKind
  | index1 :: indices1, index2 :: indices2 =>
    if index1.isRefOfLoop I1 false && index2.isRefOfLoop I2 false then
      checkDimensions loops I1 I2 indices1 indices2
    else
      (disjointRanges loops index1 index2).bind fun disjoint =>
        if disjoint then checkDimensions loops I1 I2 indices1 indices2
        -- Any other use of the index of a loop is a dependence.
        else if index1.isRefOfLoop I1 true || index2.isRefOfLoop I2 true then some .someDep
        -- Neither loop is mentioned here: on to the next dimension.
        else checkDimensions loops I1 I2 indices1 indices2
  | _, _ => some .equals

/-- `checkWeakSIVDependenceForIndex`; `none` is a failed assertion. -/
def checkWeakSIVDependenceForIndex (loops : LoopTable) (I1 I2 : LoopId) (A1 A2 : ArgId)
    (indices1 indices2 : List (Expr F)) : Option DepRelationKind :=
  if A1 ≠ A2 then some .noDep
  else if indices1.length ≠ indices2.length then none
  else checkDimensions loops I1 I2 indices1 indices2

/-- `depends`: of a store and a load, or of two stores. -/
def depends (loops : LoopTable) (I1 I2 : LoopId) (W1 R2 : Access F) : Option DepRelationKind :=
  checkWeakSIVDependenceForIndex loops I1 I2 W1.arg R2.arg W1.indices R2.indices

/-! ## What a dimension says -/

/-- The subscripts of a dimension are the indices of the two loops. -/
def DirectPair (I1 I2 : LoopId) (dim : Expr F × Expr F) : Prop :=
  dim.1.isRefOfLoop I1 false = true ∧ dim.2.isRefOfLoop I2 false = true

/-- One of the subscripts of a dimension uses its loop, and the two are neither a direct pair nor
in disjoint ranges. -/
def DependentPair (loops : LoopTable) (I1 I2 : LoopId) (dim : Expr F × Expr F) : Prop :=
  ¬ DirectPair I1 I2 dim ∧ disjointRanges loops dim.1 dim.2 = some false ∧
    (dim.1.isRefOfLoop I1 true = true ∨ dim.2.isRefOfLoop I2 true = true)

/-- The loop has two different iterations. -/
def Loop.MovesOn (header : Loop) : Prop :=
  0 < header.stride.toNat ∧ 2 * header.stride.toNat ≤ header.end_.toNat

/-- A verdict other than a dependence is reached when no dimension is a dependent pair. -/
theorem not_dependentPair {loops : LoopTable} {I1 I2 : LoopId} :
    ∀ {indices1 indices2 : List (Expr F)} {answer : DepRelationKind},
      checkDimensions loops I1 I2 indices1 indices2 = some answer → answer ≠ .someDep →
      ∀ dim ∈ indices1.zip indices2, ¬ DependentPair loops I1 I2 dim
  | [], _, _, _, _, dim, mem => by simp at mem
  | _ :: _, [], _, _, _, dim, mem => by simp at mem
  | index1 :: indices1, index2 :: indices2, answer, checked, free, dim, mem => by
    rw [checkDimensions] at checked
    rw [List.zip_cons_cons, List.mem_cons] at mem
    split at checked
    -- A direct pair, or ranges that are disjoint, are no dependent pair.
    next direct =>
      rw [Bool.and_eq_true] at direct
      cases mem with
      | inl here => exact fun dependent => dependent.1 (here ▸ direct)
      | inr later => exact not_dependentPair checked free dim later
    next =>
      obtain ⟨disjoint, ranges, checked⟩ := Option.bind_eq_some_iff.mp checked
      split at checked
      next apart =>
        cases mem with
        | inl here =>
          intro dependent
          have := dependent.2.1
          simp only [here, ranges, apart, Option.some.injEq, Bool.true_eq_false] at this
        | inr later => exact not_dependentPair checked free dim later
      next =>
        split at checked
        -- Otherwise the verdict would be a dependence, unless neither subscript uses its loop.
        next => exact absurd (Option.some.inj checked).symm free
        next unused =>
          cases mem with
          | inl here =>
            intro dependent
            apply unused
            rw [Bool.or_eq_true]
            rw [here] at dependent
            exact dependent.2.2
          | inr later => exact not_dependentPair checked free dim later

/-- Without a dependent pair, and when the ranges are computed, the verdict is `equals`. -/
theorem checkDimensions_eq_equals {loops : LoopTable} {I1 I2 : LoopId} :
    ∀ {indices1 indices2 : List (Expr F)},
      (∀ dim ∈ indices1.zip indices2, ¬ DependentPair loops I1 I2 dim) →
      (∀ dim ∈ indices1.zip indices2, (disjointRanges loops dim.1 dim.2).isSome) →
      checkDimensions loops I1 I2 indices1 indices2 = some .equals
  | [], _, _, _ => by simp [checkDimensions]
  | _ :: _, [], _, _ => by simp [checkDimensions]
  | index1 :: indices1, index2 :: indices2, free, known => by
    simp only [List.zip_cons_cons, List.forall_mem_cons] at free known
    have rest := checkDimensions_eq_equals free.2 known.2
    obtain ⟨disjoint, ranges⟩ := Option.isSome_iff_exists.mp known.1
    rw [checkDimensions]
    split
    next => exact rest
    next direct =>
      rw [ranges, Option.bind_some]
      split
      next => exact rest
      next overlap =>
        rw [if_neg, rest]
        intro used
        simp only [Bool.and_eq_true] at direct
        simp only [Bool.or_eq_true] at used
        exact free.1 ⟨direct, by simpa [ranges] using overlap, used⟩

/-! ## Soundness -/

variable [Field F] [LinearOrder F]

/-- Two iterations, with the same indices of the outer loops, in which the accesses touch the same
cell. -/
structure Meet (M : Machine F) (loops : LoopTable) (outer : List LoopId)
    (indices1 indices2 : List (Expr F)) (st : State F) (env1 env2 : Env) : Prop where
  first : loops.Assigns none env1
  second : loops.Assigns none env2
  outside : ∀ L ∈ outer, env1 L = env2 L
  cell : Expr.subscripts M st env1 indices1 = Expr.subscripts M st env2 indices2

/-- If the test finds no dependence, accesses to the same cell are in the same iteration. -/
def DependenceSound (M : Machine F) (loops : LoopTable) (outer : List LoopId) (I1 I2 : LoopId)
    (A1 A2 : ArgId) (indices1 indices2 : List (Expr F)) : Prop :=
  ∀ answer, checkWeakSIVDependenceForIndex loops I1 I2 A1 A2 indices1 indices2 = some answer →
    answer ≠ .someDep →
    ∀ st env1 env2, A1 = A2 → Meet M loops outer indices1 indices2 st env1 env2 →
      env1 I1 = env2 I2

/-- What makes the verdict of the test right. -/
inductive DependenceDecided (M : Machine F) (loops : LoopTable) (outer : List LoopId)
    (I1 I2 : LoopId) (A1 A2 : ArgId) (header : Loop) (indices1 indices2 : List (Expr F)) : Prop
  | buffers (different : A1 ≠ A2)
  | direct (dim : Expr F × Expr F) (mem : dim ∈ indices1.zip indices2)
      (pair : DirectPair I1 I2 dim)
  | dependent (dim : Expr F × Expr F) (mem : dim ∈ indices1.zip indices2)
      (pair : DependentPair loops I1 I2 dim)
  | once (single : ¬ header.MovesOn)
  | apart (never : ∀ st env1 env2, ¬ Meet M loops outer indices1 indices2 st env1 env2)

theorem Expr.eval_of_isRefOfLoop {M : Machine F} {st : State F} {env : Env} {e : Expr F}
    {L : LoopId} (ref : e.isRefOfLoop L false = true) : e.eval M st env 0 = .idx (env L) := by
  cases e with
  | index loop type =>
    simp only [Expr.isRefOfLoop, decide_eq_true_eq] at ref
    simp [Expr.eval, ref]
  | _ => simp [Expr.isRefOfLoop] at ref

theorem Expr.eval_update_of_not_ref {M : Machine F} {st : State F} {env : Env} {e : Expr F}
    {L : LoopId} (unused : e.isRefOfLoop L true = false) (i : Int) :
    e.eval M st (Function.update env L i) = e.eval M st env := by
  have notMem : ∀ index ∈ e.collectIndices, index.1 ≠ L := by
    cases e with
    | index loop type => simpa [Expr.isRefOfLoop, Expr.collectIndices] using unused
    | _ => simpa [Expr.isRefOfLoop, Expr.dependsOnLoop] using unused
  apply Expr.eval_congr
  intro index mem
  exact Function.update_of_ne (notMem index mem) ..

theorem Meet.dimension {M : Machine F} {loops : LoopTable} {outer : List LoopId}
    {indices1 indices2 : List (Expr F)} {st : State F} {env1 env2 : Env}
    (meet : Meet M loops outer indices1 indices2 st env1 env2) {dim : Expr F × Expr F}
    (mem : dim ∈ indices1.zip indices2) :
    (dim.1.eval M st env1 0).toInt = (dim.2.eval M st env2 0).toInt := by
  have cell := meet.cell
  clear meet
  induction indices1 generalizing indices2 with
  | nil => simp at mem
  | cons index1 indices1 ih =>
    cases indices2 with
    | nil => simp at mem
    | cons index2 indices2 =>
      simp only [Expr.subscripts, List.cons.injEq] at cell
      rw [List.zip_cons_cons, List.mem_cons] at mem
      cases mem with
      | inl here => exact here ▸ cell.1
      | inr later => exact ih later cell.2

theorem not_meet_of_disjoint {M : Machine F} {loops : LoopTable} {outer : List LoopId}
    {indices1 indices2 : List (Expr F)} {st : State F} {env1 env2 : Env} {dim : Expr F × Expr F}
    (mem : dim ∈ indices1.zip indices2) (bounded1 : (boundedRange loops none dim.1).isSome)
    (bounded2 : (boundedRange loops none dim.2).isSome)
    (disjoint : disjointRanges loops dim.1 dim.2 = some true) :
    ¬ Meet M loops outer indices1 indices2 st env1 env2 := by
  intro meet
  obtain ⟨I, known1⟩ := Option.isSome_iff_exists.mp bounded1
  obtain ⟨J, known2⟩ := Option.isSome_iff_exists.mp bounded2
  obtain ⟨range1, computed1, is1⟩ := computeKnownIntegerRange_of_bounded known1
  obtain ⟨range2, computed2, is2⟩ := computeKnownIntegerRange_of_bounded known2
  obtain ⟨v, memV, value1⟩ : ∃ v ∈ I, dim.1.eval M st env1 0 = .idx v :=
    boundedRange_sound meet.first known1
  obtain ⟨w, memW, value2⟩ : ∃ v ∈ J, dim.2.eval M st env2 0 = .idx v :=
    boundedRange_sound meet.second known2
  have same : v = w := by
    have := meet.dimension mem
    rwa [value1, value2] at this
  subst same
  simp only [disjointRanges, computed1, computed2, Option.bind_some, Option.map_some,
    Option.some.injEq, Bool.or_eq_true, decide_eq_true_eq, Int32.lt_iff_toInt_lt, is1.1, is1.2,
    is2.1, is2.2] at disjoint
  cases disjoint with
  | inl below => exact absurd (memW.1.trans memV.2) (not_le.mpr below)
  | inr above => exact absurd (memV.1.trans memW.2) (not_le.mpr above)

/-- A loop that does not move on has only the index zero. -/
theorem LoopTable.Assigns.eq_zero {loops : LoopTable} {env : Env} {L : LoopId} {header : Loop}
    (assigns : loops.Assigns none env) (known : loops L = some header)
    (single : ¬ header.MovesOn) : env L = 0 := by
  obtain ⟨k, at_, last⟩ := (assigns L).2 rfl header known
  cases Nat.eq_zero_or_pos header.stride.toNat with
  | inl still => rw [at_, still, Int.natCast_zero, Int.mul_zero]
  | inr positive =>
    have first : k = 0 := by
      by_contra later
      apply single
      refine ⟨positive, le_trans ?_ last⟩
      exact Nat.mul_le_mul_right _ (by omega)
    rw [at_, first, Int.natCast_zero, Int.zero_mul]

/-- The index of one loop may be moved to another iteration. -/
theorem LoopTable.Assigns.update {loops : LoopTable} {env : Env} {L : LoopId} {header : Loop}
    (assigns : loops.Assigns none env) (known : loops L = some header) {k : Nat}
    (inside : (k + 1) * header.stride.toNat ≤ header.end_.toNat) :
    loops.Assigns none (Function.update env L (k * header.stride.toNat)) := by
  intro L'
  refine ⟨fun frozen => absurd frozen Bool.false_ne_true, fun live header' known' => ?_⟩
  by_cases here : L' = L
  · subst here
    obtain rfl : header = header' := Option.some.inj (known.symm.trans known')
    exact ⟨k, Function.update_self .., inside⟩
  · rw [Function.update_of_ne here]
    exact (assigns L').2 live header' known'

theorem Expr.subscripts_update {M : Machine F} {st : State F} {env : Env} {L : LoopId} {i : Int}
    {indices : List (Expr F)} (unused : ∀ e ∈ indices, e.isRefOfLoop L true = false) :
    Expr.subscripts M st (Function.update env L i) indices = Expr.subscripts M st env indices := by
  rw [Expr.subscripts_eq, Expr.subscripts_eq]
  apply List.map_congr_left
  intro e mem
  rw [Expr.eval_update_of_not_ref (unused e mem)]

theorem DependenceDecided.sound {M : Machine F} {loops : LoopTable} {outer : List LoopId}
    {I1 I2 : LoopId} {A1 A2 : ArgId} {header1 header2 : Loop} {indices1 indices2 : List (Expr F)}
    (known1 : loops I1 = some header1) (known2 : loops I2 = some header2)
    (sameEnd : header2.end_ = header1.end_) (sameStride : header2.stride = header1.stride)
    (decided : DependenceDecided M loops outer I1 I2 A1 A2 header1 indices1 indices2) :
    DependenceSound M loops outer I1 I2 A1 A2 indices1 indices2 := by
  intro answer checked free st env1 env2 buffer meet
  cases decided with
  | buffers different => exact absurd buffer different
  | direct dim mem pair =>
    have same := meet.dimension mem
    rwa [Expr.eval_of_isRefOfLoop pair.1, Expr.eval_of_isRefOfLoop pair.2] at same
  | dependent dim mem pair =>
    rw [checkWeakSIVDependenceForIndex, if_neg (not_not_intro buffer)] at checked
    split at checked
    next => cases checked
    next => exact absurd pair (not_dependentPair checked free dim mem)
  | once single =>
    have single2 : ¬ header2.MovesOn := by rwa [Loop.MovesOn, sameEnd, sameStride]
    rw [meet.first.eq_zero known1 single, meet.second.eq_zero known2 single2]
  | apart never => exact absurd meet (never st env1 env2)

/-- The ranges of a dimension are computed, and without an overflow where they are disjoint. -/
def TrustedRanges (loops : LoopTable) (dim : Expr F × Expr F) : Prop :=
  (disjointRanges loops dim.1 dim.2).isSome ∧
    (disjointRanges loops dim.1 dim.2 = some true →
      (boundedRange loops none dim.1).isSome ∧ (boundedRange loops none dim.2).isSome)

/-- If nothing decides the iterations, the test answers `equals`, and the first access of the first
iteration meets the second access of the next one. -/
theorem DependenceDecided.of_sound {M : Machine F} {loops : LoopTable} {outer : List LoopId}
    {I1 I2 : LoopId} {A1 A2 : ArgId} {header1 header2 : Loop} {indices1 indices2 : List (Expr F)}
    (known1 : loops I1 = some header1) (known2 : loops I2 = some header2)
    (sameEnd : header2.end_ = header1.end_) (sameStride : header2.stride = header1.stride)
    (inner1 : I1 ∉ outer) (inner2 : I2 ∉ outer) (dims : indices1.length = indices2.length)
    (trusted : ∀ dim ∈ indices1.zip indices2, TrustedRanges loops dim)
    (sound : DependenceSound M loops outer I1 I2 A1 A2 indices1 indices2) :
    DependenceDecided M loops outer I1 I2 A1 A2 header1 indices1 indices2 := by
  by_contra undecided
  have buffer : A1 = A2 := by
    by_contra different
    exact undecided (.buffers different)
  have moves : header1.MovesOn := by
    by_contra single
    exact undecided (.once single)
  have free : ∀ dim ∈ indices1.zip indices2, ¬ DependentPair loops I1 I2 dim :=
    fun dim mem pair => undecided (.dependent dim mem pair)
  have equals : checkWeakSIVDependenceForIndex loops I1 I2 A1 A2 indices1 indices2 =
      some .equals := by
    rw [checkWeakSIVDependenceForIndex, if_neg (not_not_intro buffer),
      if_neg (not_not_intro dims)]
    exact checkDimensions_eq_equals free fun dim mem => (trusted dim mem).1
  apply undecided
  apply DependenceDecided.apart
  intro st env1 env2 meet
  -- No dimension is decided by its ranges, so none mentions its loop.
  have unused : ∀ dim ∈ indices1.zip indices2,
      dim.1.isRefOfLoop I1 true = false ∧ dim.2.isRefOfLoop I2 true = false := by
    intro dim mem
    obtain ⟨disjoint, ranges⟩ := Option.isSome_iff_exists.mp (trusted dim mem).1
    have overlap : disjoint = false := by
      by_contra apart
      rw [Bool.not_eq_false] at apart
      rw [apart] at ranges
      obtain ⟨bounded1, bounded2⟩ := (trusted dim mem).2 ranges
      exact not_meet_of_disjoint mem bounded1 bounded2 ranges meet
    rw [overlap] at ranges
    have notDirect : ¬ DirectPair I1 I2 dim := fun pair => undecided (.direct dim mem pair)
    have neither := fun used => free dim mem ⟨notDirect, ranges, used⟩
    rwa [imp_false, not_or, Bool.not_eq_true, Bool.not_eq_true] at neither
  have unused1 : ∀ e ∈ indices1, e.isRefOfLoop I1 true = false := by
    intro e mem
    obtain ⟨i, below, rfl⟩ := List.mem_iff_getElem.mp mem
    have paired := List.getElem_mem (l := indices1.zip indices2) (n := i) (by simp; omega)
    rw [List.getElem_zip] at paired
    exact (unused _ paired).1
  have unused2 : ∀ e ∈ indices2, e.isRefOfLoop I2 true = false := by
    intro e mem
    obtain ⟨i, below, rfl⟩ := List.mem_iff_getElem.mp mem
    have paired := List.getElem_mem (l := indices1.zip indices2) (n := i) (by simp; omega)
    rw [List.getElem_zip] at paired
    exact (unused _ paired).2
  -- The first loop is moved to its first iteration and the second loop to its second one.
  have assigns1 := meet.first.update known1 (k := 0) (by have := moves.2; omega)
  have assigns2 := meet.second.update known2 (k := 1) (by
    rw [sameEnd, sameStride]
    have := moves.2
    omega)
  have apart := sound .equals equals (by decide) st _ _ buffer {
    first := assigns1
    second := assigns2
    outside := by
      intro L mem
      have ne1 : L ≠ I1 := fun same => inner1 (same ▸ mem)
      have ne2 : L ≠ I2 := fun same => inner2 (same ▸ mem)
      rw [Function.update_of_ne ne1, Function.update_of_ne ne2]
      exact meet.outside L mem
    cell := by
      rw [Expr.subscripts_update unused1, Expr.subscripts_update unused2]
      exact meet.cell }
  rw [Function.update_self, Function.update_self, sameStride] at apart
  have := moves.1
  omega

/-- The verdict of the test is right if the buffers differ, a dimension is a direct pair or a
dependent pair, the loops have one iteration, or the accesses have no cell in common; where the
ranges are computed right, only then. -/
theorem checkWeakSIVDependence_sound (M : Machine F) {loops : LoopTable} {I1 I2 : LoopId}
    {header1 header2 : Loop} (known1 : loops I1 = some header1) (known2 : loops I2 = some header2)
    (sameEnd : header2.end_ = header1.end_) (sameStride : header2.stride = header1.stride)
    {outer : List LoopId} (inner1 : I1 ∉ outer) (inner2 : I2 ∉ outer) (A1 A2 : ArgId)
    (indices1 indices2 : List (Expr F)) :
    (DependenceDecided M loops outer I1 I2 A1 A2 header1 indices1 indices2 →
        DependenceSound M loops outer I1 I2 A1 A2 indices1 indices2) ∧
      (indices1.length = indices2.length →
        (∀ dim ∈ indices1.zip indices2, TrustedRanges loops dim) →
        DependenceSound M loops outer I1 I2 A1 A2 indices1 indices2 →
        DependenceDecided M loops outer I1 I2 A1 A2 header1 indices1 indices2) :=
  ⟨DependenceDecided.sound known1 known2 sameEnd sameStride,
    DependenceDecided.of_sound known1 known2 sameEnd sameStride inner1 inner2⟩

/-- The loops `for (i in 0 .. 4)` and `for (j in 0 .. 4)`. -/
def twoLoops : LoopTable := fun L =>
  if L = 0 then some ⟨0, "i", 4, 1⟩ else if L = 1 then some ⟨1, "j", 4, 1⟩ else none

/-- `A[i, i + 1]` and `A[j, 0]`. -/
theorem checkWeakSIVDependence_sound_diagonal :
    DependenceSound (Machine.bare : Machine ℚ) twoLoops [] 0 1 0 0
      [.indexOf 0, .binary .add (.indexOf 0) (.const 1)] [.indexOf 1, .const 0] :=
  (checkWeakSIVDependence_sound Machine.bare
    (show twoLoops 0 = some ⟨0, "i", 4, 1⟩ from rfl)
    (show twoLoops 1 = some ⟨1, "j", 4, 1⟩ from rfl) rfl rfl List.not_mem_nil List.not_mem_nil
    0 0 _ _).1 (.direct (.indexOf 0, .indexOf 1) (by simp) ⟨rfl, rfl⟩)

/-- `A[0]` is stored in every iteration of both loops. -/
theorem checkWeakSIVDependence_constant_unsound :
    checkWeakSIVDependenceForIndex twoLoops 0 1 0 0 [.const 0] [(.const 0 : Expr ℚ)] =
        some .equals ∧
      ¬ DependenceSound (Machine.bare : Machine ℚ) twoLoops [] 0 1 0 0 [.const 0] [.const 0] := by
  have equals : checkWeakSIVDependenceForIndex twoLoops 0 1 0 0 [.const 0]
      [(.const 0 : Expr ℚ)] = some .equals := by decide
  refine ⟨equals, fun sound => ?_⟩
  have first : twoLoops.Assigns none (fun _ => 0) := by
    intro L
    refine ⟨fun frozen => rfl, fun _ header known => ⟨0, by simp, ?_⟩⟩
    simp only [twoLoops] at known
    split at known
    · cases known; decide
    · split at known <;> cases known
      decide
  have second := first.update (show twoLoops 1 = some ⟨1, "j", 4, 1⟩ from rfl) (k := 1) (by decide)
  have := sound .equals equals (by decide) State.zero _ _ rfl ⟨first, second, by simp, rfl⟩
  exact absurd this (by decide)

end Bistra
