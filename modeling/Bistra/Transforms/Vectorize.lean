import Bistra.Semantics.Footprint
import Bistra.Transforms.Widen

/-! # Vectorization

`vectorize` of `Transforms.cpp`: the stores that use the index of the loop write `vf` cells at
once, what they store is computed in the lanes of a vector, and the stride becomes `vf`.  The
accesses are classified by the subscripts that use the index, but the distance between the
cells of two iterations is not computed.
-/

namespace Bistra

variable {F : Type}

inductive IndexAccessKind where
  | uniform | consecutive | other
  deriving DecidableEq

def getIndexAccessKind (L : LoopId) : Expr F → IndexAccessKind
  | .index loop _ => if loop = L then .consecutive else .uniform
  | .binary kind lhs rhs =>
    let LK := getIndexAccessKind L lhs
    let RK := getIndexAccessKind L rhs
    match kind with
    -- The case of a product falls through to the one of a sum.
    | .mul | .add =>
      if LK = .uniform ∧ RK = .uniform then .uniform
      else if LK = .other ∨ RK = .other then .other
      else .consecutive
    | _ => if LK = .uniform ∧ RK = .uniform then .uniform else .other
  | .const _ | .constFP _ => .uniform
  | _ => .other

def mayVectorizeLoadStoreAccess (L : LoopId) : List (Expr F) → Bool
  | [] => true
  | [last] => getIndexAccessKind L last ≠ .other
  | e :: es => getIndexAccessKind L e = .uniform && mayVectorizeLoadStoreAccess L es

def mayVectorizeExpr (L : LoopId) (e : Expr F) : Bool :=
  e.collectLoads.all fun ld => mayVectorizeLoadStoreAccess L ld.indices

def mayVectorizeStore (L : LoopId) : Stmt F → Bool
  | .store _ indices value _ =>
    !value.getType.isVector && mayVectorizeExpr L value && mayVectorizeLoadStoreAccess L indices
  | _ => true

/-- `vectorizeExpr`.  `none` is the assertion at its end. -/
def vectorizeExpr (L : LoopId) (vf : VecWidth) : Expr F → Option (Expr F)
  | .index loop type => some (if loop = L then .index L ⟨.indexTy, vf⟩ else .index loop type)
  | .binary kind lhs rhs =>
    (vectorizeExpr L vf lhs).bind fun VL =>
      (vectorizeExpr L vf rhs).map fun VR =>
        -- Broadcast one side if the other is a vector.
        if VL.getType.isVector && !VR.getType.isVector then .binary kind VL (.broadcast VR vf)
        else if !VL.getType.isVector && VR.getType.isVector then .binary kind (.broadcast VL vf) VR
        else .binary kind VL VR
  | .unary kind val => (vectorizeExpr L vf val).map (.unary kind)
  | .load arg indices type =>
    if (Expr.load arg indices type : Expr F).dependsOnLoop L then
      some (.load arg indices ⟨type.elementType, vf⟩)
    else some (.load arg indices type)
  | .const val => some (.const val)
  | .constFP val => some (.constFP val)
  | .loadLocal var type => some (.loadLocal var type)
  | _ => none

def vectorizeStore (L : LoopId) (vf : VecWidth) : Stmt F → Option (Stmt F)
  | .store arg indices value accumulate =>
    (vectorizeExpr L vf value).map fun val =>
      .store arg indices (if val.getType.isVector then val else .broadcast val vf) accumulate
  | S => some S

def vectorizeLeaf (vf : VecWidth) (L : LoopId) (S : Stmt F) : List (Stmt F) :=
  if S.usesIndex L then [(vectorizeStore L vf S).getD S] else [S]

def vectorizeLoop (vf : VecWidth) (header : Loop) (body : List (Stmt F)) : List (Stmt F) :=
  [.loop { header with stride := UInt32.ofNat vf.val }
    (Stmt.mapLeavesBody (vectorizeLeaf vf header.id) body)]

/-- `vectorize`, for the widths that `ExprType` accepts.  `none` is a failed assertion. -/
def vectorize (p : Program F) (L : LoopId) (vf : VecWidth) : Option (Program F × Option LoopId) :=
  match p.findLoop L with
  | none => none
  | some (header, body) =>
    let width := UInt32.ofNat vf.val
    let stmts := Stmt.collectStmtsBody body
    let stores := stmts.filter fun S => !S.isScope && S.usesIndex L
    if header.end_ < width ∨ header.stride ≠ 1 then some (p, none)
    else if stmts.any fun | .call _ _ | .storeLocal _ _ _ => true | _ => false then some (p, none)
    else if !collectStoreSites L body then some (p, none)
    else if !stores.all (mayVectorizeStore L) then some (p, none)
    else if !stores.all fun S => (vectorizeStore L vf S).isSome then none
    else
      let rest := header.end_ % width
      let peeled :=
        if rest ≠ 0 then peelLoop p L (header.end_ - rest).toInt32 else some (p, some L)
      peeled.map fun (q, tailOrOrig) => (q.substLoop L (vectorizeLoop vf), tailOrOrig)

section Correctness

variable [Field F] [LinearOrder F] {M : Machine F} {L : LoopId}

/-- The last subscript grows by one from one iteration of the loop to the next. -/
def UnitStride (M : Machine F) (L : LoopId) (indices : List (Expr F)) : Prop :=
  ∀ last ∈ indices.getLast?, ∀ st env i,
    (last.eval M st (Function.update env L (i + 1)) 0).toInt =
      (last.eval M st (Function.update env L i) 0).toInt + 1

/-! ## Subscripts -/

omit [Field F] [LinearOrder F] in
theorem not_mem_of_uniform {e : Expr F} (uniform : getIndexAccessKind L e = .uniform) :
    ∀ index ∈ e.collectIndices, index.1 ≠ L := by
  induction e using Expr.inductTree with
  | index loop type =>
    simp only [getIndexAccessKind] at uniform
    split at uniform
    · cases uniform
    next differs => simpa [Expr.collectIndices] using differs
  | binary kind lhs rhs ihL ihR =>
    have both : getIndexAccessKind L lhs = .uniform ∧ getIndexAccessKind L rhs = .uniform := by
      cases kind <;> simp only [getIndexAccessKind] at uniform <;> split at uniform <;>
        first
        | assumption
        | cases uniform
        | (split at uniform <;> cases uniform)
    intro index mem
    cases List.mem_append.mp mem with
    | inl left => exact ihL both.1 index left
    | inr right => exact ihR both.2 index right
  | const | constFP => intro index mem; cases mem
  | constString | unary | broadcast | gep | load | loadLocal => cases uniform

theorem eval_of_ne_other {e : Expr F} (known : getIndexAccessKind L e ≠ .other) (st st' : State F)
    (env : Env) : e.eval M st env = e.eval M st' env := by
  induction e using Expr.inductTree with
  | index | const | constFP => rfl
  | binary kind lhs rhs ihL ihR =>
    have both : getIndexAccessKind L lhs ≠ .other ∧ getIndexAccessKind L rhs ≠ .other := by
      constructor
      · intro left
        cases kind <;> simp [getIndexAccessKind, left] at known
      · intro right
        cases kind <;> simp [getIndexAccessKind, right] at known
    funext lane
    simp only [Expr.eval, ihL both.1, ihR both.2]
  | constString | unary | broadcast | gep | load | loadLocal => exact absurd rfl known

theorem subscripts_state {indices : List (Expr F)}
    (may : mayVectorizeLoadStoreAccess L indices = true) (st st' : State F) (env : Env) :
    Expr.subscripts M st env indices = Expr.subscripts M st' env indices := by
  induction indices with
  | nil => rfl
  | cons e es ih =>
    cases es with
    | nil =>
      simp only [mayVectorizeLoadStoreAccess, decide_eq_true_eq] at may
      simp only [Expr.subscripts, eval_of_ne_other may st st']
    | cons e' es =>
      simp only [mayVectorizeLoadStoreAccess, Bool.and_eq_true, decide_eq_true_eq] at may
      have known : getIndexAccessKind L e ≠ .other := by simp [may.1]
      show (e.eval M st env 0).toInt :: Expr.subscripts M st env (e' :: es) =
        (e.eval M st' env 0).toInt :: Expr.subscripts M st' env (e' :: es)
      rw [eval_of_ne_other known st st', ih may.2]

/-- The cells of `k` iterations later are `k` places further. -/
theorem subscripts_shift {indices : List (Expr F)}
    (may : mayVectorizeLoadStoreAccess L indices = true) (unit : UnitStride M L indices)
    (st : State F) (env : Env) (k : Nat) :
    Expr.subscripts M st (Function.update env L (env L + k)) indices =
      cellAt (Expr.subscripts M st env indices) k := by
  induction indices with
  | nil => rfl
  | cons e es ih =>
    cases es with
    | nil =>
      -- The last subscript grows by one with each iteration; the other ones do not use the index.
      have steps : ∀ k : Nat, (e.eval M st (Function.update env L (env L + k)) 0).toInt =
          (e.eval M st env 0).toInt + k := by
        intro k
        induction k with
        | zero => simp
        | succ k ihk =>
          have step := unit e (by simp) st env (env L + k)
          rw [ihk] at step
          rw [Nat.cast_succ, ← add_assoc, step, add_assoc]
      simp only [Expr.subscripts, cellAt, steps]
    | cons e' es =>
      simp only [mayVectorizeLoadStoreAccess, Bool.and_eq_true, decide_eq_true_eq] at may
      have same : e.eval M st (Function.update env L (env L + k)) = e.eval M st env := by
        apply Expr.eval_congr
        intro index mem
        exact Function.update_of_ne (not_mem_of_uniform may.1 index mem) _ _
      have rest := ih may.2 (fun last mem => unit last (by simpa using mem))
      show _ :: Expr.subscripts M st (Function.update env L (env L + k)) (e' :: es) =
        cellAt (_ :: Expr.subscripts M st env (e' :: es)) k
      rw [same, rest]
      rfl

/-! ## Values -/

/-- The lanes of a vectorized expression are its values in consecutive iterations; an
expression that stays scalar has one value in all of them. -/
theorem vectorizeExpr_eval {decls : Decls} {scope : List LoopId} {vf : VecWidth}
    (wide : 1 < vf.val) {e : Expr F} : ∀ {V : Expr F}, e.verify decls scope = true →
    e.getType.isVector = false → vectorizeExpr L vf e = some V →
    (∀ ld ∈ e.collectLoads, mayVectorizeLoadStoreAccess L ld.indices = true) →
    (∀ ld ∈ e.collectLoads, ld.indices.any (Expr.dependsOnLoop L) = true →
      UnitStride M L ld.indices) → ∀ st env,
    (V.getType.isVector = true → V.getType = ⟨e.getType.elementType, vf⟩ ∧
      ∀ k : Nat, V.eval M st env k = e.eval M st (Function.update env L (env L + k)) 0) ∧
    (V.getType.isVector = false → V.getType = e.getType ∧
      ∀ k : Nat, V.eval M st env 0 = e.eval M st (Function.update env L (env L + k)) 0) := by
  have vector : ∀ kind : ElemKind, ExprType.isVector ⟨kind, vf⟩ = true := by
    intro kind
    simp only [ExprType.isVector, ne_eq, decide_not, Bool.not_eq_true', decide_eq_false_iff_not]
    omega
  induction e using Expr.inductTree with
  | index loop type =>
    intro V verified scalar result _ _ st env
    simp only [vectorizeExpr, Option.some.injEq] at result
    subst result
    have index := ExprType.eq_scalar_of_not_isVector scalar
    simp only [Expr.getType] at scalar index
    simp only [Expr.verify, Bool.and_eq_true, ExprType.isIndexTy, decide_eq_true_eq] at verified
    split
    -- The index of the loop itself becomes a vector that counts up; other indices are the same in
    -- all lanes.
    next hit =>
      refine ⟨fun _ => ⟨?_, fun k => ?_⟩, fun other => ?_⟩
      · rw [Expr.getType, Expr.getType, verified.1]
      · simp [Expr.eval, vector, scalar, hit]
      · rw [Expr.getType, vector] at other
        cases other
    next miss =>
      refine ⟨fun other => ?_, fun _ => ⟨rfl, fun k => ?_⟩⟩
      · rw [Expr.getType, scalar] at other
        cases other
      · simp [Expr.eval, Function.update_of_ne miss]
  | const val | constFP val =>
    intro V _ _ result _ _ st env
    cases result
    exact ⟨fun other => (by cases other), fun _ => ⟨rfl, fun k => rfl⟩⟩
  | loadLocal var type =>
    intro V _ scalar result _ _ st env
    cases result
    refine ⟨fun other => ?_, fun _ => ⟨rfl, fun k => rfl⟩⟩
    rw [scalar] at other
    cases other
  | constString | gep | broadcast =>
    intro V _ _ result _ _ st env
    cases result
  | unary kind val ih =>
    intro V verified scalar result may unit st env
    simp only [vectorizeExpr] at result
    obtain ⟨V', inner, rfl⟩ := Option.map_eq_some_iff.mp result
    obtain ⟨lanes, single⟩ := ih verified scalar inner may unit st env
    simp only [Expr.getType, Expr.eval]
    refine ⟨fun isVector => ?_, fun isScalar => ?_⟩
    · exact ⟨(lanes isVector).1, fun k => by rw [(lanes isVector).2 k]⟩
    · exact ⟨(single isScalar).1, fun k => by rw [(single isScalar).2 k]⟩
  | load arg indices type _ =>
    intro V _ scalar result may unit st env
    simp only [Expr.collectLoads, List.mem_cons] at may unit
    have access := may ⟨arg, indices, type⟩ (.inl rfl)
    simp only [vectorizeExpr] at result
    split at result
    -- A load that uses the index takes consecutive cells, which are those of the next iterations.
    next uses =>
      cases result
      have used : indices.any (Expr.dependsOnLoop L) = true := by
        simpa [Expr.dependsOnLoop, Expr.collectIndices] using uses
      refine ⟨fun _ => ⟨rfl, fun k => ?_⟩, fun other => ?_⟩
      · simp only [Expr.eval]
        rw [subscripts_shift access (unit ⟨arg, indices, type⟩ (.inl rfl) used), cellAt_zero]
      · rw [Expr.getType, vector] at other
        cases other
    -- A load that does not use the index is the same in all iterations.
    next unused =>
      cases result
      refine ⟨fun other => ?_, fun _ => ⟨rfl, fun k => ?_⟩⟩
      · rw [scalar] at other
        cases other
      · have absent : ∀ index ∈ (Expr.load arg indices type : Expr F).collectIndices,
            index.1 ≠ L := by
          simpa only [Expr.dependsOnLoop, List.any_eq_true, decide_eq_true_eq, not_exists,
            not_and] using unused
        rw [Expr.eval_congr fun index mem => Function.update_of_ne (absent index mem) _ _]
  | binary kind lhs rhs ihL ihR =>
    intro V verified scalar result may unit st env
    simp only [Expr.verify, Bool.and_eq_true, decide_eq_true_eq] at verified
    simp only [Expr.collectLoads, List.mem_append] at may unit
    simp only [vectorizeExpr] at result
    obtain ⟨VL, resultL, result⟩ := Option.bind_eq_some_iff.mp result
    obtain ⟨VR, resultR, rfl⟩ := Option.map_eq_some_iff.mp result
    have scalarR : rhs.getType.isVector = false := verified.1.1 ▸ scalar
    obtain ⟨lanesL, singleL⟩ := ihL verified.1.2 scalar resultL (fun ld mem => may ld (.inl mem))
      (fun ld mem => unit ld (.inl mem)) st env
    obtain ⟨lanesR, singleR⟩ := ihR verified.2 scalarR resultR (fun ld mem => may ld (.inr mem))
      (fun ld mem => unit ld (.inr mem)) st env
    -- An operand that stays scalar is broadcast if the other one is a vector.
    cases isL : VL.getType.isVector with
    | true =>
      obtain ⟨typeL, valueL⟩ := lanesL isL
      refine ⟨fun _ => ?_, fun other => ?_⟩
      · cases isR : VR.getType.isVector with
        | true =>
          refine ⟨by simpa [Expr.getType] using typeL, fun k => ?_⟩
          simp [Expr.eval, valueL k, (lanesR isR).2 k]
        | false =>
          refine ⟨by simpa [Expr.getType] using typeL, fun k => ?_⟩
          simp [Expr.eval, valueL k, (singleR isR).2 k]
      · cases isR : VR.getType.isVector <;> simp [isR, Expr.getType, isL] at other
    | false =>
      obtain ⟨typeL, valueL⟩ := singleL isL
      cases isR : VR.getType.isVector with
      | true =>
        refine ⟨fun _ => ⟨by simp [Expr.getType, typeL], fun k => ?_⟩, fun other => ?_⟩
        · simp [Expr.eval, valueL k, (lanesR isR).2 k]
        · simp [Expr.getType, vector] at other
      | false =>
        refine ⟨fun other => ?_, fun _ => ⟨by simpa [Expr.getType] using typeL, fun k => ?_⟩⟩
        · simp [Expr.getType, isL] at other
        · simp [Expr.eval, valueL k, (singleR isR).2 k]

/-! ## Stores -/

/-- The scalar stores of a block of iterations, when none of them changes what another one
stores. -/
theorem run_stores {arg : ArgId} {indices : List (Expr F)} {value : Expr F} {accumulate : Bool}
    (present : indices ≠ []) (scalar : value.getType.isVector = false)
    (may : mayVectorizeLoadStoreAccess L indices = true) (unit : UnitStride M L indices)
    {env : Env} {vf : Nat}
    (stable : ∀ i ∈ iterationBlock vf 1 (env L), ∀ j ∈ iterationBlock vf 1 (env L), i ≠ j → ∀ st,
      value.eval M ((Stmt.store arg indices value accumulate).exec M (Function.update env L i) st)
          (Function.update env L j) 0 = value.eval M st (Function.update env L j) 0)
    (st : State F) : ∀ n ≤ vf,
    Schedule.run
        (fun i => (Stmt.store arg indices value accumulate).exec M (Function.update env L i))
        (iterationBlock n 1 (env L)) st =
      st.writeLanes arg (Expr.subscripts M st env indices) n
        (st.storedLanes M arg (Expr.subscripts M st env indices) value.getType accumulate
          fun k => value.eval M st (Function.update env L (env L + k)) 0) := by
  have nonempty : Expr.subscripts M st env indices ≠ [] := by simpa using present
  have width : value.getType.width.val = 1 := by
    rw [ExprType.eq_scalar_of_not_isVector scalar]
    rfl
  have member : ∀ n < vf, env L + (n : Int) ∈ iterationBlock vf 1 (env L) := by
    intro n below
    simp only [iterationBlock, List.mem_map, List.mem_range]
    exact ⟨n, below, by simp⟩
  intro n
  induction n with
  | zero =>
    intro _
    simp [iterationBlock, State.writeLanes, laneOf]
  | succ n ih =>
    intro below
    have earlier := ih (by omega)
    have blocks : iterationBlock (n + 1) 1 (env L) =
        iterationBlock n 1 (env L) ++ [env L + (n : Int)] := by
      simp [iterationBlock, List.range_succ]
    -- The earlier stores leave the value that is stored next.
    have kept : value.eval M (Schedule.run
        (fun i => (Stmt.store arg indices value accumulate).exec M (Function.update env L i))
        (iterationBlock n 1 (env L)) st) (Function.update env L (env L + n)) 0 =
          value.eval M st (Function.update env L (env L + n)) 0 := by
      apply Schedule.run_invariant (fun st' =>
        value.eval M st' (Function.update env L (env L + n)) 0 =
          value.eval M st (Function.update env L (env L + n)) 0) _ rfl
      intro i mem st' same
      obtain ⟨k, belowK, rfl⟩ := List.mem_map.mp mem
      have lessK := List.mem_range.mp belowK
      rw [← same]
      apply stable _ _ _ (member n (by omega))
      · omega
      · simpa using member k (by omega)
    rw [blocks, Schedule.run_append, Schedule.run_singleton, Stmt.exec, State.store, width,
      subscripts_state may _ st, subscripts_shift may unit st env n]
    rw [earlier] at kept ⊢
    apply State.writeLanes_succ nonempty
    simp only [State.storedLanes, kept, cellAt_zero]
    rw [State.writeLanes_bufs_next nonempty (le_refl n)]

/-- The vector store does what the scalar store does in a block of iterations. -/
theorem exec_vectorizeStore {decls : Decls} {scope : List LoopId} {vf : VecWidth}
    (wide : 1 < vf.val) {arg : ArgId} {indices : List (Expr F)} {value : Expr F}
    {accumulate : Bool} {V : Stmt F}
    (verified : (Stmt.store arg indices value accumulate).verify decls scope = true)
    (may : mayVectorizeStore L (Stmt.store arg indices value accumulate) = true)
    (vectorized : vectorizeStore L vf (Stmt.store arg indices value accumulate) = some V)
    (unit : UnitStride M L indices)
    (unitLoads : ∀ ld ∈ value.collectLoads, ld.indices.any (Expr.dependsOnLoop L) = true →
      UnitStride M L ld.indices)
    {env : Env}
    (stable : ∀ i ∈ iterationBlock vf.val 1 (env L), ∀ j ∈ iterationBlock vf.val 1 (env L), i ≠ j →
      ∀ st, value.eval M
          ((Stmt.store arg indices value accumulate).exec M (Function.update env L i) st)
          (Function.update env L j) 0 = value.eval M st (Function.update env L j) 0)
    (st : State F) :
    V.exec M env st = Schedule.run
      (fun i => (Stmt.store arg indices value accumulate).exec M (Function.update env L i))
      (iterationBlock vf.val 1 (env L)) st := by
  simp only [mayVectorizeStore, mayVectorizeExpr, Bool.and_eq_true, Bool.not_eq_true',
    List.all_eq_true] at may
  obtain ⟨⟨scalar, loads⟩, access⟩ := may
  simp only [Stmt.verify, Bool.and_eq_true] at verified
  have present : indices ≠ [] := by
    intro none
    have declared := verified.1.2
    simp only [none, Decls.verifyAccess, List.length_nil] at declared
    split at declared <;> simp at declared
  simp only [vectorizeStore] at vectorized
  obtain ⟨val, result, rfl⟩ := Option.map_eq_some_iff.mp vectorized
  obtain ⟨lanes, single⟩ := vectorizeExpr_eval wide verified.2 scalar result loads unitLoads st env
  rw [run_stores present scalar access unit stable st vf.val (le_refl _)]
  -- A value that stays scalar is broadcast to the lanes of the store.
  cases isVector : val.getType.isVector with
  | true =>
    obtain ⟨type, eval⟩ := lanes isVector
    rw [if_pos rfl, Stmt.exec, State.store, type]
    apply State.writeLanes_congr
    intro k _
    simp only [State.storedLanes, eval]
  | false =>
    obtain ⟨type, eval⟩ := single isVector
    rw [if_neg (by simp), Stmt.exec, State.store, Expr.getType, type]
    apply State.writeLanes_congr
    intro k _
    simp only [State.storedLanes, Expr.eval]
    rw [eval k]

/-! ## The loop -/

/-- What the vectorized loop must not meet: stores and loads whose cells are not consecutive,
vector indices in a tail that is copied, stores that it does less often although this makes a
difference, stores that change what another iteration of the block stores, and parts of the
body that change their order although they do not commute. -/
structure VectorSafe (M : Machine F) (p : Program F) (vf : Nat) (header : Loop)
    (body : List (Stmt F)) : Prop where
  unit : ∀ arg indices value accumulate,
    Stmt.store arg indices value accumulate ∈ Stmt.collectStmtsBody body →
    (Stmt.store arg indices value accumulate).usesIndex header.id = true →
    UnitStride M header.id indices ∧ ∀ ld ∈ value.collectLoads,
      ld.indices.any (Expr.dependsOnLoop header.id) = true → UnitStride M header.id ld.indices
  scalarTail : ¬ vf ∣ header.end_.toNat → Stmt.AllScalar body
  repeats : ∀ S ∈ Stmt.collectStmtsBody body, S.isScope = false → S.usesIndex header.id = false →
    ∀ env, p.Reachable env → ∀ st, S.exec M env (S.exec M env st) = S.exec M env st
  stable : ∀ arg indices value accumulate,
    Stmt.store arg indices value accumulate ∈ Stmt.collectStmtsBody body →
    (Stmt.store arg indices value accumulate).usesIndex header.id = true →
    ∀ env, p.Reachable env → ∀ n, (n + 1) * vf ≤ header.end_.toNat →
    ∀ i ∈ iterationBlock vf 1 (n * vf : Nat), ∀ j ∈ iterationBlock vf 1 (n * vf : Nat), i ≠ j →
    ∀ st, value.eval M ((Stmt.store arg indices value accumulate).exec M
        (Function.update env header.id i) st) (Function.update env header.id j) 0 =
      value.eval M st (Function.update env header.id j) 0
  merge : ∀ env, p.Reachable env → ∀ n, (n + 1) * vf ≤ header.end_.toNat →
    Stmt.MergeableBody M header.id (iterationBlock vf 1 (n * vf : Nat)) env body

omit [Field F] [LinearOrder F] in
theorem vectorize_eq_some {p p' : Program F} {T : LoopId} {vf : VecWidth} {header : Loop}
    {body : List (Stmt F)} (found : p.findLoop L = some (header, body))
    (vectorized : vectorize p L vf = some (p', some T)) :
    vf.val ≤ header.end_.toNat ∧ header.stride = 1 ∧ collectStoreSites L body = true ∧
      (∀ S ∈ Stmt.collectStmtsBody body, S.isScope = false → S.usesIndex L = true →
        mayVectorizeStore L S = true ∧ ∃ V, vectorizeStore L vf S = some V) ∧
      ((header.end_ % UInt32.ofNat vf.val = 0 ∧ p' = p.substLoop L (vectorizeLoop vf)) ∨
        header.end_ % UInt32.ofNat vf.val ≠ 0 ∧ ∃ q,
          peelLoop p L (header.end_ - header.end_ % UInt32.ofNat vf.val).toInt32 =
            some (q, some T) ∧ p' = q.substLoop L (vectorizeLoop vf)) := by
  have small := vf.property.2
  have width : (UInt32.ofNat vf.val).toNat = vf.val := by
    rw [UInt32.toNat_ofNat', Nat.mod_eq_of_lt (by omega)]
  simp only [vectorize, found] at vectorized
  split at vectorized
  · simp at vectorized
  next shape =>
  split at vectorized
  · simp at vectorized
  split at vectorized
  · simp at vectorized
  next sites =>
  split at vectorized
  · simp at vectorized
  next may =>
  split at vectorized
  · cases vectorized
  next defined =>
  obtain ⟨⟨q, tail⟩, peeled, same⟩ := Option.map_eq_some_iff.mp vectorized
  cases same
  simp only [not_or, UInt32.lt_iff_toNat_lt, not_lt, not_not, width] at shape
  simp only [Bool.not_eq_true', Bool.not_eq_false, List.all_eq_true, List.mem_filter,
    Bool.and_eq_true] at may defined sites
  refine ⟨shape.1, shape.2, sites, fun S mem leaf uses => ?_, ?_⟩
  · exact ⟨may S ⟨mem, leaf, uses⟩, Option.isSome_iff_exists.mp (defined S ⟨mem, leaf, uses⟩)⟩
  -- A tail that is no whole block is peeled off first.
  · split at peeled
    next part => exact .inr ⟨part, q, peeled, rfl⟩
    next whole =>
      cases peeled
      exact .inl ⟨not_not.mp whole, rfl⟩

/-- The vectorized loop runs the iterations of the loop, when its range is made of whole
blocks. -/
theorem exec_vectorizeLoop {p : Program F} {vf : VecWidth} {e : UInt32} {header : Loop}
    {body : List (Stmt F)} (verified : p.verify = true) (mem : (header, body) ∈ p.collectLoops)
    (wide : 1 < vf.val) (unitStride : header.stride = 1)
    (sites : collectStoreSites header.id body = true)
    (stores : ∀ S ∈ Stmt.collectStmtsBody body, S.isScope = false → S.usesIndex header.id = true →
      mayVectorizeStore header.id S = true ∧ ∃ V, vectorizeStore header.id vf S = some V)
    (safe : VectorSafe M p vf.val header body) (whole : vf.val ∣ e.toNat)
    (inside : e.toNat ≤ header.end_.toNat) {env : Env} (reach : p.Reachable env) (st : State F) :
    Stmt.execBody M env (vectorizeLoop vf { header with end_ := e } body) st =
      (Stmt.loop { header with end_ := e } body).exec M env st := by
  have small := vf.property.2
  have width : (UInt32.ofNat vf.val).toNat = vf.val := by
    rw [UInt32.toNat_ofNat', Nat.mod_eq_of_lt (by omega)]
  have one : header.stride.toNat = 1 := by rw [unitStride]; rfl
  have merge := safe.merge
  apply Program.exec_mergedLoop vf.val verified mem (by omega) (by rw [width, one, Nat.one_mul])
    (collectStoreSites_guard sites) (by rwa [one, Nat.one_mul]) inside
    (by simpa only [one, Nat.one_mul] using merge) _ reach
  intro t memT leaf env reach n fits start st
  simp only [one, Nat.one_mul] at fits start ⊢
  -- A leaf that uses the index is a store that becomes a vector; another one is done once for the
  -- block, so it has to be one that may be repeated.
  cases uses : t.usesIndex header.id with
  | true =>
    obtain ⟨may, V, vectorized⟩ := stores t memT leaf uses
    obtain ⟨arg, indices, value, accumulate, rfl⟩ := collectStoreSites_leaf sites memT uses
    obtain ⟨unit, unitLoads⟩ := safe.unit arg indices value accumulate memT uses
    obtain ⟨scope, verifiedT⟩ := Program.verify_stmt verified mem memT
    rw [vectorizeLeaf, if_pos uses, vectorized, Option.getD_some, Stmt.execBody_singleton]
    apply exec_vectorizeStore wide verifiedT may vectorized unit unitLoads
    rw [start]
    exact safe.stable arg indices value accumulate memT uses env reach n fits
  | false =>
    have nonempty : iterationBlock vf.val 1 (env header.id) ≠ [] := by
      simp only [iterationBlock, ne_eq, List.map_eq_nil_iff, List.range_eq_nil]
      omega
    rw [vectorizeLeaf, uses, if_neg (by simp), Stmt.execBody_singleton,
      ← Schedule.run_repeat (safe.repeats t memT leaf uses env reach) nonempty]
    exact Schedule.run_congr (fun i _ st => (Stmt.exec_update leaf uses env i st).symm) st

end Correctness

def VecWidth.four : VecWidth := ⟨4, VecWidth.fits_four⟩

/-- `for (i in 0 .. 8) T[0] += X[i]` -/
def sumUp : Program ℚ where
  name := "sum_up"
  args := [⟨"T", ⟨[4], ["x"], .float32Ty, oneDim⟩⟩, ⟨"X", ⟨[8], ["x"], .float32Ty, oneDim⟩⟩]
  vars := []
  body := [.loop ⟨0, "i", 8, 1⟩
    [.store 0 [.const 0] (.load 1 [.indexOf 0] (.scalar .float32Ty)) true]]

theorem anyOrder_sumUp (M : Machine ℚ) : Loop.AnyOrder M ⟨0, "i", 8, 1⟩
    [.store 0 [.const 0] (.load 1 [.indexOf 0] (.scalar .float32Ty)) true] := by
  intro env order perm st
  refine (Schedule.run_perm perm (fun i _ j _ => ?_) st).symm
  have verified : (Stmt.store 0 [.const 0] (.load 1 [.indexOf 0] (.scalar .float32Ty)) true :
      Stmt ℚ).verify sumUp.decls [0] = true := by decide
  apply Stmt.Independent.commute verified verified rfl rfl
  -- The sum is in `T`, the terms are in `X`.
  have unread : ∀ i j, Stmt.Unread M
      (.store 0 [.const 0] (.load 1 [.indexOf 0] (.scalar .float32Ty)) true) (Function.update env 0 i)
      (.store 0 [.const 0] (.load 1 [.indexOf 0] (.scalar .float32Ty)) true)
      (Function.update env 0 j) := by
    intro i j
    refine ⟨fun st w memW r memR buf cell touchesW touchesR => ?_, fun var none => by cases none⟩
    cases List.mem_singleton.mp memW
    cases List.mem_singleton.mp memR
    cases touchesW.1.symm.trans touchesR.1
  refine ⟨unread i j, unread j i, .inl ⟨rfl, rfl⟩, fun var none => ?_, .inl rfl⟩
  cases none

end Bistra
