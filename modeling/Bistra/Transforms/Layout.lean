import Mathlib.Algebra.Order.Field.Rat
import Mathlib.Data.List.FinRange
import Bistra.Program.Verify
import Bistra.Semantics.Exec

/-! # The layout of a buffer

`changeLayout` of `Transforms.cpp`: the dimensions of an argument change places, in its type and in
the subscripts of every load and store of the argument.
-/

namespace Bistra

variable {F : Type}

/-! ## Swizzling -/

section Swizzle

variable {α β : Type} {n : Nat}

/-- `swizzle`: the elements in the order of `shuffle`. -/
def swizzle (elems : List α) (shuffle : List Nat) : List α := shuffle.filterMap (elems[·]?)

/-- `swizzle` moves every element once, and its assertion holds. -/
def canSwizzle (numElems : Nat) (shuffle : List Nat) : Bool :=
  decide (numElems = shuffle.length) && shuffle.all (· < numElems) && decide shuffle.Nodup

/-- The vector that stands for a permutation. -/
def shuffleOf (σ : Equiv.Perm (Fin n)) : List Nat := List.ofFn fun i => (σ i).val

@[simp] theorem length_shuffleOf (σ : Equiv.Perm (Fin n)) : (shuffleOf σ).length = n :=
  List.length_ofFn

theorem canSwizzle_shuffleOf (σ : Equiv.Perm (Fin n)) : canSwizzle n (shuffleOf σ) = true := by
  simp only [canSwizzle, length_shuffleOf, decide_true, Bool.true_and, Bool.and_eq_true,
    List.all_eq_true, decide_eq_true_eq]
  constructor
  · intro i mem
    obtain ⟨k, rfl⟩ := (List.mem_ofFn' _ _).mp mem
    exact (σ k).isLt
  · exact List.nodup_ofFn.mpr (Fin.val_injective.comp σ.injective)

theorem swizzle_map (f : α → β) (elems : List α) (shuffle : List Nat) :
    swizzle (elems.map f) shuffle = (swizzle elems shuffle).map f := by
  simp [swizzle, List.map_filterMap, List.getElem?_map]

theorem mem_of_mem_swizzle {elems : List α} {shuffle : List Nat} {a : α}
    (mem : a ∈ swizzle elems shuffle) : a ∈ elems := by
  obtain ⟨i, -, found⟩ := List.mem_filterMap.mp mem
  exact List.mem_of_getElem? found

theorem swizzle_ofFn (v : Fin n → α) (σ : Equiv.Perm (Fin n)) :
    swizzle (List.ofFn v) (shuffleOf σ) = List.ofFn (v ∘ σ) := by
  have found : ∀ i : Fin n, (List.ofFn v)[(σ i).val]? = some (v (σ i)) := by
    intro i
    rw [List.getElem?_ofFn, dif_pos (σ i).isLt]
  rw [swizzle, shuffleOf, List.ofFn_eq_map (f := fun i => (σ i).val), List.filterMap_map,
    List.ofFn_eq_map (f := v ∘ σ), ← List.filterMap_eq_map]
  exact List.filterMap_congr fun i _ => found i

theorem exists_ofFn {elems : List α} (length : elems.length = n) :
    ∃ v : Fin n → α, elems = List.ofFn v := by
  subst length
  exact ⟨elems.get, (List.ofFn_get elems).symm⟩

@[simp] theorem length_swizzle {elems : List α} (length : elems.length = n)
    (σ : Equiv.Perm (Fin n)) : (swizzle elems (shuffleOf σ)).length = n := by
  obtain ⟨v, rfl⟩ := exists_ofFn length
  rw [swizzle_ofFn, List.length_ofFn]

theorem swizzle_symm {elems : List α} (length : elems.length = n) (σ : Equiv.Perm (Fin n)) :
    swizzle (swizzle elems (shuffleOf σ)) (shuffleOf σ.symm) = elems := by
  obtain ⟨v, rfl⟩ := exists_ofFn length
  rw [swizzle_ofFn, swizzle_ofFn]
  congr 1
  funext i
  simp

end Swizzle

/-- The type with its dimensions in the order of `shuffle`. -/
def TensorType.swizzle (type : TensorType) (shuffle : List Nat) : TensorType where
  sizes := Bistra.swizzle type.sizes shuffle
  names := Bistra.swizzle type.names shuffle
  elementType := type.elementType
  namesLength := by
    have same : ∀ i : Nat, type.names[i]? = none ↔ type.sizes[i]? = none := by
      simp [type.namesLength]
    induction shuffle with
    | nil => rfl
    | cons i rest ih =>
      have first := same i
      simp only [Bistra.swizzle, List.filterMap_cons] at ih ⊢
      cases names : type.names[i]? with
      | none => rw [first.mp names, ih]
      | some _ =>
        cases sizes : type.sizes[i]? with
        | none => simp [first.mpr sizes] at names
        | some _ => simp only [List.length_cons, ih]

@[simp] theorem TensorType.elementType_swizzle (type : TensorType) (shuffle : List Nat) :
    (type.swizzle shuffle).elementType = type.elementType := rfl

/-! ## Changing the layout -/

mutual

/-- The loads of the argument in an expression, with their subscripts in the order of `shuffle`. -/
def Expr.swizzleLoads (arg : ArgId) (shuffle : List Nat) : Expr F → Expr F
  | .binary kind lhs rhs => .binary kind (lhs.swizzleLoads arg shuffle) (rhs.swizzleLoads arg shuffle)
  | .unary kind val => .unary kind (val.swizzleLoads arg shuffle)
  | .broadcast val vf => .broadcast (val.swizzleLoads arg shuffle) vf
  | .gep dest indices => .gep dest (Expr.swizzleLoadsList arg shuffle indices)
  | .load dest indices type =>
    let ids := Expr.swizzleLoadsList arg shuffle indices
    .load dest (if dest = arg then swizzle ids shuffle else ids) type
  | e => e

def Expr.swizzleLoadsList (arg : ArgId) (shuffle : List Nat) : List (Expr F) → List (Expr F)
  | [] => []
  | e :: es => e.swizzleLoads arg shuffle :: Expr.swizzleLoadsList arg shuffle es

end

mutual

/-- The loads and stores of the argument in a statement, with swizzled subscripts. -/
def Stmt.swizzleAccesses (arg : ArgId) (shuffle : List Nat) : Stmt F → Stmt F
  | .loop header body => .loop header (Stmt.swizzleAccessesBody arg shuffle body)
  | .ifRange val start end_ body =>
    .ifRange (val.swizzleLoads arg shuffle) start end_ (Stmt.swizzleAccessesBody arg shuffle body)
  | .call name params => .call name (params.map (Expr.swizzleLoads arg shuffle))
  | .store dest indices value accumulate =>
    let ids := indices.map (Expr.swizzleLoads arg shuffle)
    .store dest (if dest = arg then swizzle ids shuffle else ids) (value.swizzleLoads arg shuffle)
      accumulate
  | .storeLocal var value accumulate => .storeLocal var (value.swizzleLoads arg shuffle) accumulate

def Stmt.swizzleAccessesBody (arg : ArgId) (shuffle : List Nat) : List (Stmt F) → List (Stmt F)
  | [] => []
  | s :: rest => s.swizzleAccesses arg shuffle :: Stmt.swizzleAccessesBody arg shuffle rest

end

/-- `collectLoadStores`: the accesses of an argument. -/
def Program.collectLoadStores (p : Program F) (arg : ArgId) : List (Access F) :=
  (p.body.flatMap Stmt.collectStmts).flatMap fun s =>
    (s.stores ++ s.loads).filter (·.arg = arg)

/-- `changeLayout`.  `none` is an argument that does not exist, or a failed assertion. -/
def changeLayout (p : Program F) (argIndex : ArgId) (shuffle : List Nat) : Option (Program F) :=
  p.args[argIndex]?.bind fun arg =>
    if canSwizzle arg.type.getNumDims shuffle &&
        (p.collectLoadStores argIndex).all (canSwizzle ·.indices.length shuffle) then
      some { p with
        args := p.args.set argIndex { arg with type := arg.type.swizzle shuffle }
        body := Stmt.swizzleAccessesBody argIndex shuffle p.body }
    else none

@[simp] theorem Expr.swizzleLoadsList_eq (arg : ArgId) (shuffle : List Nat) (es : List (Expr F)) :
    Expr.swizzleLoadsList arg shuffle es = es.map (Expr.swizzleLoads arg shuffle) := by
  induction es with
  | nil => rfl
  | cons e es ih => simp [Expr.swizzleLoadsList, ih]

@[simp] theorem Stmt.swizzleAccessesBody_eq (arg : ArgId) (shuffle : List Nat)
    (body : List (Stmt F)) :
    Stmt.swizzleAccessesBody arg shuffle body = body.map (Stmt.swizzleAccesses arg shuffle) := by
  induction body with
  | nil => rfl
  | cons s rest ih => simp [Stmt.swizzleAccessesBody, ih]

@[simp] theorem Expr.getType_swizzleLoads (arg : ArgId) (shuffle : List Nat) (e : Expr F) :
    (e.swizzleLoads arg shuffle).getType = e.getType := by
  induction e using Expr.inductTree with
  | binary kind lhs rhs ihL ihR => exact ihL
  | unary kind val ih => exact ih
  | broadcast val vf ih => rw [Expr.swizzleLoads, Expr.getType, ih, Expr.getType]
  | index | const | constFP | constString | gep | load | loadLocal => rfl

/-! ## The inverse permutation -/

section Accesses

variable {decls : Decls} {scope : List LoopId} {arg : ArgId} {n : Nat} {σ : Equiv.Perm (Fin n)}

/-- The declared buffer has `n` dimensions. -/
def Decls.HasDims (decls : Decls) (arg : ArgId) (n : Nat) : Prop :=
  ∀ decl, decls.args[arg]? = some decl → decl.type.getNumDims = n

theorem Decls.HasDims.length {numIndices : Nat} {kind : Option ElemKind} (dims : decls.HasDims arg n)
    (verified : decls.verifyAccess arg numIndices kind = true) : numIndices = n := by
  rw [Decls.verifyAccess] at verified
  split at verified
  next decl known =>
    simp only [Bool.and_eq_true, decide_eq_true_eq] at verified
    rw [← verified.1.2, dims decl known]
  next => cases verified

theorem map_map_of_inverse {α β : Type} {f : α → β} {g : β → α} {l : List α}
    (each : ∀ a ∈ l, g (f a) = a) : (l.map f).map g = l := by
  rw [List.map_map]
  exact (List.map_congr_left each).trans (List.map_id' l)

theorem swizzle_subscripts_symm {indices : List (Expr F)} (length : indices.length = n)
    (each : ∀ e ∈ indices,
      (e.swizzleLoads arg (shuffleOf σ)).swizzleLoads arg (shuffleOf σ.symm) = e) :
    swizzle ((swizzle (indices.map (Expr.swizzleLoads arg (shuffleOf σ))) (shuffleOf σ)).map
      (Expr.swizzleLoads arg (shuffleOf σ.symm))) (shuffleOf σ.symm) = indices := by
  rw [← swizzle_map, map_map_of_inverse each]
  exact swizzle_symm length σ

theorem Expr.swizzleLoads_symm (dims : decls.HasDims arg n) {e : Expr F}
    (verified : e.verify decls scope = true) :
    (e.swizzleLoads arg (shuffleOf σ)).swizzleLoads arg (shuffleOf σ.symm) = e := by
  induction e using Expr.inductTree with
  | binary kind lhs rhs ihL ihR =>
    simp only [Expr.verify, Bool.and_eq_true] at verified
    simp only [Expr.swizzleLoads, ihL verified.1.2, ihR verified.2]
  | unary kind val ih =>
    simp only [Expr.swizzleLoads, ih verified]
  | broadcast val vf ih =>
    simp only [Expr.verify, Bool.and_eq_true] at verified
    simp only [Expr.swizzleLoads, ih verified.1]
  | gep dest indices ih =>
    simp only [Expr.verify, Bool.and_eq_true, Expr.verifyIndices_eq, List.all_eq_true] at verified
    have each := fun e mem => ih e mem (verified.1 e mem).1
    simp only [Expr.swizzleLoads, Expr.swizzleLoadsList_eq]
    rw [map_map_of_inverse each]
  | load dest indices type ih =>
    simp only [Expr.verify, Bool.and_eq_true, Expr.verifyIndices_eq, List.all_eq_true] at verified
    have each := fun e mem => ih e mem (verified.1 e mem).1
    simp only [Expr.swizzleLoads, Expr.swizzleLoadsList_eq]
    -- An access of the argument is swizzled twice, another one not at all.
    by_cases here : dest = arg
    · subst here
      simp only [if_true]
      rw [swizzle_subscripts_symm (dims.length verified.2) each]
    · simp only [if_neg here]
      rw [map_map_of_inverse each]
  | index | const | constFP | constString | loadLocal => rfl

theorem Stmt.swizzleAccesses_symm (dims : decls.HasDims arg n) {s : Stmt F} :
    ∀ {scope : List LoopId}, s.verify decls scope = true →
      (s.swizzleAccesses arg (shuffleOf σ)).swizzleAccesses arg (shuffleOf σ.symm) = s := by
  induction s using Stmt.inductTree with
  | loop header body ih =>
    intro scope verified
    simp only [Stmt.verify, Bool.and_eq_true, Stmt.verifyBody_eq, List.all_eq_true] at verified
    simp only [Stmt.swizzleAccesses, Stmt.swizzleAccessesBody_eq]
    rw [map_map_of_inverse fun s mem => ih s mem (verified.2 s mem)]
  | ifRange val start end_ body ih =>
    intro scope verified
    simp only [Stmt.verify, Bool.and_eq_true, Stmt.verifyBody_eq, List.all_eq_true] at verified
    simp only [Stmt.swizzleAccesses, Stmt.swizzleAccessesBody_eq,
      Expr.swizzleLoads_symm dims verified.1.2]
    rw [map_map_of_inverse fun s mem => ih s mem (verified.2 s mem)]
  | call name params =>
    intro scope verified
    simp only [Stmt.verify, List.all_eq_true, Bool.and_eq_true] at verified
    simp only [Stmt.swizzleAccesses]
    rw [map_map_of_inverse fun e mem => Expr.swizzleLoads_symm dims (verified e mem).1]
  | store dest indices value accumulate =>
    intro scope verified
    simp only [Stmt.verify, Bool.and_eq_true, Expr.verifyIndices_eq, List.all_eq_true] at verified
    have each : ∀ e ∈ indices,
        (e.swizzleLoads arg (shuffleOf σ)).swizzleLoads arg (shuffleOf σ.symm) = e :=
      fun e mem => Expr.swizzleLoads_symm dims (verified.1.1 e mem).1
    simp only [Stmt.swizzleAccesses, Expr.swizzleLoads_symm dims verified.2]
    -- The subscripts are permuted in the stores of the argument only.
    by_cases here : dest = arg
    · subst here
      simp only [if_true]
      rw [swizzle_subscripts_symm (dims.length verified.1.2) each]
    · simp only [if_neg here]
      rw [map_map_of_inverse each]
  | storeLocal var value accumulate =>
    intro scope verified
    simp only [Stmt.verify, Bool.and_eq_true] at verified
    simp only [Stmt.swizzleAccesses, Expr.swizzleLoads_symm dims verified.2]

/-! ## The result is verified -/

/-- The declarations allow the same accesses. -/
structure Decls.Compatible (decls decls' : Decls) : Prop where
  access : ∀ dest numIndices kind,
    decls'.verifyAccess dest numIndices kind = decls.verifyAccess dest numIndices kind
  vars : decls'.vars = decls.vars

theorem Decls.Compatible.verifyLocal {decls' : Decls} (compatible : decls.Compatible decls') (var : VarId)
    (type : ExprType) : decls'.verifyLocal var type = decls.verifyLocal var type := by
  simp only [Decls.verifyLocal, Decls.isUniqued, compatible.vars]

theorem length_swizzleIndices {dest : ArgId} {indices : List (Expr F)} {kind : Option ElemKind}
    (dims : decls.HasDims arg n)
    (verified : decls.verifyAccess dest indices.length kind = true) :
    (if dest = arg then swizzle (indices.map (Expr.swizzleLoads arg (shuffleOf σ))) (shuffleOf σ)
      else indices.map (Expr.swizzleLoads arg (shuffleOf σ))).length = indices.length := by
  split
  next here =>
    subst here
    have length := dims.length verified
    rw [length_swizzle (by rw [List.length_map, length]), length]
  next => rw [List.length_map]

theorem mem_swizzleIndices {dest : ArgId} {indices : List (Expr F)} {N : Expr F}
    (mem : N ∈ if dest = arg then
        swizzle (indices.map (Expr.swizzleLoads arg (shuffleOf σ))) (shuffleOf σ)
      else indices.map (Expr.swizzleLoads arg (shuffleOf σ))) :
    ∃ e ∈ indices, e.swizzleLoads arg (shuffleOf σ) = N := by
  split at mem
  · exact List.mem_map.mp (mem_of_mem_swizzle mem)
  · exact List.mem_map.mp mem

theorem Expr.verify_swizzleLoads {decls' : Decls} (compatible : decls.Compatible decls')
    (dims : decls.HasDims arg n) {e : Expr F} (verified : e.verify decls scope = true) :
    (e.swizzleLoads arg (shuffleOf σ)).verify decls' scope = true := by
  induction e using Expr.inductTree with
  | binary kind lhs rhs ihL ihR =>
    simp only [Expr.verify, Bool.and_eq_true] at verified
    simp only [Expr.swizzleLoads, Expr.verify, Expr.getType_swizzleLoads, verified.1.1,
      ihL verified.1.2, ihR verified.2, Bool.and_self]
  | unary kind val ih => exact ih verified
  | broadcast val vf ih =>
    simp only [Expr.verify, Bool.and_eq_true] at verified
    simp only [Expr.swizzleLoads, Expr.verify, Expr.getType_swizzleLoads, ih verified.1,
      verified.2, Bool.and_self]
  | gep dest indices ih =>
    simp only [Expr.verify, Bool.and_eq_true, Expr.verifyIndices_eq, List.all_eq_true] at verified
    simp only [Expr.swizzleLoads, Expr.swizzleLoadsList_eq, Expr.verify, Bool.and_eq_true,
      Expr.verifyIndices_eq, List.all_eq_true, List.length_map, compatible.access]
    refine ⟨fun N mem => ?_, verified.2⟩
    obtain ⟨e, memE, rfl⟩ := List.mem_map.mp mem
    rw [Expr.getType_swizzleLoads]
    exact ⟨ih e memE (verified.1 e memE).1, (verified.1 e memE).2⟩
  | load dest indices type ih =>
    simp only [Expr.verify, Bool.and_eq_true, Expr.verifyIndices_eq, List.all_eq_true] at verified
    simp only [Expr.swizzleLoads, Expr.swizzleLoadsList_eq, Expr.verify, Bool.and_eq_true,
      Expr.verifyIndices_eq, List.all_eq_true, compatible.access,
      length_swizzleIndices dims verified.2]
    refine ⟨fun N mem => ?_, verified.2⟩
    obtain ⟨e, memE, rfl⟩ := mem_swizzleIndices mem
    rw [Expr.getType_swizzleLoads]
    exact ⟨ih e memE (verified.1 e memE).1, (verified.1 e memE).2⟩
  | loadLocal var type =>
    -- The new declarations only differ in the type of the argument.
    rw [Expr.swizzleLoads, Expr.verify, compatible.verifyLocal]
    · exact verified
    all_goals simp
  | index | const | constFP | constString => exact verified

theorem Stmt.verify_swizzleAccesses {decls' : Decls} (compatible : decls.Compatible decls')
    (dims : decls.HasDims arg n) {s : Stmt F} : ∀ {scope : List LoopId},
      s.verify decls scope = true →
      (s.swizzleAccesses arg (shuffleOf σ)).verify decls' scope = true := by
  induction s using Stmt.inductTree with
  | loop header body ih =>
    intro scope verified
    simp only [Stmt.verify, Bool.and_eq_true, Stmt.verifyBody_eq, List.all_eq_true] at verified
    simp only [Stmt.swizzleAccesses, Stmt.swizzleAccessesBody_eq, Stmt.verify, Bool.and_eq_true,
      Stmt.verifyBody_eq, List.all_map, List.all_eq_true]
    exact ⟨verified.1, fun s mem => ih s mem (verified.2 s mem)⟩
  | ifRange val start end_ body ih =>
    intro scope verified
    simp only [Stmt.verify, Bool.and_eq_true, Stmt.verifyBody_eq, List.all_eq_true] at verified
    simp only [Stmt.swizzleAccesses, Stmt.swizzleAccessesBody_eq, Stmt.verify, Bool.and_eq_true,
      Stmt.verifyBody_eq, List.all_map, List.all_eq_true]
    exact ⟨⟨verified.1.1, Expr.verify_swizzleLoads compatible dims verified.1.2⟩,
      fun s mem => ih s mem (verified.2 s mem)⟩
  | call name params =>
    intro scope verified
    simp only [Stmt.verify, List.all_eq_true, Bool.and_eq_true] at verified
    simp only [Stmt.swizzleAccesses, Stmt.verify, List.all_map, List.all_eq_true, Bool.and_eq_true,
      Function.comp_apply, Expr.getType_swizzleLoads]
    exact fun e mem => ⟨Expr.verify_swizzleLoads compatible dims (verified e mem).1, (verified e mem).2⟩
  | store dest indices value accumulate =>
    intro scope verified
    simp only [Stmt.verify, Bool.and_eq_true, Expr.verifyIndices_eq, List.all_eq_true] at verified
    simp only [Stmt.swizzleAccesses, Stmt.verify, Bool.and_eq_true, Expr.verifyIndices_eq,
      List.all_eq_true, compatible.access, length_swizzleIndices dims verified.1.2,
      Expr.getType_swizzleLoads]
    refine ⟨⟨fun N mem => ?_, verified.1.2⟩, Expr.verify_swizzleLoads compatible dims verified.2⟩
    obtain ⟨e, memE, rfl⟩ := mem_swizzleIndices mem
    rw [Expr.getType_swizzleLoads]
    exact ⟨Expr.verify_swizzleLoads compatible dims (verified.1.1 e memE).1, (verified.1.1 e memE).2⟩
  | storeLocal var value accumulate =>
    intro scope verified
    simp only [Stmt.verify, Bool.and_eq_true] at verified
    simp only [Stmt.swizzleAccesses, Stmt.verify, Bool.and_eq_true, Expr.getType_swizzleLoads,
      compatible.verifyLocal]
    exact ⟨verified.1, Expr.verify_swizzleLoads compatible dims verified.2⟩

/-! ## Running the result -/

variable {M : Machine F} {st st' : State F}

/-- The cells of `arg` are those of `st`, at the permuted subscripts; all else is equal. -/
structure State.Permuted (arg : ArgId) (σ : Equiv.Perm (Fin n)) (st st' : State F) : Prop where
  cells : ∀ cell, cell.length = n → st'.bufs arg (swizzle cell (shuffleOf σ)) = st.bufs arg cell
  others : ∀ dest, dest ≠ arg → st'.bufs dest = st.bufs dest
  locals : st'.locals = st.locals
  calls : st'.calls = st.calls

/-- The accesses of `arg` in a list are scalar. -/
def ScalarAccesses (arg : ArgId) (accesses : List (Access F)) : Prop :=
  ∀ access ∈ accesses, access.arg = arg → access.type.isVector = false

theorem ScalarAccesses.mono {accesses more : List (Access F)} (scalar : ScalarAccesses arg more)
    (sub : accesses ⊆ more) : ScalarAccesses arg accesses :=
  fun access mem => scalar access (sub mem)

theorem ScalarAccesses.of_mem {α : Type} {f : α → List (Access F)} {l : List α}
    (scalar : ScalarAccesses arg (l.flatMap f)) {a : α} (mem : a ∈ l) :
    ScalarAccesses arg (f a) :=
  scalar.mono fun _ memA => List.mem_flatMap.mpr ⟨a, mem, memA⟩

theorem State.Permuted.bufs_eq (related : State.Permuted arg σ st st') {dest : ArgId}
    {cell : List Int} (length : dest = arg → cell.length = n) {lane : Nat}
    (scalar : dest = arg → lane = 0) :
    st'.bufs dest (cellAt (if dest = arg then swizzle cell (shuffleOf σ) else cell) lane) =
      st.bufs dest (cellAt cell lane) := by
  by_cases here : dest = arg
  · subst here
    simp only [if_true, scalar rfl, cellAt_zero]
    exact related.cells cell (length rfl)
  · rw [if_neg here, related.others dest here]

theorem lane_eq_zero {type : ExprType} {lane : Nat} (scalar : type.isVector = false)
    (below : lane < type.width.val) : lane = 0 := by
  rw [ExprType.eq_scalar_of_not_isVector scalar] at below
  exact Nat.lt_one_iff.mp below

theorem State.Permuted.record (related : State.Permuted arg σ st st') (call : CallRecord F) :
    State.Permuted arg σ (st.record call) (st'.record call) :=
  ⟨related.cells, related.others, related.locals, by simp only [State.record, related.calls]⟩

variable [Field F] [LinearOrder F]

theorem subscripts_swizzleLoads {indices : List (Expr F)} {env : Env}
    (each : ∀ e ∈ indices, (e.swizzleLoads arg (shuffleOf σ)).eval M st' env 0 = e.eval M st env 0) :
    Expr.subscripts M st' env (indices.map (Expr.swizzleLoads arg (shuffleOf σ))) =
      Expr.subscripts M st env indices := by
  rw [Expr.subscripts_eq, Expr.subscripts_eq, List.map_map]
  exact List.map_congr_left fun e mem => congrArg Scalar.toInt (each e mem)

/-- The subscripts of an access of the result: those of the access, permuted when it is an access
of `arg`. -/
theorem subscripts_swizzleIndices {dest : ArgId} {indices : List (Expr F)} {env : Env}
    (each : ∀ e ∈ indices, (e.swizzleLoads arg (shuffleOf σ)).eval M st' env 0 = e.eval M st env 0) :
    Expr.subscripts M st' env
        (if dest = arg then swizzle (indices.map (Expr.swizzleLoads arg (shuffleOf σ))) (shuffleOf σ)
          else indices.map (Expr.swizzleLoads arg (shuffleOf σ))) =
      if dest = arg then swizzle (Expr.subscripts M st env indices) (shuffleOf σ)
        else Expr.subscripts M st env indices := by
  split
  · rw [Expr.subscripts_eq, ← swizzle_map, ← Expr.subscripts_eq, subscripts_swizzleLoads each]
  · exact subscripts_swizzleLoads each

/-- The lanes of an expression of the result are those of the expression. -/
theorem Expr.eval_swizzleLoads (related : State.Permuted arg σ st st')
    (dims : decls.HasDims arg n) {env : Env} {e : Expr F} (verified : e.verify decls scope = true)
    (scalar : ScalarAccesses arg e.collectLoads) :
    ∀ lane < e.getType.width.val,
      (e.swizzleLoads arg (shuffleOf σ)).eval M st' env lane = e.eval M st env lane := by
  induction e using Expr.inductTree with
  | index | const | constFP | constString => exact fun _ _ => rfl
  | loadLocal var type =>
    intro lane _
    simp only [Expr.swizzleLoads, Expr.eval, related.locals]
  | binary kind lhs rhs ihL ihR =>
    intro lane below
    simp only [Expr.verify, Bool.and_eq_true, decide_eq_true_eq] at verified
    simp only [Expr.collectLoads] at scalar
    have left := ihL verified.1.2 (scalar.mono (List.subset_append_left _ _)) lane below
    have right := ihR verified.2 (scalar.mono (List.subset_append_right _ _)) lane
      (verified.1.1 ▸ below)
    simp only [Expr.swizzleLoads, Expr.eval, left, right]
  | unary kind val ih =>
    intro lane below
    simp only [Expr.swizzleLoads, Expr.eval, ih verified scalar lane below]
  | broadcast val vf ih =>
    intro lane _
    simp only [Expr.verify, Bool.and_eq_true] at verified
    simp only [Expr.swizzleLoads, Expr.eval, ih verified.1 scalar 0 val.getType.width.property.1]
  | gep dest indices ih =>
    intro lane _
    simp only [Expr.verify, Bool.and_eq_true, Expr.verifyIndices_eq, List.all_eq_true] at verified
    simp only [Expr.collectLoads, Expr.collectLoadsList_eq] at scalar
    have each : ∀ e ∈ indices,
        (e.swizzleLoads arg (shuffleOf σ)).eval M st' env 0 = e.eval M st env 0 :=
      fun e mem => ih e mem (verified.1 e mem).1
        (scalar.of_mem mem) 0 e.getType.width.property.1
    simp only [Expr.swizzleLoads, Expr.swizzleLoadsList_eq, Expr.eval,
      subscripts_swizzleLoads each]
  | load dest indices type ih =>
    intro lane below
    simp only [Expr.verify, Bool.and_eq_true, Expr.verifyIndices_eq, List.all_eq_true] at verified
    simp only [Expr.collectLoads, Expr.collectLoadsList_eq] at scalar
    have inner := scalar.mono (List.subset_cons_self _ _)
    have each : ∀ e ∈ indices,
        (e.swizzleLoads arg (shuffleOf σ)).eval M st' env 0 = e.eval M st env 0 :=
      fun e mem => ih e mem (verified.1 e mem).1 (inner.of_mem mem) 0 e.getType.width.property.1
    -- A load of the argument is scalar, so there is one lane.
    have only : dest = arg → lane = 0 :=
      fun here => lane_eq_zero (scalar ⟨dest, indices, type⟩ List.mem_cons_self here) below
    have length : dest = arg → (Expr.subscripts M st env indices).length = n := by
      intro here
      subst here
      rw [Expr.subscripts_eq, List.length_map, dims.length verified.2]
    simp only [Expr.swizzleLoads, Expr.swizzleLoadsList_eq, Expr.eval,
      subscripts_swizzleIndices each]
    rw [related.bufs_eq length only]

theorem swizzle_injective {cell other : List Int} (length : cell.length = n)
    (lengthOther : other.length = n) (same : swizzle cell (shuffleOf σ) = swizzle other (shuffleOf σ)) :
    cell = other := by
  rw [← swizzle_symm length σ, same, swizzle_symm lengthOther σ]

theorem State.Permuted.store (related : State.Permuted arg σ st st') {dest : ArgId}
    {subs : List Int} (length : dest = arg → subs.length = n) {type : ExprType}
    (scalar : dest = arg → type.isVector = false) {accumulate : Bool} {value value' : Nat → Scalar F}
    (same : ∀ lane < type.width.val, value' lane = value lane) :
    State.Permuted arg σ (st.store M dest subs type accumulate value)
      (st'.store M dest (if dest = arg then swizzle subs (shuffleOf σ) else subs) type accumulate
        value') := by
  have stored : ∀ lane < type.width.val,
      st'.storedLanes M dest (if dest = arg then swizzle subs (shuffleOf σ) else subs) type
          accumulate value' lane =
        st.storedLanes M dest subs type accumulate value lane := by
    intro lane below
    rw [State.storedLanes, State.storedLanes, same lane below,
      related.bufs_eq length fun here => lane_eq_zero (scalar here) below]
  rw [State.store, State.store, State.writeLanes_congr stored]
  refine ⟨?_, ?_, related.locals, related.calls⟩
  · intro cell lengthCell
    by_cases here : dest = arg
    · subst here
      have width : type.width.val = 1 := by
        rw [ExprType.eq_scalar_of_not_isVector (scalar rfl)]
        rfl
      -- one cell is written, and it is the permuted one exactly when the cell is
      have cells : swizzle cell (shuffleOf σ) = swizzle subs (shuffleOf σ) ↔ cell = subs :=
        ⟨swizzle_injective lengthCell (length rfl), fun same => same ▸ rfl⟩
      simp only [State.writeLanes, if_true, width, laneOf_one, cells]
      by_cases written : cell = subs
      · simp only [written, if_true]
      · simp only [written, if_false, related.cells cell lengthCell]
    · simp only [State.writeLanes, if_neg (Ne.symm here), related.cells cell lengthCell]
  · intro other elsewhere
    funext cell
    by_cases here : dest = arg
    · subst here
      simp only [State.writeLanes, if_neg elsewhere, related.others other elsewhere]
    · simp only [State.writeLanes, if_neg here, related.others other elsewhere]

theorem State.Permuted.storeLocal (related : State.Permuted arg σ st st') {var : VarId}
    {type : ExprType} {accumulate : Bool} {value value' : Nat → Scalar F}
    (same : ∀ lane < type.width.val, value' lane = value lane) :
    State.Permuted arg σ (st.storeLocal M var type accumulate value)
      (st'.storeLocal M var type accumulate value') := by
  refine ⟨related.cells, related.others, ?_, related.calls⟩
  simp only [State.storeLocal, State.writeLocal, related.locals]
  congr 1
  funext lane
  split
  next below => rw [same lane below]
  next => rfl

theorem execBody_swizzleAccesses {env : Env} {body : List (Stmt F)}
    (each : ∀ s ∈ body, ∀ st st', State.Permuted arg σ st st' →
      State.Permuted arg σ (s.exec M env st)
        ((s.swizzleAccesses arg (shuffleOf σ)).exec M env st'))
    (related : State.Permuted arg σ st st') :
    State.Permuted arg σ (Stmt.execBody M env body st)
      (Stmt.execBody M env (body.map (Stmt.swizzleAccesses arg (shuffleOf σ))) st') := by
  rw [Stmt.execBody_eq_run, Stmt.execBody_eq_run, Schedule.run_map]
  exact Schedule.run_related (State.Permuted arg σ) each related

/-- Every statement of the result does to the permuted buffer what the statement does. -/
theorem Stmt.exec_swizzleAccesses (dims : decls.HasDims arg n) {s : Stmt F} :
    ∀ {scope : List LoopId} {env : Env} {st st' : State F}, s.verify decls scope = true →
      ScalarAccesses arg (s.collectStmts.flatMap fun t => t.stores ++ t.loads) →
      State.Permuted arg σ st st' →
      State.Permuted arg σ (s.exec M env st)
        ((s.swizzleAccesses arg (shuffleOf σ)).exec M env st') := by
  induction s using Stmt.inductTree with
  | loop header body ih =>
    intro scope env st st' verified scalar related
    simp only [Stmt.verify, Bool.and_eq_true, Stmt.verifyBody_eq, List.all_eq_true] at verified
    simp only [Stmt.collectStmts, Stmt.collectStmtsBody_eq, List.flatMap_cons,
      List.flatMap_assoc] at scalar
    have inner := scalar.mono (List.subset_append_right _ _)
    simp only [Stmt.swizzleAccesses, Stmt.swizzleAccessesBody_eq, Stmt.exec]
    apply Schedule.run_related (State.Permuted arg σ) _ related
    intro i _ st st' related
    exact execBody_swizzleAccesses
      (fun s mem st st' related => ih s mem (verified.2 s mem) (inner.of_mem mem) related) related
  | ifRange val start end_ body ih =>
    intro scope env st st' verified scalar related
    simp only [Stmt.verify, Bool.and_eq_true, Stmt.verifyBody_eq, List.all_eq_true] at verified
    simp only [Stmt.collectStmts, Stmt.collectStmtsBody_eq, List.flatMap_cons,
      List.flatMap_assoc, Stmt.stores, Stmt.loads, Stmt.roots, List.flatMap_nil, List.append_nil,
      List.nil_append] at scalar
    have inner := scalar.mono (List.subset_append_right _ _)
    have guard : (val.swizzleLoads arg (shuffleOf σ)).eval M st' env 0 = val.eval M st env 0 :=
      Expr.eval_swizzleLoads related dims verified.1.2
        (scalar.mono (List.subset_append_left _ _)) 0 val.getType.width.property.1
    simp only [Stmt.swizzleAccesses, Stmt.swizzleAccessesBody_eq, Stmt.exec, guard]
    -- Both runs take the same branch.
    split
    · exact execBody_swizzleAccesses
        (fun s mem st st' related => ih s mem (verified.2 s mem) (inner.of_mem mem) related) related
    · exact related
  | call name params =>
    intro scope env st st' verified scalar related
    simp only [Stmt.verify, List.all_eq_true, Bool.and_eq_true] at verified
    simp only [Stmt.collectStmts, Stmt.stores, Stmt.loads, Stmt.roots, List.flatMap_cons,
      List.flatMap_nil, List.append_nil, List.nil_append] at scalar
    have lanes : (params.map (Expr.swizzleLoads arg (shuffleOf σ))).map (Expr.lanes M st' env) =
        params.map (Expr.lanes M st env) := by
      rw [List.map_map]
      apply List.map_congr_left
      intro e mem
      simp only [Function.comp_apply, Expr.lanes, Expr.getType_swizzleLoads]
      apply List.map_congr_left
      intro lane below
      exact Expr.eval_swizzleLoads related dims (verified e mem).1 (scalar.of_mem mem) lane
        (List.mem_range.mp below)
    simp only [Stmt.swizzleAccesses, Stmt.exec, lanes]
    exact related.record _
  | store dest indices value accumulate =>
    intro scope env st st' verified scalar related
    simp only [Stmt.verify, Bool.and_eq_true, Expr.verifyIndices_eq, List.all_eq_true] at verified
    simp only [Stmt.collectStmts, Stmt.stores, Stmt.loads, Stmt.roots, List.flatMap_cons,
      List.flatMap_nil, List.append_nil, List.flatMap_append] at scalar
    have loads := scalar.mono (List.subset_append_right _ _)
    have each : ∀ e ∈ indices,
        (e.swizzleLoads arg (shuffleOf σ)).eval M st' env 0 = e.eval M st env 0 :=
      fun e mem => Expr.eval_swizzleLoads related dims (verified.1.1 e mem).1
        ((loads.mono (List.subset_append_left _ _)).of_mem mem) 0 e.getType.width.property.1
    have length : dest = arg → (Expr.subscripts M st env indices).length = n := by
      intro here
      subst here
      rw [Expr.subscripts_eq, List.length_map, dims.length verified.1.2]
    -- A store to the argument is scalar, too.
    have only : dest = arg → value.getType.isVector = false :=
      fun here => scalar ⟨dest, indices, value.getType⟩ (by simp) here
    simp only [Stmt.swizzleAccesses, Stmt.exec, Expr.getType_swizzleLoads,
      subscripts_swizzleIndices each]
    exact related.store length only (Expr.eval_swizzleLoads related dims verified.2
      (loads.mono (List.subset_append_right _ _)))
  | storeLocal var value accumulate =>
    intro scope env st st' verified scalar related
    simp only [Stmt.verify, Bool.and_eq_true] at verified
    simp only [Stmt.collectStmts, Stmt.stores, Stmt.loads, Stmt.roots, List.flatMap_cons,
      List.flatMap_nil, List.append_nil, List.nil_append] at scalar
    simp only [Stmt.swizzleAccesses, Stmt.exec, Expr.getType_swizzleLoads]
    exact related.storeLocal (Expr.eval_swizzleLoads related dims verified.2 scalar)

end Accesses

/-! ## `changeLayout` -/

section ChangeLayout

variable {p : Program F} {argIndex : ArgId} {decl : Argument} {n : Nat} {σ : Equiv.Perm (Fin n)}

@[simp] theorem Stmt.loopIds_swizzleAccesses (arg : ArgId) (shuffle : List Nat)
    (body : List (Stmt F)) :
    Stmt.loopIds (body.map (Stmt.swizzleAccesses arg shuffle)) = Stmt.loopIds body := by
  have one : ∀ s : Stmt F, ((s.swizzleAccesses arg shuffle).collectLoops.map (·.1.id)) =
      s.collectLoops.map (·.1.id) := by
    intro s
    induction s using Stmt.inductTree with
    | loop header body ih =>
      simp only [Stmt.swizzleAccesses, Stmt.swizzleAccessesBody_eq, Stmt.collectLoops_loop,
        List.flatMap_map, List.map_cons, List.map_flatMap]
      rw [List.flatMap_congr ih]
    | ifRange val start end_ body ih =>
      simp only [Stmt.swizzleAccesses, Stmt.swizzleAccessesBody_eq, Stmt.collectLoops_ifRange,
        List.flatMap_map, List.map_flatMap]
      exact List.flatMap_congr ih
    | call | store | storeLocal => rfl
  simp only [Stmt.loopIds, Stmt.collectLoopsBody, List.flatMap_map, List.map_flatMap]
  exact List.flatMap_congr fun s _ => one s

theorem TensorType.swizzle_symm {type : TensorType} (dims : type.getNumDims = n) :
    (type.swizzle (shuffleOf σ)).swizzle (shuffleOf σ.symm) = type := by
  obtain ⟨sizes, names, elementType, namesLength⟩ := type
  have sizesBack : Bistra.swizzle (Bistra.swizzle sizes (shuffleOf σ)) (shuffleOf σ.symm) = sizes :=
    Bistra.swizzle_symm dims σ
  have namesBack : Bistra.swizzle (Bistra.swizzle names (shuffleOf σ)) (shuffleOf σ.symm) = names :=
    Bistra.swizzle_symm (namesLength.trans dims) σ
  simp only [TensorType.swizzle, sizesBack, namesBack]

/-- The program with the argument in its other layout. -/
def Program.swizzled (p : Program F) (argIndex : ArgId) (decl : Argument) (shuffle : List Nat) :
    Program F :=
  { p with
    args := p.args.set argIndex { decl with type := decl.type.swizzle shuffle }
    body := Stmt.swizzleAccessesBody argIndex shuffle p.body }

theorem Program.hasDims (declared : p.args[argIndex]? = some decl)
    (dims : decl.type.getNumDims = n) : p.decls.HasDims argIndex n := by
  intro decl' declared'
  rw [Program.decls, declared, Option.some.injEq] at declared'
  rw [← declared', dims]

theorem changeLayout_eq (verified : p.verify = true) (declared : p.args[argIndex]? = some decl)
    (dims : decl.type.getNumDims = n) :
    changeLayout p argIndex (shuffleOf σ) = some (p.swizzled argIndex decl (shuffleOf σ)) := by
  have accesses : (p.collectLoadStores argIndex).all
      (canSwizzle ·.indices.length (shuffleOf σ)) = true := by
    rw [List.all_eq_true]
    intro access mem
    simp only [Program.collectLoadStores, List.mem_flatMap, List.mem_filter,
      decide_eq_true_eq] at mem
    obtain ⟨t, ⟨s, memS, memT⟩, memA, rfl⟩ := mem
    obtain ⟨inner, verifiedT⟩ := Stmt.verify_collectStmts (Program.verify_body verified s memS) memT
    have verifiedA := Stmt.verify_accesses verifiedT access memA
    simp only [Expr.verify, Bool.and_eq_true] at verifiedA
    rw [(Program.hasDims declared dims).length verifiedA.2]
    exact canSwizzle_shuffleOf σ
  rw [changeLayout, declared, Option.bind_some, dims, canSwizzle_shuffleOf, accesses]
  rfl

theorem Decls.verifyAccess_eq {decls : Decls} (known : decls.args[argIndex]? = some decl)
    (numIndices : Nat) (kind : Option ElemKind) :
    decls.verifyAccess argIndex numIndices kind =
      (decide (numIndices ≠ 0) && decide (decl.type.getNumDims = numIndices) &&
        kind.all fun kind => decide (kind = decl.type.elementType)) := by
  simp only [Decls.verifyAccess, known]

theorem Program.swizzled_arg (declared : p.args[argIndex]? = some decl) (shuffle : List Nat) :
    (p.swizzled argIndex decl shuffle).args[argIndex]? =
      some { decl with type := decl.type.swizzle shuffle } :=
  List.getElem?_set_self (List.getElem?_eq_some_iff.mp declared).1

theorem Program.swizzled_compatible (declared : p.args[argIndex]? = some decl)
    (dims : decl.type.getNumDims = n) :
    p.decls.Compatible (p.swizzled argIndex decl (shuffleOf σ)).decls where
  vars := rfl
  access := by
    intro dest numIndices kind
    by_cases here : argIndex = dest
    · subst here
      have dims' : (decl.type.swizzle (shuffleOf σ)).getNumDims = decl.type.getNumDims :=
        (length_swizzle dims σ).trans dims.symm
      rw [Decls.verifyAccess_eq (Program.swizzled_arg declared _),
        @Decls.verifyAccess_eq _ _ p.decls declared, dims', TensorType.elementType_swizzle]
    · simp only [Program.swizzled, Program.decls, Decls.verifyAccess, List.getElem?_set,
        if_neg here]

theorem Program.verify_swizzled (verified : p.verify = true)
    (declared : p.args[argIndex]? = some decl) (dims : decl.type.getNumDims = n) :
    (p.swizzled argIndex decl (shuffleOf σ)).verify = true := by
  have body := Program.verify_body verified
  simp only [Program.verify, Bool.and_eq_true, List.all_eq_true] at verified ⊢
  obtain ⟨⟨⟨⟨args, vars⟩, name⟩, -⟩, nodup⟩ := verified
  refine ⟨⟨⟨⟨?_, vars⟩, name⟩, ?_⟩, ?_⟩
  · intro arg mem
    rcases List.mem_or_eq_of_mem_set mem with old | rfl
    · exact args arg old
    · exact args decl (List.mem_of_getElem? declared)
  · simp only [Program.swizzled, Stmt.swizzleAccessesBody_eq, Stmt.verifyBody_eq, List.all_map,
      List.all_eq_true]
    intro s mem
    exact Stmt.verify_swizzleAccesses (Program.swizzled_compatible declared dims)
      (Program.hasDims declared dims) (body s mem)
  · simpa only [Program.swizzled, Stmt.swizzleAccessesBody_eq,
      Stmt.loopIds_swizzleAccesses] using nodup

theorem Program.swizzled_symm (verified : p.verify = true)
    (declared : p.args[argIndex]? = some decl) (dims : decl.type.getNumDims = n) :
    (p.swizzled argIndex decl (shuffleOf σ)).swizzled argIndex
        { decl with type := decl.type.swizzle (shuffleOf σ) } (shuffleOf σ.symm) = p := by
  have body : (p.body.map (Stmt.swizzleAccesses argIndex (shuffleOf σ))).map
      (Stmt.swizzleAccesses argIndex (shuffleOf σ.symm)) = p.body :=
    map_map_of_inverse fun s mem => Stmt.swizzleAccesses_symm (Program.hasDims declared dims)
      (Program.verify_body verified s mem)
  have args : p.args.set argIndex decl = p.args := by
    obtain ⟨below, rfl⟩ := List.getElem?_eq_some_iff.mp declared
    exact List.set_getElem_self below
  simp only [Program.swizzled, Stmt.swizzleAccessesBody_eq, body, List.set_set,
    TensorType.swizzle_symm dims, args]

variable [Field F] [LinearOrder F]

/-- `A[i, j] = B[j, i]`. -/
def transpose : Program F where
  name := "transpose"
  args := [⟨"A", [512, 256], ["m", "n"], .float32Ty, rfl⟩,
    ⟨"B", [256, 512], ["n", "m"], .float32Ty, rfl⟩]
  vars := []
  body := [.loop ⟨0, "i", 512, 1⟩ [.loop ⟨1, "j", 256, 1⟩
    [.store 0 [.indexOf 0, .indexOf 1] (.load 1 [.indexOf 1, .indexOf 0] (.scalar .float32Ty))
      false]]]

end ChangeLayout

end Bistra
