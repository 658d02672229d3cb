import Bistra.Program.Preservation
import Bistra.Program.Relabel

/-! # Cloning a program

`Program::clone` with the assertions that it meets on the way: `verify` of the program, of every
leaf statement and of every access to a local, and those of the constructors.
-/

namespace Bistra

variable {F : Type}

/-- The `clone` of a node without operands. -/
def Expr.cloneLeaf (decls : Decls) (ctx : LoopId → LoopId) : Expr F → Option (Expr F)
  -- The constructor without a type makes a scalar index.
  | .index loop _ => some (.indexOf (ctx loop))
  | .loadLocal var type => if decls.verifyLocal var type then decls.mkLoadLocal var else none
  | e => some e

/-- `Expr::clone`; `none` is a failed assertion. -/
def Expr.cloneChecked (decls : Decls) (ctx : LoopId → LoopId) : Expr F → Option (Expr F) :=
  Expr.rebuild decls (Expr.cloneLeaf decls ctx)

/-- `cloneIndicesPtr`, and the loop over the subscripts in `GEPExpr::clone`. -/
def Expr.cloneIndices (decls : Decls) (ctx : LoopId → LoopId) :
    List (Expr F) → Option (List (Expr F)) :=
  Expr.rebuildList decls (Expr.cloneLeaf decls ctx)

mutual

/-- `Stmt::clone`; `none` is a failed assertion.  `scope` holds the loops around the statement. -/
def Stmt.cloneChecked (decls : Decls) (base : LoopId) (scope : List LoopId)
    (ctx : LoopId → LoopId) : Stmt F → Option (Stmt F)
  | .loop header body =>
    (Stmt.cloneBodyChecked decls base (header.id :: scope)
      (Function.update ctx header.id (base + header.id)) body).map
        (.loop { header with id := base + header.id })
  | .ifRange val start end_ body =>
    (val.cloneChecked decls ctx).bind fun val =>
      (Stmt.cloneBodyChecked decls base scope ctx body).map (.ifRange val start end_)
  | .call name params =>
    if (Stmt.call name params).verify decls scope then
      (Expr.cloneIndices decls ctx params).map (.call name)
    else none
  | .store arg indices value accumulate =>
    if (Stmt.store arg indices value accumulate).verify decls scope then
      ((Expr.gep arg indices).cloneChecked decls ctx).bind fun gep =>
        (value.cloneChecked decls ctx).bind fun value => Stmt.mkStore gep value accumulate
    else none
  | .storeLocal var value accumulate =>
    if (Stmt.storeLocal var value accumulate).verify decls scope then
      (value.cloneChecked decls ctx).bind fun value => decls.mkStoreLocal var value accumulate
    else none

def Stmt.cloneBodyChecked (decls : Decls) (base : LoopId) (scope : List LoopId)
    (ctx : LoopId → LoopId) : List (Stmt F) → Option (List (Stmt F))
  | [] => some []
  | s :: rest =>
    (s.cloneChecked decls base scope ctx).bind fun s =>
      (Stmt.cloneBodyChecked decls base scope ctx rest).map (s :: ·)

end

/-- `Program::clone`; `none` is a failed assertion.  The new arguments and locals are at the
positions of the old ones, and the new loops have addresses that the old ones do not have. -/
def Program.clone (p : Program F) : Option (Program F) :=
  if p.verify then
    (Stmt.cloneBodyChecked p.decls p.freshLoop [] id p.body).map fun body => { p with body := body }
  else none

/-! ## What a clone is -/

/-- The leaves of a clone. -/
def Expr.clonedLeaf (ctx : LoopId → LoopId) : Expr F → Expr F
  | .index loop _ => .indexOf (ctx loop)
  | e => e

theorem Expr.clone_eq_mapAtoms (ctx : LoopId → LoopId) (e : Expr F) :
    e.clone ctx = e.mapAtoms (Expr.clonedLeaf ctx) := by
  rw [Expr.clone, Expr.mapIndex_eq_mapAtoms]
  rfl

theorem Decls.verifyLocal_eq_true {decls : Decls} {var : VarId} {type : ExprType}
    (verified : decls.verifyLocal var type = true) :
    ∃ decl, decls.vars[var]? = some decl ∧ type = decl.type := by
  rw [Decls.verifyLocal] at verified
  split at verified
  next decl known =>
    rw [Bool.and_eq_true, decide_eq_true_eq] at verified
    exact ⟨decl, known, verified.2⟩
  next => cases verified

theorem Expr.eq_clonedLeaf {decls : Decls} {ctx : LoopId → LoopId} {a a' : Expr F}
    (cloned : a.cloneLeaf decls ctx = some a') : a' = a.clonedLeaf ctx := by
  cases a with
  | loadLocal var type =>
    simp only [Expr.cloneLeaf, Option.ite_none_right_eq_some] at cloned
    obtain ⟨decl, known, rfl⟩ := Decls.verifyLocal_eq_true cloned.1
    have made := cloned.2
    rw [Decls.mkLoadLocal, known] at made
    exact (Option.some.inj made).symm
  | _ => exact (Option.some.inj cloned).symm

theorem Expr.eq_clone {decls : Decls} {ctx : LoopId → LoopId} {e e' : Expr F}
    (cloned : e.cloneChecked decls ctx = some e') : e' = e.clone ctx := by
  rw [Expr.clone_eq_mapAtoms]
  exact Expr.eq_mapAtoms_of_rebuild (fun a _ a' => Expr.eq_clonedLeaf) cloned

theorem Expr.eq_cloneIndices {decls : Decls} {ctx : LoopId → LoopId} {es es' : List (Expr F)}
    (cloned : Expr.cloneIndices decls ctx es = some es') : es' = es.map (Expr.clone ctx) :=
  Expr.rebuildList_of_eq_some (fun _ _ _ => Expr.eq_clone) cloned

theorem Stmt.eq_clone {decls : Decls} {base : LoopId} {s : Stmt F} :
    ∀ {scope : List LoopId} {ctx : LoopId → LoopId} {s' : Stmt F},
      s.cloneChecked decls base scope ctx = some s' → s' = s.clone base ctx := by
  -- A body is cloned statement by statement.
  have each : ∀ {body : List (Stmt F)} {scope : List LoopId} {ctx : LoopId → LoopId}
      {body' : List (Stmt F)}, (∀ s ∈ body, ∀ {s' : Stmt F},
        s.cloneChecked decls base scope ctx = some s' → s' = s.clone base ctx) →
      Stmt.cloneBodyChecked decls base scope ctx body = some body' →
      body' = Stmt.cloneBody base ctx body := by
    intro body
    induction body with
    | nil =>
      intro scope ctx body' _ cloned
      exact (Option.some.inj cloned).symm
    | cons s rest ih =>
      intro scope ctx body' same cloned
      rw [List.forall_mem_cons] at same
      obtain ⟨s', clonedS, cloned⟩ := Option.bind_eq_some_iff.mp cloned
      obtain ⟨rest', clonedRest, rfl⟩ := Option.map_eq_some_iff.mp cloned
      rw [Stmt.cloneBody, same.1 clonedS, ih same.2 clonedRest]
  induction s using Stmt.inductTree with
  | loop header body ih =>
    intro scope ctx s' cloned
    obtain ⟨body', clonedBody, rfl⟩ := Option.map_eq_some_iff.mp cloned
    rw [Stmt.clone, each (fun s mem => ih s mem) clonedBody]
  | ifRange val start end_ body ih =>
    intro scope ctx s' cloned
    obtain ⟨val', clonedVal, cloned⟩ := Option.bind_eq_some_iff.mp cloned
    obtain ⟨body', clonedBody, rfl⟩ := Option.map_eq_some_iff.mp cloned
    rw [Stmt.clone, each (fun s mem => ih s mem) clonedBody, Expr.eq_clone clonedVal]
  | call name params =>
    intro scope ctx s' cloned
    rw [Stmt.cloneChecked, Option.ite_none_right_eq_some] at cloned
    obtain ⟨params', clonedParams, rfl⟩ := Option.map_eq_some_iff.mp cloned.2
    rw [Stmt.clone, Expr.eq_cloneIndices clonedParams]
  | store arg indices value accumulate =>
    intro scope ctx s' cloned
    rw [Stmt.cloneChecked, Option.ite_none_right_eq_some] at cloned
    obtain ⟨gep, clonedGEP, cloned⟩ := Option.bind_eq_some_iff.mp cloned.2
    obtain ⟨value', clonedValue, made⟩ := Option.bind_eq_some_iff.mp cloned
    rw [Expr.eq_clone clonedGEP, Expr.clone, Expr.mapIndex, Expr.mapIndexList_eq, Stmt.mkStore,
      Option.some.injEq] at made
    rw [Stmt.clone, ← made, Expr.eq_clone clonedValue]
    rfl
  | storeLocal var value accumulate =>
    intro scope ctx s' cloned
    rw [Stmt.cloneChecked, Option.ite_none_right_eq_some] at cloned
    obtain ⟨value', clonedValue, made⟩ := Option.bind_eq_some_iff.mp cloned.2
    rw [Decls.mkStoreLocal, Option.ite_none_right_eq_some, Option.some.injEq] at made
    rw [Stmt.clone, ← made.2, Expr.eq_clone clonedValue]

theorem Stmt.eq_cloneBody {decls : Decls} {base : LoopId} :
    ∀ {body body' : List (Stmt F)} {scope : List LoopId} {ctx : LoopId → LoopId},
      Stmt.cloneBodyChecked decls base scope ctx body = some body' →
      body' = Stmt.cloneBody base ctx body
  | [], _, _, _, cloned => (Option.some.inj cloned).symm
  | s :: rest, body', scope, ctx, cloned => by
    obtain ⟨s', clonedS, cloned⟩ := Option.bind_eq_some_iff.mp cloned
    obtain ⟨rest', clonedRest, rfl⟩ := Option.map_eq_some_iff.mp cloned
    rw [Stmt.cloneBody, Stmt.eq_clone clonedS, Stmt.eq_cloneBody clonedRest]

/-! ## Clones that complete -/

theorem Expr.cloneLeaf_of_verify {decls : Decls} {scope : List LoopId} {ctx : LoopId → LoopId}
    {e : Expr F} (verified : e.verify decls scope = true) :
    ∀ a ∈ e.atoms, a.cloneLeaf decls ctx = some (a.clonedLeaf ctx) := by
  induction e using Expr.inductTree with
  | index | const | constFP | constString => simp [Expr.atoms, Expr.cloneLeaf, Expr.clonedLeaf]
  | loadLocal var type =>
    rw [Expr.verify] at verified
    obtain ⟨decl, known, same⟩ := Decls.verifyLocal_eq_true verified
    have made : decls.mkLoadLocal var = some (.loadLocal var type : Expr F) := by
      rw [Decls.mkLoadLocal, known, same, Option.map_some]
    simp [Expr.atoms, Expr.cloneLeaf, Expr.clonedLeaf, verified, made]
  | binary kind lhs rhs ihL ihR =>
    simp only [Expr.verify, Bool.and_eq_true] at verified
    rw [Expr.atoms]
    intro a mem
    cases List.mem_append.mp mem with
    | inl left => exact ihL verified.1.2 a left
    | inr right => exact ihR verified.2 a right
  | unary kind val ih => exact ih verified
  | broadcast val vf ih =>
    simp only [Expr.verify, Bool.and_eq_true] at verified
    exact ih verified.1
  | gep arg indices ih | load arg indices type ih =>
    simp only [Expr.verify, Bool.and_eq_true, Expr.verifyIndices_eq, List.all_eq_true] at verified
    rw [Expr.atoms, Expr.atomsList_eq]
    intro a mem
    obtain ⟨e, memE, memA⟩ := List.mem_flatMap.mp mem
    exact ih e memE (verified.1 e memE).1 a memA

theorem Expr.cloneChecked_of_clone {decls : Decls} {scope scope' : List LoopId}
    {ctx : LoopId → LoopId} {e : Expr F} (verified : e.verify decls scope = true)
    (kept : (e.clone ctx).verify decls scope' = true) :
    e.cloneChecked decls ctx = some (e.clone ctx) := by
  rw [Expr.clone_eq_mapAtoms] at kept ⊢
  exact Expr.rebuild_of_verify (Expr.cloneLeaf_of_verify verified) kept

/-- The access of a verified store is a verified `GEPExpr`. -/
theorem Expr.verify_gep {decls : Decls} {scope : List LoopId} {arg : ArgId}
    {indices : List (Expr F)} {kind : Option ElemKind}
    (verified : Expr.verifyIndices decls scope indices = true)
    (access : decls.verifyAccess arg indices.length kind = true) :
    (Expr.gep arg indices).verify decls scope = true := by
  simp only [Decls.verifyAccess] at access
  split at access
  next decl known =>
    simp only [Bool.and_eq_true] at access
    rw [Expr.verify, verified, Bool.true_and, Decls.verifyAccess, known]
    simp only [access.1.1, access.1.2, Bool.and_self, Option.all_none]
  next => cases access

theorem Stmt.cloneBodyChecked_eq {decls : Decls} {base : LoopId} {scope : List LoopId}
    {ctx : LoopId → LoopId} {body : List (Stmt F)}
    (same : ∀ s ∈ body, s.cloneChecked decls base scope ctx = some (s.clone base ctx)) :
    Stmt.cloneBodyChecked decls base scope ctx body = some (Stmt.cloneBody base ctx body) := by
  induction body with
  | nil => rfl
  | cons s rest ih =>
    rw [List.forall_mem_cons] at same
    rw [Stmt.cloneBodyChecked, same.1, Option.bind_some, ih same.2, Option.map_some,
      Stmt.cloneBody]

theorem Stmt.cloneChecked_of_clone {decls : Decls} {base : LoopId} {s : Stmt F} :
    ∀ {scope scope' : List LoopId} {ctx : LoopId → LoopId}, s.verify decls scope = true →
      (s.clone base ctx).verify decls scope' = true →
      s.cloneChecked decls base scope ctx = some (s.clone base ctx) := by
  induction s using Stmt.inductTree with
  | loop header body ih =>
    intro scope scope' ctx verified kept
    simp only [Stmt.clone, Stmt.cloneBody_eq, Stmt.verify, Stmt.verifyBody_eq, Bool.and_eq_true,
      List.all_map, List.all_eq_true, Function.comp_apply] at verified kept
    rw [Stmt.cloneChecked, Stmt.clone,
      Stmt.cloneBodyChecked_eq fun s mem => ih s mem (verified.2 s mem) (kept.2 s mem)]
    rfl
  | ifRange val start end_ body ih =>
    intro scope scope' ctx verified kept
    simp only [Stmt.clone, Stmt.cloneBody_eq, Stmt.verify, Stmt.verifyBody_eq, Bool.and_eq_true,
      List.all_map, List.all_eq_true, Function.comp_apply] at verified kept
    rw [Stmt.cloneChecked, Stmt.clone, Expr.cloneChecked_of_clone verified.1.2 kept.1.2,
      Stmt.cloneBodyChecked_eq fun s mem => ih s mem (verified.2 s mem) (kept.2 s mem)]
    rfl
  | call name params =>
    intro scope scope' ctx verified kept
    rw [Stmt.cloneChecked, if_pos verified]
    simp only [Stmt.clone, Stmt.verify, List.all_map, List.all_eq_true, Bool.and_eq_true,
      Function.comp_apply] at verified kept
    rw [Expr.cloneIndices, Expr.rebuildList_eq_map fun e mem =>
      Expr.cloneChecked_of_clone (verified e mem).1 (kept e mem).1]
    rfl
  | store arg indices value accumulate =>
    intro scope scope' ctx verified kept
    rw [Stmt.cloneChecked, if_pos verified]
    simp only [Stmt.clone, Stmt.verify, Bool.and_eq_true] at verified kept
    -- The pointer of a store is cloned as a `GEPExpr` of its own.
    have gep := Expr.verify_gep verified.1.1 verified.1.2
    have keptGEP : ((Expr.gep arg indices).clone ctx).verify decls scope' = true := by
      rw [Expr.clone, Expr.mapIndex, Expr.mapIndexList_eq]
      exact Expr.verify_gep kept.1.1 kept.1.2
    rw [Expr.cloneChecked_of_clone gep keptGEP, Option.bind_some,
      Expr.cloneChecked_of_clone verified.2 kept.2, Option.bind_some, Expr.clone, Expr.mapIndex,
      Expr.mapIndexList_eq]
    rfl
  | storeLocal var value accumulate =>
    intro scope scope' ctx verified kept
    rw [Stmt.cloneChecked, if_pos verified]
    simp only [Stmt.clone, Stmt.verify, Bool.and_eq_true] at verified kept
    obtain ⟨decl, known, same⟩ := Decls.verifyLocal_eq_true kept.1
    rw [Expr.cloneChecked_of_clone verified.2 kept.2, Option.bind_some, Decls.mkStoreLocal, known,
      Option.any_some, if_pos (by simp [same]), Stmt.clone]

theorem Stmt.cloneChecked_of_verify {decls : Decls} {base : LoopId} {s : Stmt F}
    {scope scope' : List LoopId} {ctx : LoopId → LoopId}
    (scalar : ∀ e ∈ s.collectRoots, ∀ index ∈ e.collectIndices, index.2 = .scalar .indexTy)
    (moved : ∀ L ∈ scope, ctx L ∈ scope') (verified : s.verify decls scope = true) :
    s.cloneChecked decls base scope ctx = some (s.clone base ctx) :=
  Stmt.cloneChecked_of_clone verified (Stmt.verify_clone scalar moved verified)

theorem Expr.elementType_clone {decls : Decls} {scope : List LoopId} (ctx : LoopId → LoopId)
    {e : Expr F} (verified : e.verify decls scope = true) :
    (e.clone ctx).getType.elementType = e.getType.elementType := by
  induction e using Expr.inductTree with
  | index loop type =>
    simp only [Expr.verify, Bool.and_eq_true] at verified
    exact (eq_of_beq verified.1).symm
  | const | constFP | constString | loadLocal | gep | load => rfl
  | binary kind lhs rhs ihL _ =>
    simp only [Expr.verify, Bool.and_eq_true] at verified
    exact ihL verified.1.2
  | unary kind val ih => exact ih verified
  | broadcast val vf ih =>
    simp only [Expr.verify, Bool.and_eq_true] at verified
    exact ih verified.1

/-- What is cloned from a verified expression is verified: the constructors make the checks of
`verify` that depend on the types of operands. -/
theorem Expr.verify_of_cloneChecked {decls : Decls} {scope scope' : List LoopId}
    {ctx : LoopId → LoopId} {e e' : Expr F} (moved : ∀ L ∈ scope, ctx L ∈ scope')
    (verified : e.verify decls scope = true) (cloned : e.cloneChecked decls ctx = some e') :
    e'.verify decls scope' = true := by
  -- The subscripts of a `GEPExpr` and of a load: those of the clone are verified when they have
  -- been cloned.
  have subscripts : ∀ {arg : ArgId} {kind : Option ElemKind} {indices indices' : List (Expr F)},
      (∀ e ∈ indices, ∀ {e'}, e.verify decls scope = true → e.cloneChecked decls ctx = some e' →
        e'.verify decls scope' = true) →
      Expr.verifyIndices decls scope indices = true →
      Expr.rebuildList decls (Expr.cloneLeaf decls ctx) indices = some indices' →
      decls.allowsGEP arg indices' = true → decls.verifyAccess arg indices.length kind = true →
      Expr.verifyIndices decls scope' indices' = true ∧
        decls.verifyAccess arg indices'.length kind = true := by
    intro arg kind indices indices' ih verified rebuilt allowed access
    rw [Expr.rebuildList_eq_some] at rebuilt
    have lengths : indices.length = indices'.length := by
      simpa using congrArg List.length rebuilt
    refine ⟨?_, lengths ▸ access⟩
    simp only [Decls.allowsGEP, Bool.and_eq_true, List.all_eq_true] at allowed
    rw [Expr.verifyIndices_eq, List.all_eq_true] at verified ⊢
    intro e' mem
    have found : some e' ∈ indices.map (Expr.rebuild decls (Expr.cloneLeaf decls ctx)) :=
      rebuilt ▸ List.mem_map_of_mem mem
    obtain ⟨e, memE, cloned⟩ := List.mem_map.mp found
    rw [ih e memE (Bool.and_eq_true_iff.mp (verified e memE)).1 cloned, allowed.1 e' mem,
      Bool.and_self]
  induction e using Expr.inductTree generalizing e' with
  | index loop type =>
    simp only [Expr.verify, Bool.and_eq_true, decide_eq_true_eq] at verified
    cases cloned
    simpa [Expr.indexOf, Expr.verify, ExprType.isIndexTy] using moved loop verified.2
  | const | constFP | constString =>
    cases cloned
    rfl
  | loadLocal var type =>
    rw [Expr.eq_clone cloned]
    exact verified
  | binary kind lhs rhs ihL ihR =>
    simp only [Expr.verify, Bool.and_eq_true] at verified
    obtain ⟨lhs', clonedL, cloned⟩ := Option.bind_eq_some_iff.mp cloned
    obtain ⟨rhs', clonedR, cloned⟩ := Option.bind_eq_some_iff.mp cloned
    obtain ⟨types, rfl⟩ := Expr.mkBinary_eq_some.mp cloned
    rw [Expr.verify, ihL verified.1.2 clonedL, ihR verified.2 clonedR, decide_eq_true types]
    rfl
  | unary kind val ih =>
    obtain ⟨val', clonedVal, rfl⟩ := Option.map_eq_some_iff.mp cloned
    rw [Expr.verify]
    exact ih verified clonedVal
  | broadcast val vf ih =>
    simp only [Expr.verify, Bool.and_eq_true] at verified
    obtain ⟨val', clonedVal, built⟩ := Option.bind_eq_some_iff.mp cloned
    obtain ⟨noVector, rfl⟩ := Expr.mkBroadcast_eq_some.mp built
    rw [Expr.verify, ih verified.1 clonedVal, noVector]
    rfl
  | gep arg indices ih =>
    simp only [Expr.verify, Bool.and_eq_true] at verified
    obtain ⟨indices', rebuilt, built⟩ := Option.bind_eq_some_iff.mp cloned
    obtain ⟨allowed, rfl⟩ := Decls.mkGEP_eq_some.mp built
    rw [Expr.verify, Bool.and_eq_true]
    exact subscripts ih verified.1 rebuilt allowed verified.2
  | load arg indices type ih =>
    simp only [Expr.verify, Bool.and_eq_true] at verified
    obtain ⟨gep, built, loaded⟩ := Option.bind_eq_some_iff.mp cloned
    obtain ⟨indices', rebuilt, built⟩ := Option.bind_eq_some_iff.mp built
    obtain ⟨allowed, rfl⟩ := Decls.mkGEP_eq_some.mp built
    cases loaded
    rw [Expr.verify, Bool.and_eq_true]
    exact subscripts ih verified.1 rebuilt allowed verified.2

theorem Stmt.verify_of_cloneBodyChecked {decls : Decls} {base : LoopId} {scope scope' : List LoopId}
    {ctx : LoopId → LoopId} : ∀ {body body' : List (Stmt F)},
      (∀ s ∈ body, ∀ {s'}, s.verify decls scope = true →
        s.cloneChecked decls base scope ctx = some s' → s'.verify decls scope' = true) →
      Stmt.verifyBody decls scope body = true →
      Stmt.cloneBodyChecked decls base scope ctx body = some body' →
      Stmt.verifyBody decls scope' body' = true
  | [], _, _, _, cloned => by
    cases cloned
    rfl
  | s :: rest, _, each, verified, cloned => by
    rw [Stmt.verifyBody, Bool.and_eq_true] at verified
    obtain ⟨s', clonedS, cloned⟩ := Option.bind_eq_some_iff.mp cloned
    obtain ⟨rest', clonedRest, rfl⟩ := Option.map_eq_some_iff.mp cloned
    rw [Stmt.verifyBody, each s List.mem_cons_self verified.1 clonedS,
      Stmt.verify_of_cloneBodyChecked (fun s mem => each s (List.mem_cons_of_mem _ mem)) verified.2
        clonedRest]
    rfl

theorem Stmt.verify_of_cloneChecked {decls : Decls} {base : LoopId} {s : Stmt F} :
    ∀ {scope scope' : List LoopId} {ctx : LoopId → LoopId} {s' : Stmt F},
      (∀ L ∈ scope, ctx L ∈ scope') → s.verify decls scope = true →
      s.cloneChecked decls base scope ctx = some s' → s'.verify decls scope' = true := by
  induction s using Stmt.inductTree with
  | loop header body ih =>
    intro scope scope' ctx s' moved verified cloned
    rw [Stmt.verify, Bool.and_eq_true] at verified
    obtain ⟨body', clonedBody, rfl⟩ := Option.map_eq_some_iff.mp cloned
    rw [Stmt.verify, Bool.and_eq_true]
    refine ⟨verified.1, Stmt.verify_of_cloneBodyChecked (fun s mem => ih s mem ?_) verified.2 clonedBody⟩
    intro L memL
    -- Inside the loop, its id stands for the new loop.
    by_cases here : L = header.id
    · rw [here, Function.update_self]
      exact List.mem_cons_self
    · rw [Function.update_of_ne here]
      exact List.mem_cons_of_mem _ (moved L (List.mem_of_ne_of_mem here memL))
  | ifRange val start end_ body ih =>
    intro scope scope' ctx s' moved verified cloned
    simp only [Stmt.verify, Bool.and_eq_true] at verified
    obtain ⟨val', clonedVal, cloned⟩ := Option.bind_eq_some_iff.mp cloned
    obtain ⟨body', clonedBody, rfl⟩ := Option.map_eq_some_iff.mp cloned
    simp only [Stmt.verify, Bool.and_eq_true]
    exact ⟨⟨verified.1.1, Expr.verify_of_cloneChecked moved verified.1.2 clonedVal⟩,
      Stmt.verify_of_cloneBodyChecked (fun s mem => ih s mem moved) verified.2 clonedBody⟩
  | call name params =>
    intro scope scope' ctx s' moved verified cloned
    rw [Stmt.cloneChecked, if_pos verified] at cloned
    obtain ⟨params', clonedParams, rfl⟩ := Option.map_eq_some_iff.mp cloned
    have same := Expr.eq_cloneIndices clonedParams
    subst same
    rw [Expr.cloneIndices, Expr.rebuildList_eq_some, List.map_map, List.map_inj_left] at clonedParams
    simp only [Stmt.verify, List.all_eq_true, Bool.and_eq_true, List.all_map,
      Function.comp_apply] at verified ⊢
    intro e mem
    refine ⟨Expr.verify_of_cloneChecked moved (verified e mem).1 (clonedParams e mem), ?_⟩
    have kind := Expr.elementType_clone ctx (verified e mem).1
    have isIndex := (verified e mem).2
    simpa only [ExprType.isIndexTy, kind] using isIndex
  | store arg indices value accumulate =>
    intro scope scope' ctx s' moved verified cloned
    rw [Stmt.cloneChecked, if_pos verified] at cloned
    simp only [Stmt.verify, Bool.and_eq_true] at verified
    obtain ⟨gep, clonedGEP, cloned⟩ := Option.bind_eq_some_iff.mp cloned
    obtain ⟨value', clonedValue, made⟩ := Option.bind_eq_some_iff.mp cloned
    have keptGEP := Expr.verify_of_cloneChecked moved
      (Expr.verify_gep verified.1.1 verified.1.2) clonedGEP
    have keptValue := Expr.verify_of_cloneChecked moved verified.2 clonedValue
    -- The element kind is kept, and the constructor of the store has checked the width.
    have kind := Expr.elementType_clone ctx verified.2
    rw [← Expr.eq_clone clonedValue] at kind
    have gepClone := Expr.eq_clone clonedGEP
    rw [Expr.clone, Expr.mapIndex, Expr.mapIndexList_eq] at gepClone
    subst gepClone
    cases made
    rw [Expr.verify, Bool.and_eq_true] at keptGEP
    simp only [Stmt.verify, Bool.and_eq_true, List.length_map, kind]
    exact ⟨⟨keptGEP.1, verified.1.2⟩, keptValue⟩
  | storeLocal var value accumulate =>
    intro scope scope' ctx s' moved verified cloned
    rw [Stmt.cloneChecked, if_pos verified] at cloned
    simp only [Stmt.verify, Bool.and_eq_true] at verified
    obtain ⟨value', clonedValue, made⟩ := Option.bind_eq_some_iff.mp cloned
    rw [Decls.mkStoreLocal, Option.ite_none_right_eq_some] at made
    obtain ⟨decl, known, same⟩ := Decls.verifyLocal_eq_true verified.1
    obtain ⟨allowed, made⟩ := made
    cases made
    rw [known, Option.any_some, decide_eq_true_eq] at allowed
    simp only [Stmt.verify, Bool.and_eq_true]
    refine ⟨?_, Expr.verify_of_cloneChecked moved verified.2 clonedValue⟩
    rw [allowed, ← same]
    exact verified.1

theorem Program.clone_of_scalar {p : Program F} (verified : p.verify = true)
    (scalar : ∀ s ∈ p.body, ∀ e ∈ s.collectRoots, ∀ index ∈ e.collectIndices,
      index.2 = .scalar .indexTy) :
    p.clone = some { p with body := Stmt.cloneBody p.freshLoop id p.body } := by
  have cloned : ∀ s ∈ p.body, s.cloneChecked p.decls p.freshLoop [] id =
      some (s.clone p.freshLoop id) := fun s mem =>
    Stmt.cloneChecked_of_verify (scalar s mem) (fun L none => none)
      (Program.verify_body verified s mem)
  rw [Program.clone, if_pos verified, Stmt.cloneBodyChecked_eq cloned]
  rfl

/-! ## The clone is a copy -/

/-- The clone of a tree with scalar indices is the tree with other loops. -/
theorem Stmt.clone_eq_relabel {decls : Decls} {base : LoopId} {s : Stmt F} :
    ∀ {scope : List LoopId} {ctx : LoopId → LoopId},
      (∀ e ∈ s.collectRoots, ∀ index ∈ e.collectIndices, index.2 = .scalar .indexTy) →
      (∀ L ∈ scope, ctx L = base + L) → s.verify decls scope = true →
      s.clone base ctx = s.relabel (base + ·) := by
  -- Of an expression only the leaves change, and of these only the indices.
  have root : ∀ {e : Expr F} {scope : List LoopId} {ctx : LoopId → LoopId},
      (∀ index ∈ e.collectIndices, index.2 = .scalar .indexTy) → (∀ L ∈ scope, ctx L = base + L) →
      e.verify decls scope = true → e.clone ctx = e.relabel (base + ·) := by
    intro e scope ctx scalar moved verified
    rw [Expr.clone_eq_mapAtoms, Expr.relabel, Expr.mapIndex_eq_mapAtoms, Expr.mapAtoms_inj]
    intro a mem
    cases a with
    | index loop type =>
      have memI := Expr.mem_collectIndices_of_mem_atoms mem
      have known := (Expr.scoped_of_verify verified _ memI).1
      simp only [Expr.clonedLeaf, Expr.indexOf, moved loop known, ← scalar _ memI]
    | _ => rfl
  induction s using Stmt.inductTree with
  | loop header body ih =>
    intro scope ctx scalar moved verified
    simp only [Stmt.collectRoots_loop, List.mem_flatMap] at scalar
    simp only [Stmt.verify, Stmt.verifyBody_eq, Bool.and_eq_true, List.all_eq_true] at verified
    rw [Stmt.clone, Stmt.relabel, Stmt.cloneBody_eq, Stmt.relabelBody_eq]
    congr 1
    apply List.map_congr_left
    intro s mem
    refine ih s mem (fun e memRoot => scalar e ⟨s, mem, memRoot⟩) ?_ (verified.2 s mem)
    intro L memL
    -- The context maps the loops around the statement, and now this one, to `base + id`.
    by_cases here : L = header.id
    · rw [here, Function.update_self]
    · rw [Function.update_of_ne here]
      exact moved L (List.mem_of_ne_of_mem here memL)
  | ifRange val start end_ body ih =>
    intro scope ctx scalar moved verified
    simp only [Stmt.collectRoots_ifRange, List.mem_cons, List.mem_flatMap] at scalar
    simp only [Stmt.verify, Stmt.verifyBody_eq, Bool.and_eq_true, List.all_eq_true] at verified
    rw [Stmt.clone, Stmt.relabel, Stmt.cloneBody_eq, Stmt.relabelBody_eq,
      root (scalar val (.inl rfl)) moved verified.1.2]
    congr 1
    apply List.map_congr_left
    intro s mem
    exact ih s mem (fun e memRoot => scalar e (.inr ⟨s, mem, memRoot⟩)) moved (verified.2 s mem)
  | call name params =>
    intro scope ctx scalar moved verified
    rw [Stmt.collectRoots_call] at scalar
    have roots := Stmt.verify_roots verified
    rw [Stmt.clone, Stmt.relabel, List.map_congr_left fun e mem =>
      root (scalar e mem) moved (roots e mem)]
  | store arg indices value accumulate =>
    intro scope ctx scalar moved verified
    simp only [Stmt.collectRoots_store, List.mem_append, List.mem_singleton] at scalar
    have roots := Stmt.verify_roots verified
    simp only [Stmt.roots, List.mem_append, List.mem_singleton] at roots
    rw [Stmt.clone, Stmt.relabel, root (scalar value (.inr rfl)) moved (roots value (.inr rfl)),
      List.map_congr_left fun e mem => root (scalar e (.inl mem)) moved (roots e (.inl mem))]
  | storeLocal var value accumulate =>
    intro scope ctx scalar moved verified
    simp only [Stmt.collectRoots_storeLocal, List.mem_singleton] at scalar
    have roots := Stmt.verify_roots verified
    simp only [Stmt.roots, List.mem_singleton] at roots
    rw [Stmt.clone, Stmt.relabel, root (scalar value rfl) moved (roots value rfl)]

/-- `q` is `p` with loops of its own: the same declarations, the same tree, and the same hash.  That
`q` is verified says that its indices refer to its own loops. -/
structure Program.IsCopy (fpWord : F → UInt64) (p q : Program F) : Prop where
  name : q.name = p.name
  args : q.args = p.args
  vars : q.vars = p.vars
  body : ∃ rename : LoopId → LoopId, q.body = Stmt.relabelBody rename p.body ∧
    rename.Injective ∧ ∀ L ∈ Stmt.loopIds p.body, rename L ∉ Stmt.loopIds p.body
  verified : q.verify = true
  hash : q.hash fpWord = p.hash fpWord

theorem Program.loopName_clone {p : Program F} {base : LoopId} {L : LoopId} :
    ({ p with body := Stmt.cloneBody base id p.body } : Program F).loopName (base + L) =
      p.loopName L := by
  have loops : (Stmt.collectLoopsBody (Stmt.cloneBody base id p.body)).map (·.1) =
      (Stmt.collectLoopsBody p.body).map fun loop => { loop.1 with id := base + loop.1.id } := by
    rw [Stmt.cloneBody_eq, Stmt.collectLoopsBody, Stmt.collectLoopsBody, List.flatMap_map,
      List.map_flatMap, List.map_flatMap]
    exact List.flatMap_congr fun s _ => s.collectLoops_clone base id
  have name : ∀ (loops : List (Loop × List (Stmt F))) (K : LoopId),
      ((loops.find? (·.1.id = K)).elim "" fun loop => loop.1.name) =
        ((loops.map (·.1)).find? (·.id = K)).elim "" Loop.name := by
    intro loops K
    rw [List.find?_map, Option.elim_map]
    rfl
  simp only [Program.loopName, Program.findLoop, Program.collectLoops]
  rw [name, loops, List.find?_map, Option.elim_map]
  simp only [Function.comp_def, Nat.add_left_cancel_iff]

theorem Program.isCopy_clone {fpWord : F → UInt64} {p : Program F} (verified : p.verify = true)
    (scalar : ∀ s ∈ p.body, ∀ e ∈ s.collectRoots, ∀ index ∈ e.collectIndices,
      index.2 = .scalar .indexTy) :
    p.IsCopy fpWord { p with body := Stmt.cloneBody p.freshLoop id p.body } := by
  have bodies := Program.verify_body verified
  have tree : Stmt.cloneBody p.freshLoop id p.body =
      Stmt.relabelBody (p.freshLoop + ·) p.body := by
    rw [Stmt.cloneBody_eq, Stmt.relabelBody_eq]
    exact List.map_congr_left fun s mem =>
      Stmt.clone_eq_relabel (scalar s mem) (fun L none => absurd none List.not_mem_nil) (bodies s mem)
  exact {
    name := rfl
    args := rfl
    vars := rfl
    body := by
      -- The loops of the clone are those of the program, moved behind all ids that are taken.
      refine ⟨(p.freshLoop + ·), tree, fun a b same => Nat.add_left_cancel same, ?_⟩
      intro L mem memNew
      exact absurd (Program.lt_freshLoop memNew) (Nat.not_lt.mpr (Nat.le_add_right _ _))
    verified := by
      have nodup := Program.nodup_loopIds verified
      simp only [Program.verify, Bool.and_eq_true, decide_eq_true_eq] at verified ⊢
      refine ⟨⟨verified.1.1, ?_⟩, ?_⟩
      · simp only [Stmt.verifyBody_eq, Stmt.cloneBody_eq, List.all_map, List.all_eq_true]
        exact fun s mem => Stmt.verify_clone (scalar s mem) (fun L none => none) (bodies s mem)
      · rw [Stmt.loopIds_clone]
        exact nodup.map fun a b same => Nat.add_left_cancel same
    hash := by
      rw [Program.hash, Program.hash, tree, Stmt.relabelBody_eq, List.length_map]
      rw [Stmt.hashBody_congr]
      · rfl
      · intro s mem
        apply Stmt.hash_relabel
        intro e memRoot index memI
        rw [← Stmt.relabelBody_eq, ← tree]
        exact Program.loopName_clone }

/-- The clone of a verified program is a copy exactly when no index has a vector type. -/
theorem Program.clone_isCopy (fpWord : F → UInt64) {p : Program F} (verified : p.verify = true) :
    (∃ q, p.clone = some q ∧ p.IsCopy fpWord q) ↔
      ∀ s ∈ p.body, ∀ e ∈ s.collectRoots, ∀ index ∈ e.collectIndices, index.2.isVector = false := by
  constructor
  · rintro ⟨q, cloned, copy⟩ s mem e memRoot index memI
    rw [Program.clone, if_pos verified, Option.map_eq_some_iff] at cloned
    obtain ⟨body, clonedBody, rfl⟩ := cloned
    obtain ⟨rename, same, -⟩ := copy.body
    rw [Stmt.eq_cloneBody clonedBody, Stmt.cloneBody_eq, Stmt.relabelBody_eq,
      List.map_inj_left] at same
    -- The clone of the statement has scalar indices, and the copy has those of the statement.
    have renamed : (rename index.1, index.2) ∈ (e.relabel rename).collectIndices := by
      rw [Expr.collectIndices_relabel]
      exact List.mem_map_of_mem memI
    have memClone : e.relabel rename ∈ (s.clone p.freshLoop id).collectRoots := by
      rw [same s mem, Stmt.collectRoots_relabel]
      exact List.mem_map_of_mem memRoot
    have scalar := Stmt.scalar_clone _ memClone _ renamed
    rw [show index.2 = _ from scalar, ExprType.isVector_scalar]
  · intro noVector
    have scalar : ∀ s ∈ p.body, ∀ e ∈ s.collectRoots, ∀ index ∈ e.collectIndices,
        index.2 = .scalar .indexTy := by
      intro s mem e memRoot index memI
      have isIndex := (Stmt.scoped_of_verify (Program.verify_body verified s mem) e memRoot index
        memI).2
      rw [ExprType.isIndexTy, decide_eq_true_eq] at isIndex
      rw [← isIndex]
      exact ExprType.eq_scalar_of_not_isVector (noVector s mem e memRoot index memI)
    exact ⟨_, Program.clone_of_scalar verified scalar, Program.isCopy_clone verified scalar⟩

/-- `for (i in 0 .. 4) { A[i] = i; for (j in 0 .. 4) B[j] += 1.0 }`. -/
def nestedFill : Program Int where
  name := "nested_fill"
  args := [⟨"A", ⟨[4], ["x"], .indexTy, oneDim⟩⟩, ⟨"B", ⟨[4], ["x"], .float32Ty, oneDim⟩⟩]
  vars := []
  body := [.loop ⟨0, "i", 4, 1⟩
    [.store 0 [.indexOf 0] (.indexOf 0) false,
      .loop ⟨1, "j", 4, 1⟩ [.store 1 [.indexOf 1] (.constFP 1) true]]]

theorem Program.clone_isCopy_nestedFill :
    ∃ q, nestedFill.clone = some q ∧ nestedFill.IsCopy UInt64.ofInt q :=
  (Program.clone_isCopy UInt64.ofInt (by decide)).mpr (by decide)

/-- `for (i in 0 .. 8, 4) A[i].4 = i + 1`, a loop that `vectorize` has visited. -/
def vectorizedSum : Program Int where
  name := "vectorized_sum"
  args := [⟨"A", ⟨[8], ["x"], .indexTy, oneDim⟩⟩]
  vars := []
  body := [.loop ⟨0, "i", 8, 4⟩
    [.store 0 [.indexOf 0] (.binary .add (.index 0 ⟨.indexTy, ⟨4, VecWidth.fits_four⟩⟩)
      (.broadcast (.const 1) ⟨4, VecWidth.fits_four⟩)) false]]

/-- The operands of the sum do not have the same type once the index is cloned. -/
theorem Program.clone_vectorizedSum :
    vectorizedSum.verify = true ∧ vectorizedSum.clone = none := by decide

end Bistra
