import Bistra.Program.Preservation

/-! # Outlines

The leaves of a tree in their order, each with what the scopes around it are.  An index is given by
the number of loops between it and its loop, so that the outline does not depend on the addresses of
the loops.
-/

namespace Bistra

variable {F : Type}

/-- What a leaf sees of a scope around it. -/
inductive Enclosing (F : Type) where
  | loop (end_ stride : UInt32)
  | ifRange (val : Expr F) (start end_ : Int32)

/-- A leaf and the scopes around it, outermost first. -/
structure Occurrence (F : Type) where
  around : List (Enclosing F)
  leaf : Stmt F

def Occurrence.under (scope : Enclosing F) (o : Occurrence F) : Occurrence F :=
  { o with around := scope :: o.around }

/-- The expression with the places of the loops among `loops` instead of the loops. -/
def Expr.place (loops : List LoopId) : Expr F → Expr F :=
  Expr.mapIndex fun L type => .index (loops.idxOf L) type

mutual

/-- The outline of a statement in the loops `loops`. -/
def Stmt.outline (loops : List LoopId) : Stmt F → List (Occurrence F)
  | .loop header body =>
    (Stmt.outlineBody (header.id :: loops) body).map
      (Occurrence.under (.loop header.end_ header.stride))
  | .ifRange val start end_ body =>
    (Stmt.outlineBody loops body).map
      (Occurrence.under (.ifRange (val.place loops) start end_))
  | s => [⟨[], s.mapExprs (Expr.place loops)⟩]

def Stmt.outlineBody (loops : List LoopId) : List (Stmt F) → List (Occurrence F)
  | [] => []
  | s :: rest => s.outline loops ++ Stmt.outlineBody loops rest

end

def Program.outline (p : Program F) : List (Occurrence F) := Stmt.outlineBody [] p.body

/-- The statement with the indices that `IndexExpr::clone` makes: they are scalar. -/
def Stmt.narrow : Stmt F → Stmt F := Stmt.mapExprs (Expr.clone id)

@[simp] theorem Stmt.outlineBody_eq (loops : List LoopId) (body : List (Stmt F)) :
    Stmt.outlineBody loops body = body.flatMap (Stmt.outline loops) := by
  induction body with
  | nil => rfl
  | cons s rest ih => simp [Stmt.outlineBody, ih]

theorem Stmt.outline_leaf {loops : List LoopId} {s : Stmt F} (leaf : s.isScope = false) :
    s.outline loops = [⟨[], s.mapExprs (Expr.place loops)⟩] := by
  cases s with
  | loop | ifRange => cases leaf
  | call | store | storeLocal => rfl

@[simp] theorem Stmt.narrow_loop (header : Loop) (body : List (Stmt F)) :
    (Stmt.loop header body).narrow = .loop header (body.map Stmt.narrow) := by
  rw [Stmt.narrow, Stmt.mapExprs, Stmt.mapExprsBody_eq]

@[simp] theorem Stmt.narrow_ifRange (val : Expr F) (start end_ : Int32) (body : List (Stmt F)) :
    (Stmt.ifRange val start end_ body).narrow =
      .ifRange (val.clone id) start end_ (body.map Stmt.narrow) := by
  rw [Stmt.narrow, Stmt.mapExprs, Stmt.mapExprsBody_eq]

theorem Stmt.mem_loopIds {body : List (Stmt F)} {s : Stmt F} {K : LoopId} (mem : s ∈ body)
    (memK : K ∈ s.collectLoops.map (·.1.id)) : K ∈ Stmt.loopIds body := by
  rw [Stmt.loopIds, Stmt.collectLoopsBody, List.map_flatMap]
  exact List.mem_flatMap.mpr ⟨s, mem, memK⟩

theorem Stmt.nodup_ids {body : List (Stmt F)} {s : Stmt F} (nodup : (Stmt.loopIds body).Nodup)
    (mem : s ∈ body) : (s.collectLoops.map (·.1.id)).Nodup := by
  rw [Stmt.loopIds, Stmt.collectLoopsBody, List.map_flatMap, List.nodup_flatMap] at nodup
  exact nodup.1 s mem

@[simp] theorem Stmt.isScope_mapExprs (f : Expr F → Expr F) (s : Stmt F) :
    (s.mapExprs f).isScope = s.isScope := by
  cases s <;> rfl

@[simp] theorem Stmt.isScope_clone (base : LoopId) (ctx : LoopId → LoopId) (s : Stmt F) :
    (s.clone base ctx).isScope = s.isScope := by
  cases s <;> rfl

/-! ## Replacing the indices of a leaf -/

theorem Expr.mapIndex_mapIndex (f g : LoopId → ExprType → Expr F) (e : Expr F) :
    (e.mapIndex f).mapIndex g = e.mapIndex fun L type => (f L type).mapIndex g := by
  induction e using Expr.inductTree with
  | index | const | constFP | constString | loadLocal => rfl
  | binary kind lhs rhs ihL ihR => simp only [Expr.mapIndex, ihL, ihR]
  | unary kind val ih | broadcast val vf ih => simp only [Expr.mapIndex, ih]
  | gep arg indices ih | load arg indices type ih =>
    simp only [Expr.mapIndex, Expr.mapIndexList_eq, List.map_map,
      Function.comp_def]
    rw [List.map_congr_left ih]

theorem Expr.mapIndex_inj {f g : LoopId → ExprType → Expr F} {e : Expr F} :
    e.mapIndex f = e.mapIndex g ↔ ∀ index ∈ e.collectIndices, f index.1 index.2 = g index.1 index.2 := by
  induction e using Expr.inductTree with
  | index loop type => simp [Expr.mapIndex, Expr.collectIndices]
  | const | constFP | constString | loadLocal => simp [Expr.mapIndex, Expr.collectIndices]
  | binary kind lhs rhs ihL ihR =>
    simp only [Expr.mapIndex, Expr.collectIndices, Expr.binary.injEq, true_and, ihL, ihR,
      List.forall_mem_append]
  | unary kind val ih | broadcast val vf ih =>
    simpa [Expr.mapIndex, Expr.collectIndices] using ih
  | gep arg indices ih | load arg indices type ih =>
    simp only [Expr.mapIndex, Expr.mapIndexList_eq, Expr.collectIndices, Expr.collectIndicesList_eq,
      Expr.gep.injEq, Expr.load.injEq, true_and, and_true, List.map_inj_left, List.mem_flatMap]
    constructor
    · intro same index mem
      obtain ⟨e, memE, memIndex⟩ := mem
      exact (ih e memE).mp (same e memE) index memIndex
    · exact fun same e memE => (ih e memE).mpr fun index memIndex => same index ⟨e, memE, memIndex⟩

theorem Stmt.mapExprs_mapExprs (f g : Expr F → Expr F) (s : Stmt F) :
    (s.mapExprs f).mapExprs g = s.mapExprs fun e => g (f e) := by
  induction s using Stmt.inductTree with
  | loop header body ih =>
    simp only [Stmt.mapExprs, Stmt.mapExprsBody_eq, List.map_map,
      Function.comp_def]
    rw [List.map_congr_left ih]
  | ifRange val start end_ body ih =>
    simp only [Stmt.mapExprs, Stmt.mapExprsBody_eq, List.map_map,
      Function.comp_def]
    rw [List.map_congr_left ih]
  | call | store | storeLocal => simp [Stmt.mapExprs, Function.comp_def]

theorem Stmt.mapExprs_inj {f g : Expr F → Expr F} {s : Stmt F} (leaf : s.isScope = false) :
    s.mapExprs f = s.mapExprs g ↔ ∀ e ∈ s.roots, f e = g e := by
  cases s with
  | loop | ifRange => cases leaf
  | call name params => simp [Stmt.mapExprs, Stmt.roots]
  | store arg indices value accumulate =>
    simp [Stmt.mapExprs, Stmt.roots, or_imp, forall_and]
  | storeLocal var value accumulate => simp [Stmt.mapExprs, Stmt.roots]

/-! ## Clones for another loop -/

theorem Expr.replaceIndex_clone (L NL : LoopId) (ctx : LoopId → LoopId) (e : Expr F) :
    Expr.replaceIndex L (.indexOf NL) (e.clone ctx) =
      e.clone fun K => if ctx K = L then NL else ctx K := by
  simp only [Expr.clone, Expr.replaceIndex, Expr.mapIndex_mapIndex]
  rw [Expr.mapIndex_inj]
  intro index mem
  simp only [Expr.indexOf, Expr.mapIndex]
  split <;> rfl

/-- Replacing the index of a loop in a clone gives the clone in another context, when no loop of the
clone is that loop. -/
theorem Stmt.replaceIndex_clone {base L NL : LoopId} {s : Stmt F} : ∀ {ctx : LoopId → LoopId},
    (∀ K ∈ s.collectLoops.map (·.1.id), base + K ≠ L) →
    (s.clone base ctx).mapExprs (Expr.replaceIndex L (.indexOf NL)) =
      s.clone base fun K => if ctx K = L then NL else ctx K := by
  induction s using Stmt.inductTree with
  | loop header body ih =>
    intro ctx apart
    rw [Stmt.ids_loop, List.forall_mem_cons] at apart
    have each : ∀ s ∈ body, ∀ K ∈ s.collectLoops.map (·.1.id), base + K ≠ L := fun s mem K memK =>
      apart.2 K (Stmt.mem_loopIds mem memK)
    have enter : (fun K => if Function.update ctx header.id (base + header.id) K = L then NL
          else Function.update ctx header.id (base + header.id) K) =
        Function.update (fun K => if ctx K = L then NL else ctx K) header.id (base + header.id) := by
      funext K
      by_cases here : K = header.id
      · simp [here, apart.1]
      · simp [here]
    simp only [Stmt.clone, Stmt.cloneBody_eq, Stmt.mapExprs, Stmt.mapExprsBody_eq, List.map_map,
      Function.comp_def, ← enter]
    rw [List.map_congr_left fun s mem => ih s mem (each s mem)]
  | ifRange val start end_ body ih =>
    intro ctx apart
    rw [Stmt.ids_ifRange] at apart
    have each : ∀ s ∈ body, ∀ K ∈ s.collectLoops.map (·.1.id), base + K ≠ L := fun s mem K memK =>
      apart K (Stmt.mem_loopIds mem memK)
    simp only [Stmt.clone, Stmt.cloneBody_eq, Stmt.mapExprs, Stmt.mapExprsBody_eq, List.map_map,
      Function.comp_def, Expr.replaceIndex_clone]
    rw [List.map_congr_left fun s mem => ih s mem (each s mem)]
  | call | store | storeLocal =>
    intro ctx _
    rw [Stmt.clone_leaf rfl, Stmt.clone_leaf rfl, Stmt.mapExprs_mapExprs]
    simp only [Expr.replaceIndex_clone]

/-! ## The outline of a clone -/

theorem Expr.place_clone {ctx : LoopId → LoopId} {loops loops' : List LoopId} {e : Expr F}
    (placed : ∀ index ∈ e.collectIndices, loops'.idxOf (ctx index.1) = loops.idxOf index.1) :
    (e.clone ctx).place loops' = (e.clone id).place loops := by
  simp only [Expr.place, Expr.clone, Expr.mapIndex_mapIndex]
  rw [Expr.mapIndex_inj]
  intro index mem
  simp only [Expr.indexOf, Expr.mapIndex, placed index mem, id]

/-- A clone has the outline of the statement with scalar indices, when the context keeps the places
of the loops around the statement and does not confuse them with those of the clone. -/
theorem Stmt.outline_clone {decls : Decls} {base : LoopId} {s : Stmt F} :
    ∀ {loops loops' : List LoopId} {ctx : LoopId → LoopId}, s.verify decls loops = true →
      (s.collectLoops.map (·.1.id)).Nodup →
      (∀ L ∈ loops, loops'.idxOf (ctx L) = loops.idxOf L) →
      (∀ L ∈ loops, ∀ K ∈ s.collectLoops.map (·.1.id), ctx L ≠ base + K) →
      (s.clone base ctx).outline loops' = s.narrow.outline loops := by
  induction s using Stmt.inductTree with
  | loop header body ih =>
    intro loops loops' ctx verified nodup placed apart
    simp only [Stmt.verify, Bool.and_eq_true, Stmt.verifyBody_eq, List.all_eq_true] at verified
    rw [Stmt.ids_loop] at nodup apart
    obtain ⟨outside, nodup⟩ := List.nodup_cons.mp nodup
    rw [Stmt.narrow_loop, Stmt.clone, Stmt.outline, Stmt.outline, Stmt.outlineBody_eq,
      Stmt.outlineBody_eq, Stmt.cloneBody_eq, List.flatMap_map, List.flatMap_map]
    congr 1
    refine List.flatMap_congr fun s mem => ih s mem (verified.2 s mem) (Stmt.nodup_ids nodup mem) ?_ ?_
    · intro L memL
      -- The place of the loop is the same before and after; those around it are where they were.
      by_cases here : L = header.id
      · simp [here]
      · have around := List.mem_of_ne_of_mem here memL
        -- The new address is none of those of the loops around the clone.
        have differs : base + header.id ≠ ctx L := (apart L around _ List.mem_cons_self).symm
        rw [Function.update_of_ne here, List.idxOf_cons_ne _ differs, placed L around,
          List.idxOf_cons_ne _ (Ne.symm here)]
    · intro L memL K memK
      by_cases here : L = header.id
      · rw [here, Function.update_self]
        intro same
        exact outside (Nat.add_left_cancel same ▸ Stmt.mem_loopIds mem memK)
      · rw [Function.update_of_ne here]
        exact apart L (List.mem_of_ne_of_mem here memL) K (List.mem_cons_of_mem _ (Stmt.mem_loopIds mem memK))
  | ifRange val start end_ body ih =>
    intro loops loops' ctx verified nodup placed apart
    have guarded := Stmt.verify_roots verified val (by simp [Stmt.roots])
    simp only [Stmt.verify, Bool.and_eq_true, Stmt.verifyBody_eq, List.all_eq_true] at verified
    rw [Stmt.ids_ifRange] at nodup apart
    rw [Stmt.narrow_ifRange, Stmt.clone, Stmt.outline, Stmt.outline, Stmt.outlineBody_eq,
      Stmt.outlineBody_eq, Stmt.cloneBody_eq, List.flatMap_map, List.flatMap_map,
      Expr.place_clone fun index mem => placed _ (Expr.scoped_of_verify guarded index mem).1]
    congr 1
    exact List.flatMap_congr fun s mem => ih s mem (verified.2 s mem) (Stmt.nodup_ids nodup mem) placed
      fun L memL K memK => apart L memL K (Stmt.mem_loopIds mem memK)
  | call | store | storeLocal =>
    intro loops loops' ctx verified nodup placed apart
    rw [Stmt.clone_leaf rfl, Stmt.narrow, Stmt.outline_leaf (Stmt.isScope_mapExprs _ _),
      Stmt.outline_leaf (Stmt.isScope_mapExprs _ _), Stmt.mapExprs_mapExprs,
      Stmt.mapExprs_mapExprs]
    congr 2
    rw [Stmt.mapExprs_inj rfl]
    intro e mem
    have owned := Stmt.verify_roots verified e mem
    exact Expr.place_clone fun index memIndex => placed _ (Expr.scoped_of_verify owned index memIndex).1

/-! ## Narrowed statements -/

theorem Stmt.narrow_of_scalar {s : Stmt F}
    (scalar : ∀ e ∈ s.collectRoots, ∀ index ∈ e.collectIndices, index.2 = .scalar .indexTy) :
    s.narrow = s := by
  apply Stmt.mapExprs_self
  intro e memRoot
  apply Expr.mapIndex_self
  intro index mem
  rw [scalar e memRoot index mem]
  rfl

theorem all_map_eq {α β γ : Type} {p : β → Bool} {q : γ → Bool} {f : α → β} {g : α → γ}
    {l : List α} (each : ∀ a ∈ l, p (f a) = q (g a)) : (l.map f).all p = (l.map g).all q := by
  induction l with
  | nil => rfl
  | cons a rest ih =>
    rw [List.forall_mem_cons] at each
    rw [List.map_cons, List.map_cons, List.all_cons, List.all_cons, each.1, ih each.2]

theorem map_eq_self {α : Type} {f : α → α} {l : List α} (each : ∀ a ∈ l, f a = a) : l.map f = l :=
  (List.map_congr_left each).trans (List.map_id l)

theorem Expr.getType_clone_eq (ctx ctx' : LoopId → LoopId) (e : Expr F) :
    (e.clone ctx).getType = (e.clone ctx').getType := by
  induction e using Expr.inductTree with
  | index | const | constFP | constString | gep | load | loadLocal => rfl
  | binary kind lhs rhs ihL _ => exact ihL
  | unary kind val ih => exact ih
  | broadcast val vf ih =>
    exact congrArg (fun type : ExprType => (⟨type.elementType, vf⟩ : ExprType)) ih

theorem Expr.verify_clone_eq {decls : Decls} {scope scope₁ scope₂ : List LoopId}
    {ctx ctx' : LoopId → LoopId} {e : Expr F} (moved : ∀ L ∈ scope, ctx L ∈ scope₁)
    (moved' : ∀ L ∈ scope, ctx' L ∈ scope₂) (verified : e.verify decls scope = true) :
    (e.clone ctx).verify decls scope₁ = (e.clone ctx').verify decls scope₂ := by
  induction e using Expr.inductTree with
  | index loop type =>
    simp only [Expr.verify, Bool.and_eq_true, decide_eq_true_eq] at verified
    simp [Expr.clone, Expr.mapIndex, Expr.indexOf, Expr.verify, moved loop verified.2,
      moved' loop verified.2]
  | const | constFP | constString | loadLocal => rfl
  | binary kind lhs rhs ihL ihR =>
    simp only [Expr.verify, Bool.and_eq_true] at verified
    have left := ihL verified.1.2
    have right := ihR verified.2
    have typeL := Expr.getType_clone_eq ctx ctx' lhs
    have typeR := Expr.getType_clone_eq ctx ctx' rhs
    simp only [Expr.clone] at left right typeL typeR
    simp only [Expr.clone, Expr.mapIndex, Expr.verify, left, right, typeL, typeR]
  | unary kind val ih => exact ih verified
  | broadcast val vf ih =>
    simp only [Expr.verify, Bool.and_eq_true] at verified
    have inner := ih verified.1
    have type := Expr.getType_clone_eq ctx ctx' val
    simp only [Expr.clone] at inner type
    simp only [Expr.clone, Expr.mapIndex, Expr.verify, inner, type]
  | gep arg indices ih | load arg indices type ih =>
    simp only [Expr.verify, Bool.and_eq_true, Expr.verifyIndices_eq, List.all_eq_true] at verified
    have each : Expr.verifyIndices decls scope₁ (indices.map (Expr.clone ctx)) =
        Expr.verifyIndices decls scope₂ (indices.map (Expr.clone ctx')) := by
      rw [Expr.verifyIndices_eq, Expr.verifyIndices_eq]
      apply all_map_eq
      intro e mem
      rw [ih e mem (verified.1 e mem).1, Expr.getType_clone_eq ctx ctx']
    simp only [Expr.clone] at each
    simp only [Expr.clone, Expr.mapIndex, Expr.mapIndexList_eq, Expr.verify, List.length_map, each]

theorem Stmt.verify_clone_eq {decls : Decls} {base : LoopId} {s : Stmt F} :
    ∀ {scope scope' : List LoopId} {ctx : LoopId → LoopId}, s.verify decls scope = true →
      (∀ L ∈ scope, ctx L ∈ scope') →
      (s.clone base ctx).verify decls scope' = s.narrow.verify decls scope := by
  have stay : ∀ {scope : List LoopId}, ∀ L ∈ scope, id L ∈ scope := fun L mem => mem
  induction s using Stmt.inductTree with
  | loop header body ih =>
    intro scope scope' ctx verified moved
    simp only [Stmt.verify, Bool.and_eq_true, Stmt.verifyBody_eq, List.all_eq_true] at verified
    -- Whether the clone is verified does not depend on the loop that the context gives, as long as
    -- it is around the clone.
    have enter : ∀ L ∈ header.id :: scope,
        Function.update ctx header.id (base + header.id) L ∈ (base + header.id) :: scope' := by
      intro L mem
      by_cases here : L = header.id
      · simp [here]
      · rw [Function.update_of_ne here]
        exact List.mem_cons_of_mem _ (moved L (List.mem_of_ne_of_mem here mem))
    rw [Stmt.narrow_loop, Stmt.clone, Stmt.verify, Stmt.verify, Stmt.cloneBody_eq,
      Stmt.verifyBody_eq, Stmt.verifyBody_eq]
    congr 1
    exact all_map_eq fun s mem => ih s mem (verified.2 s mem) enter
  | ifRange val start end_ body ih =>
    intro scope scope' ctx verified moved
    simp only [Stmt.verify, Bool.and_eq_true, Stmt.verifyBody_eq, List.all_eq_true] at verified
    rw [Stmt.narrow_ifRange, Stmt.clone, Stmt.verify, Stmt.verify, Stmt.cloneBody_eq,
      Stmt.verifyBody_eq, Stmt.verifyBody_eq,
      Expr.verify_clone_eq moved stay verified.1.2]
    congr 1
    exact all_map_eq fun s mem => ih s mem (verified.2 s mem) moved
  | call name params =>
    intro scope scope' ctx verified moved
    simp only [Stmt.verify, List.all_eq_true, Bool.and_eq_true] at verified
    simp only [Stmt.clone, Stmt.narrow, Stmt.mapExprs, Stmt.verify]
    apply all_map_eq
    intro e mem
    rw [Expr.getType_clone_eq ctx id, Expr.verify_clone_eq moved stay (verified e mem).1]
  | store arg indices value accumulate =>
    intro scope scope' ctx verified moved
    simp only [Stmt.verify, Bool.and_eq_true, Expr.verifyIndices_eq, List.all_eq_true] at verified
    simp only [Stmt.clone, Stmt.narrow, Stmt.mapExprs, Stmt.verify, Expr.verifyIndices_eq,
      List.length_map, Expr.getType_clone_eq ctx id value,
      Expr.verify_clone_eq moved stay verified.2]
    congr 2
    apply all_map_eq
    intro e mem
    rw [Expr.getType_clone_eq ctx id,
      Expr.verify_clone_eq moved stay (verified.1.1 e mem).1]
  | storeLocal var value accumulate =>
    intro scope scope' ctx verified moved
    simp only [Stmt.verify, Bool.and_eq_true] at verified
    simp only [Stmt.clone, Stmt.narrow, Stmt.mapExprs, Stmt.verify,
      Expr.getType_clone_eq ctx id value,
      Expr.verify_clone_eq moved stay verified.2]

theorem Stmt.verify_narrow_eq {decls : Decls} {scope scope' : List LoopId} {s : Stmt F}
    (verified : s.verify decls scope = true) (verified' : s.verify decls scope' = true) :
    s.narrow.verify decls scope = s.narrow.verify decls scope' := by
  have clone : (s.clone 0 id).verify decls (scope ++ scope') = s.narrow.verify decls scope :=
    Stmt.verify_clone_eq verified fun L mem => List.mem_append_left _ mem
  rw [← clone]
  exact Stmt.verify_clone_eq verified' fun L mem => List.mem_append_right _ mem

/-! ## What narrowing changes -/

mutual

/-- The expressions of the leaves below a statement and of the range checks around them. -/
def Stmt.leafExprs : Stmt F → List (Expr F)
  | .loop _ body => Stmt.leafExprsBody body
  | .ifRange val _ _ body =>
    if body.any Stmt.hasLeaf then val :: Stmt.leafExprsBody body else []
  | s => s.roots

def Stmt.leafExprsBody : List (Stmt F) → List (Expr F)
  | [] => []
  | s :: rest => s.leafExprs ++ Stmt.leafExprsBody rest

end

@[simp] theorem Stmt.leafExprsBody_eq (body : List (Stmt F)) :
    Stmt.leafExprsBody body = body.flatMap Stmt.leafExprs := by
  induction body with
  | nil => rfl
  | cons s rest ih => simp [Stmt.leafExprsBody, ih]

theorem Expr.place_clone_iff {loops : List LoopId} {e : Expr F} :
    (e.clone id).place loops = e.place loops ↔
      ∀ index ∈ e.collectIndices, index.2 = .scalar .indexTy := by
  simp only [Expr.place, Expr.clone, Expr.mapIndex_mapIndex]
  rw [Expr.mapIndex_inj]
  simp only [Expr.indexOf, Expr.mapIndex, id, Expr.index.injEq, true_and]
  exact forall₂_congr fun index mem => eq_comm

theorem Occurrence.under_injective (scope : Enclosing F) :
    Function.Injective (Occurrence.under scope) := by
  rintro ⟨around, leaf⟩ ⟨around', leaf'⟩ same
  simp only [Occurrence.under, Occurrence.mk.injEq, List.cons.injEq, true_and] at same
  rw [same.1, same.2]

theorem Occurrence.map_under_iff {scope scope' : Enclosing F} {os os' : List (Occurrence F)}
    (nonempty : os ≠ []) :
    os'.map (Occurrence.under scope') = os.map (Occurrence.under scope) ↔
      scope' = scope ∧ os' = os := by
  obtain ⟨o, rest, rfl⟩ := List.exists_cons_of_ne_nil nonempty
  constructor
  · intro same
    obtain ⟨o', rest', rfl, first, -⟩ := List.map_eq_cons_iff.mp same
    have scopes : scope' = scope := by
      simp only [Occurrence.under, Occurrence.mk.injEq, List.cons.injEq] at first
      exact first.1.1
    subst scopes
    exact ⟨rfl, (Occurrence.under_injective _).list_map same⟩
  · intro same
    rw [same.1, same.2]

theorem Stmt.length_outline_narrow {s : Stmt F} : ∀ loops : List LoopId,
    (s.narrow.outline loops).length = (s.outline loops).length := by
  induction s using Stmt.inductTree with
  | loop header body ih =>
    intro loops
    simp only [Stmt.narrow_loop, Stmt.outline, Stmt.outlineBody_eq, List.length_map,
      List.flatMap_map, List.length_flatMap]
    rw [List.map_congr_left fun s mem => ih s mem _]
  | ifRange val start end_ body ih =>
    intro loops
    simp only [Stmt.narrow_ifRange, Stmt.outline, Stmt.outlineBody_eq, List.length_map,
      List.flatMap_map, List.length_flatMap]
    rw [List.map_congr_left fun s mem => ih s mem _]
  | call | store | storeLocal => exact fun _ => rfl

theorem Stmt.outline_eq_nil {s : Stmt F} : ∀ {loops : List LoopId},
    s.outline loops = [] ↔ s.hasLeaf = false := by
  have below : ∀ {body : List (Stmt F)} {loops : List LoopId},
      (∀ s ∈ body, s.outline loops = [] ↔ s.hasLeaf = false) →
      (body.flatMap (Stmt.outline loops) = [] ↔ body.any Stmt.hasLeaf = false) := by
    intro body loops each
    rw [List.flatMap_eq_nil_iff, List.any_eq_false]
    simp only [Bool.not_eq_true]
    exact forall₂_congr each
  induction s using Stmt.inductTree with
  | loop header body ih =>
    intro loops
    rw [Stmt.outline, Stmt.outlineBody_eq, List.map_eq_nil_iff, below fun s mem => ih s mem,
      Stmt.hasLeaf, Stmt.hasLeafBody_eq]
  | ifRange val start end_ body ih =>
    intro loops
    rw [Stmt.outline, Stmt.outlineBody_eq, List.map_eq_nil_iff, below fun s mem => ih s mem,
      Stmt.hasLeaf, Stmt.hasLeafBody_eq]
  | call | store | storeLocal =>
    intro loops
    simp [Stmt.outline, Stmt.hasLeaf]

theorem Stmt.outlineBody_map_iff {f : Stmt F → Stmt F} {loops : List LoopId} {body : List (Stmt F)}
    (lengths : ∀ s ∈ body, ((f s).outline loops).length = (s.outline loops).length) :
    (body.map f).flatMap (Stmt.outline loops) = body.flatMap (Stmt.outline loops) ↔
      ∀ s ∈ body, (f s).outline loops = s.outline loops := by
  induction body with
  | nil => simp
  | cons s rest ih =>
    rw [List.forall_mem_cons] at lengths
    rw [List.map_cons, List.flatMap_cons, List.flatMap_cons, List.forall_mem_cons, ← ih lengths.2]
    constructor
    · exact fun same => List.append_inj same lengths.1
    · intro same
      rw [same.1, same.2]

/-- Narrowing keeps the outline of a statement exactly when no index of a leaf, or of a range check
around a leaf, has a vector type. -/
theorem Stmt.outline_narrow_iff {s : Stmt F} : ∀ {loops : List LoopId},
    s.narrow.outline loops = s.outline loops ↔
      ∀ e ∈ s.leafExprs, ∀ index ∈ e.collectIndices, index.2 = .scalar .indexTy := by
  induction s using Stmt.inductTree with
  | loop header body ih =>
    intro loops
    rw [Stmt.narrow_loop, Stmt.outline, Stmt.outline, Stmt.outlineBody_eq, Stmt.outlineBody_eq,
      (Occurrence.under_injective _).list_map.eq_iff, 
      Stmt.outlineBody_map_iff fun s _ => Stmt.length_outline_narrow _, Stmt.leafExprs,
      Stmt.leafExprsBody_eq]
    simp only [List.mem_flatMap, forall_exists_index, and_imp]
    rw [forall₂_congr fun s mem => ih s mem]
    tauto
  | ifRange val start end_ body ih =>
    intro loops
    rw [Stmt.narrow_ifRange, Stmt.outline, Stmt.outline, Stmt.outlineBody_eq, Stmt.outlineBody_eq,
      Stmt.leafExprs]
    split
    next some =>
      -- A leaf below the range check shows its operand.
      obtain ⟨s, memS, leaf⟩ := List.any_eq_true.mp some
      have nonempty : body.flatMap (Stmt.outline loops) ≠ [] := by
        intro none
        rw [Stmt.outline_eq_nil.mp (List.flatMap_eq_nil_iff.mp none s memS)] at leaf
        cases leaf
      rw [Occurrence.map_under_iff nonempty,
        Stmt.outlineBody_map_iff fun s _ => Stmt.length_outline_narrow _, Enclosing.ifRange.injEq,
        Expr.place_clone_iff, Stmt.leafExprsBody_eq, List.forall_mem_cons,
        forall₂_congr fun s mem => ih s mem]
      simp only [and_true, List.mem_flatMap, forall_exists_index, and_imp]
      tauto
    next none =>
      have empty : body.flatMap (Stmt.outline loops) = [] := by
        rw [List.flatMap_eq_nil_iff]
        intro s mem
        rw [Stmt.outline_eq_nil]
        exact Bool.not_eq_true _ ▸ fun leaf => none (List.any_eq_true.mpr ⟨s, mem, leaf⟩)
      have narrowed : (body.map Stmt.narrow).flatMap (Stmt.outline loops) = [] := by
        rw [List.flatMap_map, List.flatMap_eq_nil_iff]
        intro s mem
        rw [← List.length_eq_zero_iff, Stmt.length_outline_narrow,
          List.flatMap_eq_nil_iff.mp empty s mem, List.length_nil]
      simp [empty, narrowed]
  | call | store | storeLocal =>
    intro loops
    rw [Stmt.narrow, Stmt.outline_leaf (Stmt.isScope_mapExprs _ _), Stmt.outline_leaf rfl,
      Stmt.mapExprs_mapExprs, List.singleton_inj, Occurrence.mk.injEq, Stmt.mapExprs_inj rfl]
    simp only [true_and, Stmt.leafExprs]
    exact forall₂_congr fun e mem => Expr.place_clone_iff

theorem Stmt.hasLeaf_of_mem_leafExprs {s : Stmt F} {e : Expr F} (mem : e ∈ s.leafExprs) :
    s.hasLeaf = true := by
  induction s using Stmt.inductTree with
  | loop header body ih =>
    rw [Stmt.leafExprs, Stmt.leafExprsBody_eq] at mem
    obtain ⟨s, memS, memE⟩ := List.mem_flatMap.mp mem
    rw [Stmt.hasLeaf, Stmt.hasLeafBody_eq]
    exact List.any_eq_true.mpr ⟨s, memS, ih s memS memE⟩
  | ifRange val start end_ body ih =>
    rw [Stmt.leafExprs] at mem
    split at mem
    next some =>
      rw [Stmt.hasLeaf, Stmt.hasLeafBody_eq]
      exact some
    next => cases mem
  | call | store | storeLocal => rfl

theorem Stmt.leafExprs_of_loop {s : Stmt F} {loop : Loop × List (Stmt F)}
    (mem : loop ∈ s.collectLoops) : ∀ t ∈ loop.2, t.leafExprs ⊆ s.leafExprs := by
  induction s using Stmt.inductTree with
  | loop header body ih =>
    rw [Stmt.leafExprs, Stmt.leafExprsBody_eq]
    rw [Stmt.collectLoops_loop] at mem
    intro t memT e memE
    cases List.mem_cons.mp mem with
    | inl here =>
      cases here
      exact List.mem_flatMap.mpr ⟨t, memT, memE⟩
    | inr inner =>
      obtain ⟨s, memS, memLoop⟩ := List.mem_flatMap.mp inner
      exact List.mem_flatMap.mpr ⟨s, memS, ih s memS memLoop t memT memE⟩
  | ifRange val start end_ body ih =>
    rw [Stmt.collectLoops_ifRange] at mem
    obtain ⟨s, memS, memLoop⟩ := List.mem_flatMap.mp mem
    intro t memT e memE
    have shown := ih s memS memLoop t memT memE
    have leaf : body.any Stmt.hasLeaf = true :=
      List.any_eq_true.mpr ⟨s, memS, Stmt.hasLeaf_of_mem_leafExprs shown⟩
    rw [Stmt.leafExprs, if_pos leaf, Stmt.leafExprsBody_eq]
    exact List.mem_cons_of_mem _ (List.mem_flatMap.mpr ⟨s, memS, shown⟩)
  | call | store | storeLocal => cases mem

end Bistra
