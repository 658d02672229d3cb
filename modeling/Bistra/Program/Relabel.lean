import Bistra.Program.Construct
import Bistra.Program.Hash

/-! # The same tree with other loops

Two programs are isomorphic when one is the other with its `Loop` objects renamed.  Everything else,
also the type of every index, stays.
-/

namespace Bistra

variable {F : Type}

/-- Puts other loops in the place of the loops of indices. -/
def Expr.relabel (rename : LoopId → LoopId) : Expr F → Expr F :=
  Expr.mapIndex fun loop type => .index (rename loop) type

mutual

/-- Renames the loops of a statement. -/
def Stmt.relabel (rename : LoopId → LoopId) : Stmt F → Stmt F
  | .loop header body =>
    .loop { header with id := rename header.id } (Stmt.relabelBody rename body)
  | .ifRange val start end_ body =>
    .ifRange (val.relabel rename) start end_ (Stmt.relabelBody rename body)
  | .call name params => .call name (params.map (Expr.relabel rename))
  | .store arg indices value accumulate =>
    .store arg (indices.map (Expr.relabel rename)) (value.relabel rename) accumulate
  | .storeLocal var value accumulate => .storeLocal var (value.relabel rename) accumulate

def Stmt.relabelBody (rename : LoopId → LoopId) : List (Stmt F) → List (Stmt F)
  | [] => []
  | s :: rest => s.relabel rename :: Stmt.relabelBody rename rest

end

@[simp] theorem Stmt.relabelBody_eq (rename : LoopId → LoopId) (body : List (Stmt F)) :
    Stmt.relabelBody rename body = body.map (Stmt.relabel rename) := by
  induction body with
  | nil => rfl
  | cons s rest ih => simp [Stmt.relabelBody, ih]

theorem Expr.collectIndices_relabel (rename : LoopId → LoopId) (e : Expr F) :
    (e.relabel rename).collectIndices = e.collectIndices.map fun index =>
      (rename index.1, index.2) := by
  rw [Expr.relabel, Expr.collectIndices_mapIndex, List.map_eq_flatMap]
  rfl

theorem Stmt.collectRoots_relabel (rename : LoopId → LoopId) (s : Stmt F) :
    (s.relabel rename).collectRoots = s.collectRoots.map (Expr.relabel rename) := by
  induction s using Stmt.inductTree with
  | loop header body ih =>
    simp only [Stmt.relabel, Stmt.relabelBody_eq, Stmt.collectRoots_loop, List.flatMap_map,
      List.map_flatMap]
    exact List.flatMap_congr ih
  | ifRange val start end_ body ih =>
    simp only [Stmt.relabel, Stmt.relabelBody_eq, Stmt.collectRoots_ifRange, List.flatMap_map,
      List.map_cons, List.map_flatMap]
    rw [List.flatMap_congr ih]
  | call | store | storeLocal => simp [Stmt.relabel]

/-! ## Hashes -/

section Hash

variable {fpWord : F → UInt64} {decls : Decls} {names names' : LoopId → String}
  {rename : LoopId → LoopId}

theorem Expr.hashIndices_congr {f : Expr F → Expr F} :
    ∀ {es : List (Expr F)} (h : UInt64),
      (∀ e ∈ es, (f e).hash fpWord decls names' = e.hash fpWord decls names) →
      Expr.hashIndices fpWord decls names' h (es.map f) = Expr.hashIndices fpWord decls names h es
  | [], _, _ => rfl
  | e :: es, h, same => by
    rw [List.forall_mem_cons] at same
    rw [List.map_cons, Expr.hashIndices, Expr.hashIndices, same.1]
    exact Expr.hashIndices_congr _ same.2

theorem Expr.hash_relabel {e : Expr F}
    (named : ∀ index ∈ e.collectIndices, names' (rename index.1) = names index.1) :
    (e.relabel rename).hash fpWord decls names' = e.hash fpWord decls names := by
  simp only [Expr.relabel]
  induction e using Expr.inductTree with
  | index loop type =>
    rw [Expr.mapIndex, Expr.hash, Expr.hash, named (loop, type) (by simp [Expr.collectIndices])]
  | const | constFP | constString | loadLocal => rfl
  | binary kind lhs rhs ihL ihR =>
    rw [Expr.collectIndices] at named
    rw [Expr.mapIndex, Expr.hash, Expr.hash,
      ihL fun index mem => named index (List.mem_append_left _ mem),
      ihR fun index mem => named index (List.mem_append_right _ mem)]
  | unary kind val ih => rw [Expr.mapIndex, Expr.hash, Expr.hash, ih named]
  | broadcast val vf ih =>
    have type : (val.mapIndex fun loop type => .index (rename loop) type).getType = val.getType :=
      Expr.getType_mapIndex fun index mem => rfl
    rw [Expr.mapIndex, Expr.hash, Expr.hash, ih named, Expr.getType, Expr.getType, type]
  | gep arg indices ih | load arg indices type ih =>
    rw [Expr.collectIndices, Expr.collectIndicesList_eq] at named
    rw [Expr.mapIndex, Expr.mapIndexList_eq, Expr.hash, Expr.hash,
      Expr.hashIndices_congr _ fun e mem =>
        ih e mem fun index memI => named index (List.mem_flatMap.mpr ⟨e, mem, memI⟩)]

theorem Stmt.hashBody_congr {f : Stmt F → Stmt F} :
    ∀ {body : List (Stmt F)} (h : UInt64),
      (∀ s ∈ body, (f s).hash fpWord decls names' = s.hash fpWord decls names) →
      Stmt.hashBody fpWord decls names' h (body.map f) = Stmt.hashBody fpWord decls names h body
  | [], _, _ => rfl
  | s :: body, h, same => by
    rw [List.forall_mem_cons] at same
    rw [List.map_cons, Stmt.hashBody, Stmt.hashBody, same.1]
    exact Stmt.hashBody_congr _ same.2

theorem Stmt.hash_relabel {s : Stmt F}
    (named : ∀ e ∈ s.collectRoots, ∀ index ∈ e.collectIndices,
      names' (rename index.1) = names index.1) :
    (s.relabel rename).hash fpWord decls names' = s.hash fpWord decls names := by
  induction s using Stmt.inductTree with
  | loop header body ih =>
    simp only [Stmt.collectRoots_loop, List.mem_flatMap] at named
    rw [Stmt.relabel, Stmt.relabelBody_eq, Stmt.hash, Stmt.hash, List.length_map,
      Stmt.hashBody_congr _ fun s mem => ih s mem fun e memRoot => named e ⟨s, mem, memRoot⟩]
  | ifRange val start end_ body ih =>
    simp only [Stmt.collectRoots_ifRange, List.mem_cons, List.mem_flatMap] at named
    rw [Stmt.relabel, Stmt.relabelBody_eq, Stmt.hash, Stmt.hash, List.length_map,
      Stmt.hashBody_congr _ fun s mem =>
        ih s mem fun e memRoot => named e (.inr ⟨s, mem, memRoot⟩),
      Expr.hash_relabel (named val (.inl rfl))]
  | call name params =>
    rw [Stmt.collectRoots_call] at named
    rw [Stmt.relabel, Stmt.hash, Stmt.hash, List.length_map,
      Expr.hashIndices_congr _ fun e mem => Expr.hash_relabel (named e mem)]
  | store arg indices value accumulate =>
    simp only [Stmt.collectRoots_store, List.mem_append, List.mem_singleton] at named
    rw [Stmt.relabel, Stmt.hash, Stmt.hash, Expr.hash_relabel (named value (.inr rfl)),
      Expr.hashIndices_congr _ fun e mem => Expr.hash_relabel (named e (.inl mem))]
  | storeLocal var value accumulate =>
    simp only [Stmt.collectRoots_storeLocal, List.mem_singleton] at named
    rw [Stmt.relabel, Stmt.hash, Stmt.hash, Expr.hash_relabel (named value rfl)]

end Hash

end Bistra
