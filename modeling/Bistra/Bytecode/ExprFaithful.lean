import Bistra.Program.Preservation
import Bistra.Bytecode.ExprRoundTrip

/-! # Which expressions are read back unchanged

An integer constant is written as a word without a sign, the case of a string has no `return`, and
the reader makes every index a scalar.  These leaves are all that bytecode loses.
-/

namespace Bistra

open Codec (Answers iterate)

/-- The leaves that bytecode keeps. -/
def Expr.leafKept {F : Type} : Expr F → Bool
  | .const val => decide (0 ≤ val) && decide (val < 2 ^ 32)
  | .constString _ => false
  | .index _ type => !type.isVector
  | _ => true

/-- No constant is negative or longer than a word, and there is no string and no index vector. -/
def Expr.faithful {F : Type} (e : Expr F) : Bool := e.atoms.all Expr.leafKept

/-- The numbers of arguments, dimensions and local variables fit into words. -/
structure Decls.Fits (decls : Decls) : Prop where
  args : decls.args.length < 2 ^ 32
  vars : decls.vars.length < 2 ^ 32
  dims : ∀ arg ∈ decls.args, arg.type.getNumDims < 2 ^ 32

section Fits

variable {decls : Decls} {scope : List LoopId}

theorem ExprNode.fits_gep (fits : decls.Fits) {arg : ArgId} {pointers : List Nat} {n : Nat}
    {kind : Option ElemKind} (same : pointers.length = n)
    (access : decls.verifyAccess arg n kind = true) : (ExprNode.gep arg pointers).Fits := by
  rw [Decls.verifyAccess] at access
  split at access
  next decl known =>
    simp only [Bool.and_eq_true, decide_eq_true_eq] at access
    have below : arg < decls.args.length := (List.getElem?_eq_some_iff.mp known).1
    have dims := fits.dims decl (List.mem_of_getElem? known)
    refine ⟨below.trans fits.args, ?_⟩
    rw [same, ← access.1.2]
    exact dims
  next => cases access

theorem Expr.length_pointers {F : Type} :
    ∀ (base : Nat) (es : List (Expr F)), (Expr.pointers base es).length = es.length
  | _, [] => rfl
  | _, _ :: es => by
    rw [Expr.pointers, List.length_cons, List.length_cons, Expr.length_pointers]

theorem Expr.fits_of_verify (fits : decls.Fits) {e : Expr UInt32}
    (verified : e.verify decls scope = true) : ∀ base, ∀ node ∈ e.nodes base, node.Fits := by
  -- The nodes of the subscripts are among those of the access.
  have list : ∀ {es : List (Expr UInt32)},
      (∀ e ∈ es, e.verify decls scope = true → ∀ base, ∀ node ∈ e.nodes base, node.Fits) →
      Expr.verifyIndices decls scope es = true →
      ∀ base, ∀ node ∈ Expr.nodesList base es, node.Fits := by
    intro es each verified
    induction es with
    | nil => simp [Expr.nodesList]
    | cons e es ih =>
      rw [List.forall_mem_cons] at each
      rw [Expr.verifyIndices, Bool.and_eq_true, Bool.and_eq_true] at verified
      intro base node mem
      rw [Expr.nodesList, List.mem_append] at mem
      rcases mem with mem | mem
      · exact each.1 verified.1.1 base node mem
      · exact ih each.2 verified.2 _ node mem
  induction e using Expr.inductTree with
  | index | const | constFP | constString =>
    intro base node mem
    rw [Expr.nodes, List.mem_singleton] at mem
    rw [mem]
    trivial
  | loadLocal var type =>
    intro base node mem
    rw [Expr.nodes, List.mem_singleton] at mem
    rw [Expr.verify, Decls.verifyLocal] at verified
    split at verified
    next decl known =>
      rw [mem]
      exact (List.getElem?_eq_some_iff.mp known).1.trans fits.vars
    next => cases verified
  | binary kind lhs rhs ihL ihR =>
    simp only [Expr.verify, Bool.and_eq_true] at verified
    intro base node mem
    rw [Expr.nodes, List.mem_append, List.mem_append, List.mem_singleton] at mem
    rcases mem with (mem | mem) | rfl
    · exact ihL verified.1.2 _ node mem
    · exact ihR verified.2 _ node mem
    · trivial
  | unary kind val ih =>
    intro base node mem
    rw [Expr.nodes, List.mem_append, List.mem_singleton] at mem
    rcases mem with mem | rfl
    · exact ih verified _ node mem
    · trivial
  | broadcast val vf ih =>
    simp only [Expr.verify, Bool.and_eq_true] at verified
    intro base node mem
    rw [Expr.nodes, List.mem_append, List.mem_singleton] at mem
    rcases mem with mem | rfl
    · exact ih verified.1 _ node mem
    · trivial
  | gep arg indices ih =>
    rw [Expr.verify, Bool.and_eq_true] at verified
    intro base node mem
    rw [Expr.nodes, List.mem_append, List.mem_singleton] at mem
    rcases mem with mem | rfl
    · exact list ih verified.1 _ node mem
    · exact ExprNode.fits_gep fits (Expr.length_pointers ..) verified.2
  | load arg indices type ih =>
    rw [Expr.verify, Bool.and_eq_true] at verified
    intro base node mem
    rw [Expr.nodes, List.mem_append, List.mem_append, List.mem_singleton,
      List.mem_singleton] at mem
    rcases mem with (mem | rfl) | rfl
    · exact list ih verified.1 _ node mem
    · exact ExprNode.fits_gep fits (Expr.length_pointers ..) verified.2
    · trivial

end Fits

/-! ## Leaves -/

/-- The loop that an index refers to when it is read back. -/
def Tables.loopId (T : Tables) (loop : LoopId) : LoopId := (T.stmtId (.loop loop)).toNat

def Expr.isLeaf {F : Type} : Expr F → Bool
  | .index _ _ | .const _ | .constFP _ | .constString _ | .loadLocal _ _ => true
  | _ => false

theorem Expr.isLeaf_of_mem_atoms {F : Type} {e a : Expr F} (mem : a ∈ e.atoms) :
    a.isLeaf = true := by
  induction e using Expr.inductTree with
  | index | const | constFP | constString | loadLocal =>
    rw [List.mem_singleton.mp mem]
    rfl
  | binary kind lhs rhs ihL ihR =>
    rw [Expr.atoms, List.mem_append] at mem
    exact mem.elim ihL ihR
  | unary kind val ih => exact ih mem
  | broadcast val vf ih => exact ih mem
  | gep arg indices ih | load arg indices type ih =>
    rw [Expr.atoms, Expr.atomsList_eq, List.mem_flatMap] at mem
    obtain ⟨e, memE, mem⟩ := mem
    exact ih e memE mem

theorem Expr.verify_of_mem_atoms {F : Type} {decls : Decls} {scope : List LoopId} {e a : Expr F}
    (verified : e.verify decls scope = true) (mem : a ∈ e.atoms) :
    a.verify decls scope = true := by
  induction e using Expr.inductTree with
  | index | const | constFP | constString | loadLocal =>
    rw [List.mem_singleton.mp mem]
    exact verified
  | binary kind lhs rhs ihL ihR =>
    simp only [Expr.verify, Bool.and_eq_true] at verified
    rw [Expr.atoms, List.mem_append] at mem
    exact mem.elim (ihL verified.1.2) (ihR verified.2)
  | unary kind val ih => exact ih verified mem
  | broadcast val vf ih =>
    simp only [Expr.verify, Bool.and_eq_true] at verified
    exact ih verified.1 mem
  | gep arg indices ih | load arg indices type ih =>
    simp only [Expr.verify, Bool.and_eq_true, Expr.verifyIndices_eq, List.all_eq_true] at verified
    rw [Expr.atoms, Expr.atomsList_eq, List.mem_flatMap] at mem
    obtain ⟨e, memE, mem⟩ := mem
    exact ih e memE (verified.1 e memE).1 mem

theorem Expr.leafKept_of_readLeaf {T : Tables} {decls : Decls} {rename : LoopId → LoopId}
    {a : Expr UInt32} (leaf : a.isLeaf = true)
    (read : a.readLeaf T decls = some (a.relabel rename)) : a.leafKept = true := by
  cases a with
  | index loop type =>
    obtain ⟨-, same⟩ := Expr.index.inj (Option.some.inj read)
    rw [Expr.leafKept, ← same]
    rfl
  | const val =>
    have word : ((UInt32.ofInt val).toNat : Int) = val % 2 ^ 32 := by
      show ((val % 2 ^ 32).toNat % 2 ^ 32 : Nat) = val % 2 ^ 32
      omega
    have same := Expr.const.inj (Option.some.inj read)
    rw [word] at same
    simp only [Expr.leafKept, Bool.and_eq_true, decide_eq_true_eq]
    omega
  | constString val => cases read
  | constFP | loadLocal => rfl
  | binary | unary | broadcast | gep | load => cases leaf

theorem Expr.readLeaf_of_kept {T : Tables} {decls : Decls} {scope : List LoopId}
    {a : Expr UInt32} (leaf : a.isLeaf = true) (verified : a.verify decls scope = true)
    (kept : a.leafKept = true) : a.readLeaf T decls = some (a.relabel T.loopId) := by
  cases a with
  | index loop type =>
    rw [Expr.verify, Bool.and_eq_true] at verified
    rw [Expr.leafKept, Bool.not_eq_true'] at kept
    have indexTy : type.elementType = .indexTy := of_decide_eq_true verified.1
    -- The width of an index is not written, so only a scalar index is kept.
    have same := ExprType.eq_scalar_of_not_isVector kept
    rw [indexTy] at same
    rw [same]
    rfl
  | const val =>
    -- A constant is kept as a word, without its sign.
    have word : ((UInt32.ofInt val).toNat : Int) = val % 2 ^ 32 := by
      show ((val % 2 ^ 32).toNat % 2 ^ 32 : Nat) = val % 2 ^ 32
      omega
    simp only [Expr.leafKept, Bool.and_eq_true, decide_eq_true_eq] at kept
    show some (Expr.const _) = some (Expr.const val)
    rw [word, Int.emod_eq_of_lt kept.1 kept.2]
  | constString val => cases kept
  | constFP val => rfl
  | loadLocal var type =>
    rw [Expr.verify, Decls.verifyLocal] at verified
    split at verified
    next decl known =>
      rw [Bool.and_eq_true, decide_eq_true_eq] at verified
      rw [Expr.readLeaf, Decls.mkLoadLocal, known, verified.2]
      rfl
    next => cases verified
  | binary | unary | broadcast | gep | load => cases leaf

theorem Expr.verify_relabel {F : Type} {decls : Decls} {scope : List LoopId}
    (rename : LoopId → LoopId) {e : Expr F} (verified : e.verify decls scope = true) :
    (e.relabel rename).verify decls (scope.map rename) = true := by
  apply Expr.verify_mapIndex _ verified
  intro index _ mem isIndex
  rw [Expr.verify, isIndex, Bool.true_and, decide_eq_true_eq]
  exact ⟨List.mem_map_of_mem mem, rfl⟩

theorem Expr.relabel_eq_mapAtoms {F : Type} (rename : LoopId → LoopId) (e : Expr F) :
    e.relabel rename = e.mapAtoms (Expr.relabel rename) := by
  rw [Expr.relabel, Expr.mapIndex_eq_mapAtoms, Expr.mapAtoms_inj]
  intro a mem
  have leaf : a.isLeaf = true := Expr.isLeaf_of_mem_atoms mem
  cases a with
  | binary | unary | broadcast | gep | load => cases leaf
  | _ => rfl

theorem Expr.faithful_of_readBack {T : Tables} {decls : Decls} {rename : LoopId → LoopId}
    {e : Expr UInt32} (read : e.readBack T decls = some (e.relabel rename)) :
    e.faithful = true := by
  rw [Expr.faithful, List.all_eq_true]
  intro a mem
  have leaf : a.isLeaf = true := Expr.isLeaf_of_mem_atoms mem
  -- A leaf that is not read is no leaf of what is rebuilt.
  let f : Expr UInt32 → Expr UInt32 := fun a => (a.readLeaf T decls).getD (.gep 0 [])
  have built := Expr.eq_mapAtoms_of_rebuild (f := f) (fun a _ a' known => by simp [f, known]) read
  rw [Expr.relabel_eq_mapAtoms, Expr.mapAtoms_inj] at built
  cases known : a.readLeaf T decls with
  | some a' =>
    have same : f a = a' := by simp [f, known]
    apply Expr.leafKept_of_readLeaf leaf
    rw [known, built a mem, same]
  | none =>
    have same : a.relabel rename = .gep 0 [] := by
      rw [built a mem]
      simp [f, known]
    cases a with
    | binary | unary | broadcast | gep | load => cases leaf
    | _ => cases same

theorem Expr.readBack_of_faithful {T : Tables} {decls : Decls} {scope : List LoopId}
    {e : Expr UInt32} (verified : e.verify decls scope = true) (faithful : e.faithful = true) :
    e.readBack T decls = some (e.relabel T.loopId) := by
  rw [Expr.faithful, List.all_eq_true] at faithful
  have moved := Expr.verify_relabel T.loopId verified
  rw [Expr.relabel_eq_mapAtoms] at moved ⊢
  refine Expr.rebuild_of_verify (fun a mem => ?_) moved
  exact Expr.readLeaf_of_kept (Expr.isLeaf_of_mem_atoms mem) (Expr.verify_of_mem_atoms verified mem)
    (faithful a mem)

/-! ## Round trips -/

/-- `e` is read back: the reader consumes exactly the bytes, the pointer to `e` then leads to `e`
with the ids of its loops, and these are resolved when all statements are there. -/
def Expr.RoundTrips (T : Tables) (decls : Decls) (base : Nat) (BC : ExprContext)
    (bytes : List UInt8) (e : Expr UInt32) : Prop :=
  ∃ BC', Answers (iterate (deserializeExpr T.header decls) (e.nodes base).length BC) bytes
      (some BC') ∧
    BC'.exprMap (T.exprId (e.pointer base)) = some (e.relabel T.loopId) ∧
    BC'.resolveLater = BC.resolveLater ++ e.waits T

theorem answers_readNodes {T : Tables} (small : T.Small) {decls : Decls} {base : Nat}
    {nodes : List ExprNode} (known : ∀ item ∈ nodes.zipIdx base, item.1.Known T)
    (fits : ∀ node ∈ nodes, node.Fits) (BC : ExprContext) :
    Answers (iterate (deserializeExpr T.header decls) nodes.length BC)
      ((nodes.zipIdx base).flatMap fun item => item.1.bytes T item.2)
      (readNodes T decls base nodes BC) := by
  have each : ∀ item ∈ nodes.zipIdx base, ∀ BC : ExprContext,
      Answers (deserializeExpr T.header decls BC) (item.1.bytes T item.2)
        (item.1.read T decls BC item.2) := by
    intro item mem BC
    exact answers_deserializeExpr small (known item mem) (fits _ (List.fst_mem_of_mem_zipIdx mem))
  have all := Codec.answers_iterate each BC
  rwa [List.length_zipIdx] at all

/-- An expression is read back exactly when bytecode keeps its leaves. -/
theorem Expr.roundTrips_serialize_iff {t T : Tables} {decls : Decls} {scope : List LoopId}
    {base : Nat} {BC : ExprContext} {e : Expr UInt32}
    (grown : (serializeExprs base (e.nodes base) t).2.Grows T) (small : T.Small)
    (fits : decls.Fits) (verified : e.verify decls scope = true)
    (free : ∀ i, base ≤ i → i < base + (e.nodes base).length → BC.exprMap (T.exprId i) = none) :
    e.RoundTrips T decls base BC (serializeExprs base (e.nodes base) t).1 ↔
      e.faithful = true := by
  obtain ⟨bytes, has, -⟩ := writes_serializeExprs base (e.nodes base) t T grown
  have answer : Answers (iterate (deserializeExpr T.header decls) (e.nodes base).length BC) _
      (readNodes T decls base (e.nodes base) BC) :=
    answers_readNodes small (fun item mem => (has item mem).2)
      (Expr.fits_of_verify fits verified base) BC
  -- The ids of the nodes are different positions, and none of them is registered yet.
  have fresh : BC.Fresh T base (e.numBelow + 1) := by
    rw [← Expr.length_nodes e base]
    refine ⟨fun i from_ below => ?_, free⟩
    have inside : i - base < (e.nodes base).length := by omega
    have mem : ((e.nodes base)[i - base], i) ∈ (e.nodes base).zipIdx base := by
      rw [List.mem_zipIdx_iff_le_and_getElem?_sub]
      exact ⟨from_, List.getElem?_eq_getElem inside⟩
    exact (has _ mem).1
  have read : ReadsBack T base (e.numBelow + 1) (e.waits T) BC
      (readNodes T decls base (e.nodes base) BC) (e.readBack T decls)
      fun BC' e' => BC'.exprMap (T.exprId (e.pointer base)) = some e' :=
    readNodes_expr small e base BC fresh
  rw [bytes, Expr.RoundTrips]
  constructor
  -- What the reader makes of the bytes is `readBack`, so it comes back only if that is the
  -- expression with the ids of its loops.
  · rintro ⟨BC', answers, found, -⟩
    rw [← answers.unique answer] at read
    cases known : e.readBack T decls with
    | none =>
      rw [known] at read
      cases read
    | some e' =>
      rw [known] at read
      obtain ⟨BC'', same, -, found'⟩ := read
      cases same
      have back : e.readBack T decls = some (e.relabel T.loopId) := by rw [known, ← found', found]
      exact Expr.faithful_of_readBack back
  · intro faithful
    rw [Expr.readBack_of_faithful verified faithful] at read
    obtain ⟨BC', same, adds, found⟩ := read
    rw [same] at answer
    exact ⟨BC', answer, found, adds.later⟩

/-- `A[i + 3] + 4.0`. -/
def sampleLoad : Expr UInt32 :=
  .binary .add (.load 0 [.binary .add (.indexOf 7) (.const 3)] (.scalar .float32Ty))
    (.constFP 0x40800000)

def sampleDecls : Decls := ⟨[⟨"A", ⟨[8], ["n"], .float32Ty, oneDim⟩⟩], []⟩

/-- The tables after `sampleLoad` has been written. -/
def sampleTables : Tables :=
  ⟨[], [.scalar .float32Ty], [], [0, 1, 2, 3, 4, 5, 6], [.program, .loop 7]⟩

theorem Expr.roundTrips_sampleLoad :
    sampleLoad.RoundTrips sampleTables sampleDecls 0 ⟨fun _ => none, []⟩
      (serializeExprs 0 (sampleLoad.nodes 0) Tables.empty).1 := by
  have written : (serializeExprs 0 (sampleLoad.nodes 0) Tables.empty).2 = sampleTables := by
    decide +kernel
  have small : sampleTables.Small := ⟨by decide, by decide, by decide, by decide, by decide⟩
  have fits : sampleDecls.Fits := ⟨by decide, by decide, by decide⟩
  have verified : sampleLoad.verify sampleDecls [7] = true := by decide
  exact (Expr.roundTrips_serialize_iff (written ▸ Tables.Grows.refl _) small fits verified
    fun _ _ _ => rfl).mpr (by decide)

/-- The integer `-1` is read back as `4294967295`. -/
theorem Expr.const_neg_one_misread :
    (Expr.const (-1) : Expr UInt32).verify sampleDecls [] = true ∧
      ¬ (Expr.const (-1)).RoundTrips ((serializeExprs 0 [.const (-1)]) Tables.empty).2 sampleDecls 0
        ⟨fun _ => none, []⟩ ((serializeExprs 0 [.const (-1)]) Tables.empty).1 := by
  refine ⟨rfl, ?_⟩
  rintro ⟨BC', answers, found, -⟩
  have read : some (⟨Function.update (fun _ => none) 0 (some (.const 4294967295)), []⟩, []) =
      some (BC', ([] : List UInt8)) := answers []
  obtain ⟨rfl, -⟩ := Prod.mk.inj (Option.some.inj read)
  have same : some (Expr.const 4294967295) = some (Expr.const (-1) : Expr UInt32) := found
  cases same

end Bistra
