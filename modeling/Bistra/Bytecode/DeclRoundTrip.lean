import Bistra.Bytecode.RoundTrip

/-! # Which programs are read back at all

The reader calls the constructors on the expressions with scalar indices.  So reading succeeds
exactly when there are no strings and the program still verifies after all its indices have become
scalar; the declarations then depend on the merging of types alone.
-/

namespace Bistra

variable {F : Type}

/-- The expression with the scalar indices that the reader makes. -/
def Expr.scalarIndex : Expr F → Expr F := Expr.mapIndex fun loop _ => .indexOf loop

def Program.scalarIndices (p : Program F) : Program F :=
  { p with body := p.body.map (Stmt.mapExprs Expr.scalarIndex) }

/-- The reader finds no string, and the types agree when the indices are scalar. -/
def Expr.Readable (decls : Decls) (scope : List LoopId) (e : Expr F) : Prop :=
  e.strings = [] ∧ e.scalarIndex.verify decls scope = true

section Types

variable {decls decls' : Decls} {scope : List LoopId}

theorem Expr.elementType_scalarIndex {e : Expr F} (verified : e.verify decls scope = true) :
    e.scalarIndex.getType.elementType = e.getType.elementType := by
  rw [Expr.scalarIndex]
  induction e using Expr.inductTree with
  | index loop type =>
    rw [Expr.verify, Bool.and_eq_true] at verified
    exact (of_decide_eq_true verified.1).symm
  | const | constFP | constString | loadLocal => rfl
  | binary kind lhs rhs ihL ihR =>
    simp only [Expr.verify, Bool.and_eq_true] at verified
    exact ihL verified.1.2
  | unary kind val ih => exact ih verified
  | broadcast val vf ih =>
    rw [Expr.verify, Bool.and_eq_true] at verified
    exact ih verified.1
  | gep | load => rfl

theorem Expr.isIndexTy_scalarIndex {e : Expr F} (verified : e.verify decls scope = true) :
    e.scalarIndex.getType.isIndexTy = e.getType.isIndexTy := by
  rw [ExprType.isIndexTy, ExprType.isIndexTy, Expr.elementType_scalarIndex verified]

theorem Expr.isVector_scalarIndex {e : Expr F} (scalar : e.getType.isVector = false) :
    e.scalarIndex.getType.isVector = false := by
  rw [Expr.scalarIndex]
  induction e using Expr.inductTree with
  | index | const | constFP | constString | gep => rfl
  | loadLocal => exact scalar
  | binary kind lhs rhs ihL ihR => exact ihL scalar
  | unary kind val ih => exact ih scalar
  | broadcast => exact scalar
  | load => exact scalar

end Types

/-! ## Expressions -/

theorem Expr.strings_binary (kind : BinOpKind) (lhs rhs : Expr F) :
    (Expr.binary kind lhs rhs).strings = lhs.strings ++ rhs.strings := by
  rw [Expr.strings, Expr.atoms, List.filterMap_append]
  rfl

theorem Expr.strings_gep (arg : ArgId) (indices : List (Expr F)) :
    (Expr.gep arg indices).strings = indices.flatMap Expr.strings := by
  rw [Expr.strings, Expr.atoms, Expr.atomsList_eq, List.filterMap_flatMap]
  rfl

section Readable

variable {T : Tables} {decls decls' : Decls} {scope : List LoopId}

/-- Whether reading fails is known before, and so is the type of what is read back. -/
structure Expr.ReadsAs (T : Tables) (decls decls' : Decls) (scope : List LoopId) (e : Expr UInt32) :
    Prop where
  type : ∀ {e'}, e.readBack T decls' = some e' → e'.getType = e.scalarIndex.getType
  isSome : (e.readBack T decls').isSome ↔ e.Readable decls scope

theorem Expr.types_readBackList : ∀ {es es' : List (Expr UInt32)},
    (∀ e ∈ es, e.ReadsAs T decls decls' scope) → Expr.readBackList T decls' es = some es' →
      es'.map Expr.getType = es.map fun e => e.scalarIndex.getType
  | [], _, _, read => by
    cases read
    rfl
  | e :: es, _, each, read => by
    rw [List.forall_mem_cons] at each
    obtain ⟨e', known, rest⟩ := Option.bind_eq_some_iff.mp read
    obtain ⟨rest', knownRest, rfl⟩ := Option.map_eq_some_iff.mp rest
    rw [List.map_cons, List.map_cons, each.1.type known, Expr.types_readBackList each.2 knownRest]

theorem Expr.isSome_readBackList_iff {es : List (Expr UInt32)}
    (each : ∀ e ∈ es, e.ReadsAs T decls decls' scope) :
    (Expr.readBackList T decls' es).isSome ↔ ∀ e ∈ es, e.Readable decls scope := by
  constructor
  · intro some e mem
    obtain ⟨es', read⟩ := Option.isSome_iff_exists.mp some
    exact (each e mem).isSome.mp (Expr.isSome_of_readBackList read e mem)
  · exact fun readable => Expr.readBackList_isSome fun e mem =>
      (each e mem).isSome.mpr (readable e mem)

theorem Expr.mkGEP_readBackList (alike : decls.Alike decls') {arg : ArgId}
    {indices es' : List (Expr UInt32)} (verified : Expr.verifyIndices decls scope indices = true)
    (access : decls.verifyAccess arg indices.length none = true)
    (each : ∀ e ∈ indices, e.ReadsAs T decls decls' scope)
    (read : Expr.readBackList T decls' indices = some es') :
    decls'.mkGEP arg es' = some (.gep arg es') := by
  have types := Expr.types_readBackList each read
  have length : es'.length = indices.length := by
    have := congrArg List.length types
    rwa [List.length_map, List.length_map] at this
  simp only [Expr.verifyIndices_eq, List.all_eq_true, Bool.and_eq_true] at verified
  rw [Decls.mkGEP_eq_some, Decls.allowsGEP, Bool.and_eq_true, List.all_eq_true]
  refine ⟨⟨fun e' mem => ?_, ?_⟩, rfl⟩
  · have memType := List.mem_map_of_mem (f := Expr.getType) mem
    rw [types, List.mem_map] at memType
    obtain ⟨e, memE, same⟩ := memType
    rw [← same, Expr.isIndexTy_scalarIndex (verified e memE).1]
    exact (verified e memE).2
  · rw [← alike.verifyAccess, Decls.verifyAccess] at access
    cases known : decls'.args[arg]? with
    | none =>
      rw [known] at access
      cases access
    | some decl =>
      simp only [known, Bool.and_eq_true, decide_eq_true_eq] at access
      rw [Option.any_some, length]
      exact decide_eq_true access.1.2

theorem Expr.readable_indices {indices : List (Expr UInt32)}
    (verified : Expr.verifyIndices decls scope indices = true) :
    (indices.flatMap Expr.strings = [] ∧
      Expr.verifyIndices decls scope (indices.map Expr.scalarIndex) = true) ↔
      ∀ e ∈ indices, e.Readable decls scope := by
  simp only [Expr.verifyIndices_eq, List.all_eq_true, Bool.and_eq_true] at verified
  simp only [List.flatMap_eq_nil_iff, Expr.verifyIndices_eq, List.all_map, List.all_eq_true,
    Function.comp_apply, Bool.and_eq_true, Expr.Readable]
  constructor
  · exact fun readable e mem => ⟨readable.1 e mem, (readable.2 e mem).1⟩
  · intro readable
    refine ⟨fun e mem => (readable e mem).1, fun e mem => ⟨(readable e mem).2, ?_⟩⟩
    rw [Expr.isIndexTy_scalarIndex (verified e mem).1]
    exact (verified e mem).2

theorem Expr.readable_gep {arg : ArgId} {indices : List (Expr UInt32)}
    (verified : Expr.verifyIndices decls scope indices = true)
    (access : decls.verifyAccess arg indices.length none = true) :
    (Expr.gep arg indices).Readable decls scope ↔ ∀ e ∈ indices, e.Readable decls scope := by
  rw [← Expr.readable_indices verified, Expr.Readable, Expr.strings_gep, Expr.scalarIndex,
    Expr.mapIndex, Expr.mapIndexList_eq, Expr.verify, List.length_map, access, Bool.and_true]

theorem Expr.readable_binary {kind : BinOpKind} {lhs rhs : Expr UInt32} :
    (Expr.binary kind lhs rhs).Readable decls scope ↔
      lhs.Readable decls scope ∧ rhs.Readable decls scope ∧
        lhs.scalarIndex.getType = rhs.scalarIndex.getType := by
  simp only [Expr.Readable, Expr.strings_binary, List.append_eq_nil_iff, Expr.scalarIndex,
    Expr.mapIndex, Expr.verify, Bool.and_eq_true, decide_eq_true_eq]
  constructor
  · rintro ⟨⟨left, right⟩, ⟨types, verifiedL⟩, verifiedR⟩
    exact ⟨⟨left, verifiedL⟩, ⟨right, verifiedR⟩, types⟩
  · rintro ⟨⟨left, verifiedL⟩, ⟨right, verifiedR⟩, types⟩
    exact ⟨⟨left, right⟩, ⟨types, verifiedL⟩, verifiedR⟩

theorem Expr.readable_broadcast {val : Expr UInt32} {vf : VecWidth}
    (scalar : val.getType.isVector = false) :
    (Expr.broadcast val vf).Readable decls scope ↔ val.Readable decls scope := by
  have scalar' := Expr.isVector_scalarIndex scalar
  rw [Expr.Readable, Expr.Readable]
  simp only [Expr.scalarIndex] at scalar' ⊢
  rw [Expr.mapIndex, Expr.verify, scalar', Bool.not_false, Bool.and_true]
  rfl

theorem Expr.ReadsAs.of_some {e e' : Expr UInt32} (read : e.readBack T decls' = some e')
    (type : e'.getType = e.scalarIndex.getType) (readable : e.Readable decls scope) :
    e.ReadsAs T decls decls' scope := by
  refine ⟨fun {e''} read' => ?_, fun _ => readable, fun _ => ?_⟩
  · rw [read] at read'
    rw [← Option.some.inj read', type]
  · rw [read]
    rfl

theorem Expr.ReadsAs.of_none {e : Expr UInt32} (read : e.readBack T decls' = none)
    (unreadable : ¬ e.Readable decls scope) : e.ReadsAs T decls decls' scope := by
  refine ⟨fun {e'} read' => ?_, fun some => ?_, fun readable => absurd readable unreadable⟩
  · rw [read] at read'
    cases read'
  · rw [read] at some
    cases some

theorem Expr.ReadsAs.readable {e e' : Expr UInt32} (reads : e.ReadsAs T decls decls' scope)
    (read : e.readBack T decls' = some e') : e.Readable decls scope :=
  reads.isSome.mp (by rw [read]; rfl)

theorem Expr.ReadsAs.unreadable {e : Expr UInt32} (reads : e.ReadsAs T decls decls' scope)
    (read : e.readBack T decls' = none) : ¬ e.Readable decls scope := by
  rw [← reads.isSome, read]
  exact Bool.false_ne_true

theorem Expr.readsAs (alike : decls.Alike decls') {e : Expr UInt32}
    (verified : e.verify decls scope = true) : e.ReadsAs T decls decls' scope := by
  induction e using Expr.inductTree with
  | index loop type =>
    rw [Expr.verify, Bool.and_eq_true] at verified
    exact Expr.ReadsAs.of_some rfl rfl ⟨rfl, Bool.and_eq_true _ _ ▸ ⟨rfl, verified.2⟩⟩
  | const val | constFP val => exact Expr.ReadsAs.of_some rfl rfl ⟨rfl, rfl⟩
  | constString val =>
    -- A string is never read back, and a readable expression has none.
    refine Expr.ReadsAs.of_none rfl fun readable => ?_
    have := readable.1
    simp [Expr.strings, Expr.atoms] at this
  | loadLocal var type =>
    have known : ∃ decl, decls'.vars[var]? = some decl ∧ type = decl.type := by
      rw [Expr.verify, ← alike.verifyLocal, Decls.verifyLocal] at verified
      split at verified
      next decl known =>
        rw [Bool.and_eq_true, decide_eq_true_eq] at verified
        exact ⟨decl, known, verified.2⟩
      next => cases verified
    obtain ⟨decl, known, rfl⟩ := known
    -- The type is that of the variable, and the variables have been read back.
    have read : (Expr.loadLocal var decl.type : Expr UInt32).readBack T decls' =
        some (.loadLocal var decl.type) := by
      show Decls.mkLoadLocal decls' var = _
      rw [Decls.mkLoadLocal, known]
      rfl
    exact Expr.ReadsAs.of_some read rfl ⟨rfl, verified⟩
  | binary kind lhs rhs ihL ihR =>
    simp only [Expr.verify, Bool.and_eq_true] at verified
    have readsL := ihL verified.1.2
    have readsR := ihR verified.2
    have whole : (Expr.binary kind lhs rhs).readBack T decls' =
        (lhs.readBack T decls').bind fun L => (rhs.readBack T decls').bind fun R =>
          Expr.mkBinary kind L R := rfl
    cases knownL : lhs.readBack T decls' with
    | none =>
      refine Expr.ReadsAs.of_none (by rw [whole, knownL]; rfl) fun readable => ?_
      exact readsL.unreadable knownL (Expr.readable_binary.mp readable).1
    | some L =>
      cases knownR : rhs.readBack T decls' with
      | none =>
        refine Expr.ReadsAs.of_none (by rw [whole, knownL, knownR]; rfl) fun readable => ?_
        exact readsR.unreadable knownR (Expr.readable_binary.mp readable).2.1
      | some R =>
        have typeL : L.getType = lhs.scalarIndex.getType := readsL.type knownL
        rw [knownL, knownR, Option.bind_some, Option.bind_some, Expr.mkBinary, typeL,
          readsR.type knownR] at whole
        -- The constructor compares the types of what has been read, where all indices are scalar.
        by_cases types : lhs.scalarIndex.getType = rhs.scalarIndex.getType
        · rw [if_pos types] at whole
          exact Expr.ReadsAs.of_some whole typeL
            (Expr.readable_binary.mpr ⟨readsL.readable knownL, readsR.readable knownR, types⟩)
        · rw [if_neg types] at whole
          exact Expr.ReadsAs.of_none whole fun readable =>
            types (Expr.readable_binary.mp readable).2.2
  | unary kind val ih =>
    have reads := ih verified
    have whole : (Expr.unary kind val).readBack T decls' =
        (val.readBack T decls').map (.unary kind) := rfl
    cases known : val.readBack T decls' with
    | none =>
      exact Expr.ReadsAs.of_none (by rw [whole, known]; rfl) (reads.unreadable known)
    | some V =>
      have type : V.getType = val.scalarIndex.getType := reads.type known
      rw [known, Option.map_some] at whole
      exact Expr.ReadsAs.of_some whole type (reads.readable known)
  | broadcast val vf ih =>
    rw [Expr.verify, Bool.and_eq_true, Bool.not_eq_true'] at verified
    have reads := ih verified.1
    have whole : (Expr.broadcast val vf).readBack T decls' =
        (val.readBack T decls').bind fun V => Expr.mkBroadcast V vf := rfl
    cases known : val.readBack T decls' with
    | none =>
      refine Expr.ReadsAs.of_none (by rw [whole, known]; rfl) fun readable => ?_
      exact reads.unreadable known ((Expr.readable_broadcast verified.2).mp readable)
    | some V =>
      -- A verified broadcast widens a scalar, and scalar it stays.
      have scalar : V.getType.isVector = false := by
        rw [reads.type known]
        exact Expr.isVector_scalarIndex verified.2
      rw [known, Option.bind_some, Expr.mkBroadcast, scalar] at whole
      refine Expr.ReadsAs.of_some whole ?_
        ((Expr.readable_broadcast verified.2).mpr (reads.readable known))
      rw [Expr.getType, reads.type known]
      rfl
  | gep arg indices ih =>
    rw [Expr.verify, Bool.and_eq_true] at verified
    have verifiedEach := verified.1
    simp only [Expr.verifyIndices_eq, List.all_eq_true, Bool.and_eq_true] at verifiedEach
    have each := fun e mem => ih e mem (verifiedEach e mem).1
    have whole : (Expr.gep arg indices).readBack T decls' =
        (Expr.readBackList T decls' indices).bind (decls'.mkGEP arg) := rfl
    -- Whether the subscripts can be read says everything: the arity is that of the tensor, which
    -- has been read back with its dimensions.
    have readable := Expr.isSome_readBackList_iff each
    rw [← Expr.readable_gep verified.1 verified.2] at readable
    cases known : Expr.readBackList T decls' indices with
    | none =>
      refine Expr.ReadsAs.of_none (by rw [whole, known]; rfl) ?_
      rw [← readable, known]
      exact Bool.false_ne_true
    | some es' =>
      rw [known, Option.bind_some, Expr.mkGEP_readBackList alike verified.1 verified.2 each
        known] at whole
      exact Expr.ReadsAs.of_some whole rfl (readable.mp (by rw [known]; rfl))
  | load arg indices type ih =>
    rw [Expr.verify, Bool.and_eq_true] at verified
    have access := Decls.verifyAccess_none verified.2
    have verifiedEach := verified.1
    simp only [Expr.verifyIndices_eq, List.all_eq_true, Bool.and_eq_true] at verifiedEach
    have each := fun e mem => ih e mem (verifiedEach e mem).1
    have whole : (Expr.load arg indices type).readBack T decls' =
        ((Expr.readBackList T decls' indices).bind (decls'.mkGEP arg)).bind fun gep =>
          Expr.mkLoad gep type := rfl
    have readable : (Expr.load arg indices type).Readable decls scope ↔
        (Expr.readBackList T decls' indices).isSome := by
      rw [Expr.isSome_readBackList_iff each, ← Expr.readable_indices verified.1, Expr.Readable,
        Expr.scalarIndex, Expr.mapIndex, Expr.mapIndexList_eq, Expr.verify, List.length_map,
        verified.2, Bool.and_true, ← Expr.strings_gep arg]
      rfl
    cases known : Expr.readBackList T decls' indices with
    | none =>
      refine Expr.ReadsAs.of_none (by rw [whole, known]; rfl) ?_
      rw [readable, known]
      exact Bool.false_ne_true
    | some es' =>
      rw [known, Option.bind_some, Expr.mkGEP_readBackList alike verified.1 access each known,
        Option.bind_some] at whole
      exact Expr.ReadsAs.of_some whole rfl (readable.mpr (by rw [known]; rfl))

/-! ## Statements -/

theorem Expr.verifyIndices_call {name : String} {params : List (Expr F)} :
    Expr.verifyIndices decls scope params = (Stmt.call name params).verify decls scope := by
  rw [Expr.verifyIndices_eq, Stmt.verify]

mutual

theorem Stmt.isSome_readBack_iff (alike : decls.Alike decls') : ∀ {s : Stmt UInt32}
    {scope : List LoopId}, s.verify decls scope = true →
      ((s.readBack T decls').isSome ↔
        (∀ e ∈ s.owned, e.strings = []) ∧
          (s.mapExprs Expr.scalarIndex).verify decls scope = true)
  | .loop header body, scope, verified => by
    rw [Stmt.verify, Bool.and_eq_true] at verified
    rw [Stmt.readBack, Option.isSome_map, Stmt.isSome_readBackBody_iff alike verified.2, Stmt.owned,
      Stmt.mapExprs, Stmt.verify, verified.1, Bool.true_and]
  | .ifRange val start end_ body, scope, verified => by
    rw [Stmt.verify, Bool.and_eq_true, Bool.and_eq_true] at verified
    have value := (Expr.readsAs (T := T) alike verified.1.2).isSome
    have bodies := Stmt.isSome_readBackBody_iff alike verified.2
    rw [Stmt.readBack, Stmt.owned, List.forall_mem_cons, Stmt.mapExprs, Stmt.verify,
      verified.1.1, Bool.true_and, Bool.and_eq_true]
    rw [Expr.Readable] at value
    -- Reading fails at the value of the guard, or at a statement of the body.
    cases known : val.readBack T decls' with
    | none =>
      rw [known] at value
      simp only [Option.isSome_none, Bool.false_eq_true, false_iff] at value
      refine ⟨fun some => (by cases some), fun readable => ?_⟩
      exact absurd ⟨readable.1.1, readable.2.1⟩ value
    | some v =>
      rw [known] at value
      have readable := value.mp rfl
      rw [Option.bind_some, Option.isSome_map, bodies]
      exact ⟨fun rest => ⟨⟨readable.1, rest.1⟩, readable.2, rest.2⟩,
        fun rest => ⟨rest.1.2, rest.2.2⟩⟩
  | .call name params, scope, verified => by
    have verifiedEach := verified
    rw [← Expr.verifyIndices_call] at verified
    simp only [Stmt.verify, List.all_eq_true, Bool.and_eq_true] at verifiedEach
    have each : ∀ e ∈ params, e.ReadsAs T decls decls' scope := fun e mem =>
      Expr.readsAs alike (verifiedEach e mem).1
    rw [Stmt.readBack, Option.isSome_map, Expr.isSome_readBackList_iff each,
      ← Expr.readable_indices verified, List.flatMap_eq_nil_iff, Stmt.mapExprs,
      ← Expr.verifyIndices_call, Stmt.owned]
  | .store arg indices value accumulate, scope, verified => by
    rw [Stmt.verify, Bool.and_eq_true, Bool.and_eq_true] at verified
    obtain ⟨⟨verifiedIndices, access⟩, verifiedValue⟩ := verified
    have verifiedGEP : (Expr.gep arg indices : Expr UInt32).verify decls scope = true := by
      rw [Expr.verify, verifiedIndices, Decls.verifyAccess_none access]
      rfl
    have readsValue : value.ReadsAs T decls decls' scope := Expr.readsAs alike verifiedValue
    have readsGEP : (Expr.gep arg indices).ReadsAs T decls decls' scope :=
      Expr.readsAs alike verifiedGEP
    have gep : (Expr.gep arg indices).Readable decls scope ↔
        indices.flatMap Expr.strings = [] ∧
          Expr.verifyIndices decls scope (indices.map Expr.scalarIndex) = true := by
      rw [Expr.readable_gep verifiedIndices (Decls.verifyAccess_none access),
        Expr.readable_indices verifiedIndices]
    have mapped : ((∀ e ∈ (Stmt.store arg indices value accumulate).owned, e.strings = []) ∧
        ((Stmt.store arg indices value accumulate).mapExprs Expr.scalarIndex).verify decls scope =
          true) ↔
        value.Readable decls scope ∧ (Expr.gep arg indices).Readable decls scope := by
      rw [gep, Stmt.owned, List.forall_mem_cons, List.forall_mem_singleton, Expr.strings_gep,
        Stmt.mapExprs, Stmt.verify, List.length_map, Expr.elementType_scalarIndex verifiedValue,
        access, Bool.and_true, Bool.and_eq_true, Expr.Readable]
      exact ⟨fun both => ⟨⟨both.1.2, both.2.2⟩, both.1.1, both.2.1⟩,
        fun both => ⟨⟨both.2.1, both.1.1⟩, both.2.2, both.1.2⟩⟩
    rw [mapped, ← readsValue.isSome, ← readsGEP.isSome, Stmt.readBack]
    -- The reader takes the value first and the pointer next; either of them may fail.
    cases value.readBack T decls' with
    | none => simp
    | some v =>
      cases known : (Expr.gep arg indices).readBack T decls' with
      | none => simp
      | some g =>
        obtain ⟨es', -, made⟩ := Option.bind_eq_some_iff.mp known
        obtain ⟨-, rfl⟩ := Decls.mkGEP_eq_some.mp made
        exact ⟨fun _ => ⟨rfl, rfl⟩, fun _ => rfl⟩
  | .storeLocal var value accumulate, scope, verified => by
    rw [Stmt.verify, Bool.and_eq_true] at verified
    obtain ⟨access, verifiedValue⟩ := verified
    have reads : value.ReadsAs T decls decls' scope := Expr.readsAs alike verifiedValue
    have readable := reads.isSome
    rw [Expr.Readable] at readable
    rw [Stmt.owned, List.forall_mem_singleton, Stmt.mapExprs, Stmt.verify, Bool.and_eq_true,
      Stmt.readBack]
    rw [Decls.verifyLocal] at access ⊢
    cases known : decls.vars[var]? with
    | none =>
      rw [known] at access
      cases access
    | some decl =>
      simp only [known, Bool.and_eq_true, decide_eq_true_eq] at access
      show _ ↔ _ ∧ (decls.isUniqued var decl && decide (value.scalarIndex.getType = decl.type)) =
        true ∧ _
      rw [access.1, Bool.true_and, decide_eq_true_eq]
      cases read : value.readBack T decls' with
      | none =>
        rw [read] at readable
        simp only [Option.isSome_none, Bool.false_eq_true, false_iff] at readable
        exact ⟨fun some => (by cases some), fun both => absurd ⟨both.1, both.2.2⟩ readable⟩
      | some v =>
        rw [read] at readable
        have kept := readable.mp rfl
        rw [Option.bind_some, Decls.mkStoreLocal, alike.vars, known, Option.any_some,
          reads.type read]
        -- The assertion of `StoreLocalStmt` compares with the type of the variable.
        by_cases types : value.scalarIndex.getType = decl.type
        · rw [if_pos (decide_eq_true types)]
          exact ⟨fun _ => ⟨kept.1, types, kept.2⟩, fun _ => rfl⟩
        · rw [if_neg (by rwa [decide_eq_true_eq])]
          exact ⟨fun some => (by cases some), fun both => absurd both.2.1 types⟩

theorem Stmt.isSome_readBackBody_iff (alike : decls.Alike decls') : ∀ {body : List (Stmt UInt32)}
    {scope : List LoopId}, Stmt.verifyBody decls scope body = true →
      ((Stmt.readBackBody T decls' body).isSome ↔
        (∀ e ∈ Stmt.ownedBody body, e.strings = []) ∧
          Stmt.verifyBody decls scope (Stmt.mapExprsBody Expr.scalarIndex body) = true)
  | [], scope, _ => by simp [Stmt.readBackBody, Stmt.ownedBody, Stmt.mapExprsBody]
  | s :: rest, scope, verified => by
    rw [Stmt.verifyBody, Bool.and_eq_true] at verified
    have first := Stmt.isSome_readBack_iff alike verified.1
    have others := Stmt.isSome_readBackBody_iff alike verified.2
    rw [Stmt.readBackBody, Stmt.ownedBody, List.forall_mem_append, Stmt.mapExprsBody,
      Stmt.verifyBody, Bool.and_eq_true]
    cases known : s.readBack T decls' with
    | none =>
      rw [known] at first
      simp only [Option.isSome_none, Bool.false_eq_true, false_iff] at first
      refine ⟨fun some => (by cases some), fun readable => ?_⟩
      exact absurd ⟨readable.1.1, readable.2.1⟩ first
    | some s' =>
      rw [known] at first
      have readable := first.mp rfl
      rw [Option.bind_some, Option.isSome_map, others]
      exact ⟨fun rest => ⟨⟨readable.1, rest.1⟩, readable.2, rest.2⟩,
        fun rest => ⟨rest.1.2, rest.2.2⟩⟩

end

end Readable

/-! ## The declarations of a program -/

/-- Name, arguments and local variables are read back. -/
def Program.DeclsRoundTrip (p : Program UInt32) : Prop :=
  ∃ q : Program UInt32, (Bytecode.serialize p).bind Bytecode.deserialize = some q ∧
    q.name = p.name ∧ q.args = p.args ∧ q.vars = p.vars

/-- Arguments of the same kind and sizes have the same names of dimensions. -/
def Program.SameNames (p : Program UInt32) : Prop :=
  ∀ a ∈ p.args, ∀ b ∈ p.args, a.type.isEqual b.type = true → a.type = b.type

section Program

variable {p : Program UInt32}

theorem TensorType.isEqual_iff {t t' : TensorType} :
    t.isEqual t' = true ↔ t.elementType = t'.elementType ∧ t.sizes = t'.sizes := by
  rw [TensorType.isEqual, Bool.and_eq_true, decide_eq_true_eq, decide_eq_true_eq]

theorem Tables.readType_congr {T : Tables} {type type' : TensorType}
    (known : T.tensorTypeTable.any (TensorType.isEqual · type) = true)
    (same : type.isEqual type' = true) : T.readType type = T.readType type' := by
  have tests : (fun entry : TensorType => entry.isEqual type) =
      fun entry => entry.isEqual type' := by
    obtain ⟨kind, sizes⟩ := TensorType.isEqual_iff.mp same
    funext entry
    rw [TensorType.isEqual, TensorType.isEqual, kind, sizes]
  have known' : T.tensorTypeTable.any (TensorType.isEqual · type') = true := tests ▸ known
  have first := (Tables.readType_spec known).1
  have second := (Tables.readType_spec known').1
  rw [IdTable.idOf, tests] at first
  exact Option.some.inj (first.symm.trans second)

/-- The merging of types keeps the arguments exactly when merged types have the same names. -/
theorem Program.readDecls_args_iff (verified : p.verify = true) :
    p.readDecls.args = p.args ↔ p.SameNames := by
  have known := p.known_finalTables.args
  have within := Program.within_finalTables (Program.owned_mem_loopIds verified)
  have each : p.readDecls.args = p.args ↔
      ∀ arg ∈ p.args, p.finalTables.readType arg.type = arg.type := by
    show p.args.map p.finalTables.readArg = p.args ↔ _
    nth_rewrite 2 [← List.map_id' p.args]
    rw [List.map_inj_left]
    constructor
    · exact fun same arg mem => congrArg Argument.type (same arg mem)
    · intro same arg mem
      rw [Tables.readArg, same arg mem]
  rw [each]
  constructor
  · intro same a memA b memB equal
    rw [← same a memA, ← same b memB, Tables.readType_congr (known a memA).2 equal]
  · intro same arg mem
    obtain ⟨-, memTable, equal⟩ := Tables.readType_spec (known arg mem).2
    obtain ⟨other, memOther, type⟩ := List.mem_map.mp (within.tensorTypes _ memTable)
    rw [← type] at equal ⊢
    exact same other memOther arg mem equal

theorem Program.verify_scalarIndices (verified : p.verify = true) :
    p.scalarIndices.verify = true ↔
      Stmt.verifyBody p.decls [] (Stmt.mapExprsBody Expr.scalarIndex p.body) = true := by
  simp only [Program.verify, Bool.and_eq_true, decide_eq_true_eq] at verified
  rw [Stmt.mapExprsBody_eq, Program.verify, Program.scalarIndices, Stmt.loopIds_mapExprs]
  simp only [Bool.and_eq_true, decide_eq_true_eq]
  exact ⟨fun whole => whole.1.2, fun body => ⟨⟨verified.1.1, body⟩, verified.2⟩⟩

/-- The declarations of a verified program that fits are read back exactly when the program has no
strings, verifies with scalar indices, and names the dimensions of equal types equally. -/
theorem Program.declsRoundTrip_iff (verified : p.verify = true) (fits : p.Fits) :
    p.DeclsRoundTrip ↔ (∀ e ∈ Stmt.ownedBody p.body, e.strings = []) ∧
      p.scalarIndices.verify = true ∧ p.SameNames := by
  have read := Program.deserialize_serialize verified fits
  have readable := Stmt.isSome_readBackBody_iff (T := p.finalTables) p.alike_readDecls
    (Program.verifyBody_of_verify verified)
  rw [Program.verify_scalarIndices verified, ← Program.readDecls_args_iff verified, ← and_assoc,
    ← readable, Program.DeclsRoundTrip, read]
  cases Stmt.readBackBody p.finalTables p.readDecls p.body with
  | none => simp
  | some body =>
    constructor
    · rintro ⟨q, found, -, args, -⟩
      cases found
      exact ⟨rfl, args⟩
    · rintro ⟨-, args⟩
      exact ⟨_, rfl, rfl, args, rfl⟩

/-- Two buffers of one shape. -/
def samplePair (dim : String) : Program UInt32 where
  name := "pair"
  args := [⟨"A", ⟨[4], ["x"], .float32Ty, oneDim⟩⟩, ⟨"B", ⟨[4], [dim], .float32Ty, oneDim⟩⟩]
  vars := []
  body := [.store 0 [.const 0] (.load 1 [.const 0] (.scalar .float32Ty)) false]

theorem samplePair_fits : (samplePair "x").Fits ∧ (samplePair "y").Fits := by
  constructor <;> exact {
    short := by decide +kernel
    strings := by decide
    args := by decide
    vars := by decide
    dims := by decide
    params := by decide
    exprs := by decide
    stmts := by decide }

/-- The buffers share an entry of the table of types. -/
theorem Program.declsRoundTrip_samplePair : (samplePair "x").DeclsRoundTrip := by
  have same : (samplePair "x").SameNames := by
    rw [Program.SameNames]
    decide
  exact (Program.declsRoundTrip_iff (by decide) samplePair_fits.1).mpr ⟨by decide, by decide, same⟩

/-- The dimension of the second buffer is read back with the name of the first one. -/
theorem Program.dimension_name_lost : (samplePair "y").verify = true ∧
    (∀ str ∈ (samplePair "y").strings, ShortString str) ∧ ¬ (samplePair "y").DeclsRoundTrip := by
  have verified : (samplePair "y").verify = true := by decide
  have lost : ¬ (samplePair "y").SameNames := by
    rw [Program.SameNames]
    decide
  refine ⟨verified, samplePair_fits.2.short, ?_⟩
  rintro ⟨q, found, -, args, -⟩
  rw [Program.deserialize_serialize verified samplePair_fits.2] at found
  obtain ⟨_, -, rfl⟩ := Option.map_eq_some_iff.mp found
  exact lost ((Program.readDecls_args_iff verified).mp args)

end Program

end Bistra
