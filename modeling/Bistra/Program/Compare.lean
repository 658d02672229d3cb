import Bistra.Program.Hash
import Bistra.Program.Traversal

/-! # Comparing

The `compare` methods of `Program.cpp` against the `hash` methods.  Two nodes of one program are
compared, so that a pointer to a loop, an argument or a local variable is its number.  Floating
point constants are compared with `==`, which is symmetric and transitive but not reflexive.
-/

namespace Bistra

variable {F : Type}

section Lists

variable {α : Type} {R S : α → α → Prop} {l l' l'' : List α}

theorem forall₂_of_mem (step : ∀ a ∈ l, ∀ b ∈ l', R a b → S a b) (same : List.Forall₂ R l l') :
    List.Forall₂ S l l' := by
  induction same with
  | nil => exact .nil
  | cons first _ ih =>
    exact .cons (step _ List.mem_cons_self _ List.mem_cons_self first)
      (ih fun a mem b mem' => step a (List.mem_cons_of_mem _ mem) b (List.mem_cons_of_mem _ mem'))

theorem forall₂_trans_of_mem (trans : ∀ a ∈ l, ∀ b c, R a b → R b c → R a c)
    (first : List.Forall₂ R l l') (second : List.Forall₂ R l' l'') : List.Forall₂ R l l'' := by
  induction first generalizing l'' with
  | nil => exact second
  | cons head _ ih =>
    obtain _ | ⟨head', second⟩ := second
    exact .cons (trans _ List.mem_cons_self _ _ head head')
      (ih (fun a mem => trans a (List.mem_cons_of_mem _ mem)) second)

end Lists

mutual

/-- `collectExprs` on an expression: the operands before the node. -/
def Expr.collectExprs : Expr F → List (Expr F)
  | .binary kind lhs rhs => lhs.collectExprs ++ rhs.collectExprs ++ [.binary kind lhs rhs]
  | .unary kind val => val.collectExprs ++ [.unary kind val]
  | .broadcast val vf => val.collectExprs ++ [.broadcast val vf]
  | .gep arg indices => Expr.collectExprsList indices ++ [.gep arg indices]
  | .load arg indices type =>
    Expr.collectExprsList indices ++ [.gep arg indices, .load arg indices type]
  | e => [e]

def Expr.collectExprsList : List (Expr F) → List (Expr F)
  | [] => []
  | e :: es => e.collectExprs ++ Expr.collectExprsList es

end

/-- The expressions that hang at a statement itself. -/
def Stmt.operands : Stmt F → List (Expr F)
  | .store arg indices value _ => [.gep arg indices, value]
  | s => s.roots

/-- `collectExprs` on a statement. -/
def Stmt.collectExprs (s : Stmt F) : List (Expr F) :=
  s.collectStmts.flatMap fun s => s.operands.flatMap Expr.collectExprs

theorem Expr.collectExprsList_eq (es : List (Expr F)) :
    Expr.collectExprsList es = es.flatMap Expr.collectExprs := by
  induction es with
  | nil => rfl
  | cons e es ih => rw [Expr.collectExprsList, ih, List.flatMap_cons]

theorem Stmt.mem_collectExprs_operand {s : Stmt F} {e n : Expr F} (mem : e ∈ s.operands)
    (inner : n ∈ e.collectExprs) : n ∈ s.collectExprs :=
  List.mem_flatMap.mpr ⟨s, s.mem_collectStmts_self, List.mem_flatMap.mpr ⟨e, mem, inner⟩⟩

theorem Stmt.collectExprs_mono {s t : Stmt F} (below : t ∈ s.collectStmts) :
    ∀ e ∈ t.collectExprs, e ∈ s.collectExprs := by
  intro e mem
  obtain ⟨u, inT, inU⟩ := List.mem_flatMap.mp mem
  exact List.mem_flatMap.mpr ⟨u, (Stmt.collectStmts_sublist below).subset inT, inU⟩

section Nodes

variable {fpWord : F → UInt64} {decls : Decls} {names : LoopId → String}

/-- Every index in the expression is of the type that verification asks for. -/
def Expr.IndexTyped (e : Expr F) : Prop := ∀ index ∈ e.collectIndices, index.2.isIndexTy = true

theorem Expr.indexTyped_of_verify {scope : List LoopId} {e : Expr F}
    (verified : e.verify decls scope = true) : e.IndexTyped :=
  fun index mem => (Expr.scoped_of_verify verified index mem).2

theorem Expr.IndexTyped.mem {e n : Expr F} (typed : e.IndexTyped) (mem : n ∈ e.collectExprs) :
    n.IndexTyped := by
  induction e using Expr.inductTree with
  | index | const | constFP | constString | loadLocal =>
    rw [List.mem_singleton.mp mem]
    exact typed
  | binary kind lhs rhs ihL ihR =>
    simp only [Expr.collectExprs, List.mem_append, List.mem_singleton] at mem
    have parts := typed
    simp only [Expr.IndexTyped, Expr.collectIndices, List.forall_mem_append] at parts
    rcases mem with (left | right) | rfl
    · exact ihL parts.1 left
    · exact ihR parts.2 right
    · exact typed
  | unary kind val ih | broadcast val vf ih =>
    simp only [Expr.collectExprs, List.mem_append, List.mem_singleton] at mem
    rcases mem with inner | rfl
    · exact ih typed inner
    · exact typed
  | gep arg indices ih | load arg indices type ih =>
    simp only [Expr.collectExprs, Expr.collectExprsList_eq, List.mem_append, List.mem_flatMap,
      List.mem_cons, List.not_mem_nil, or_false] at mem
    have parts := typed
    simp only [Expr.IndexTyped, Expr.collectIndices, Expr.collectIndicesList_eq, List.mem_flatMap]
      at parts
    rcases mem with ⟨e, inList, inner⟩ | others
    · exact ih e inList (fun i at_ => parts i ⟨e, inList, at_⟩) inner
    · rcases others with rfl | rfl <;> exact typed

theorem Expr.hashIndices_forall₂ {es es' : List (Expr F)}
    (same : List.Forall₂ (fun e e' => e.hash fpWord decls names = e'.hash fpWord decls names) es es')
    (h : UInt64) :
    Expr.hashIndices fpWord decls names h es = Expr.hashIndices fpWord decls names h es' := by
  induction same generalizing h with
  | nil => rfl
  | cons first _ ih => rw [Expr.hashIndices, Expr.hashIndices, first, ih]

theorem Stmt.hashBody_forall₂ {body body' : List (Stmt F)}
    (same : List.Forall₂ (fun s s' => s.hash fpWord decls names = s'.hash fpWord decls names)
      body body') (h : UInt64) :
    Stmt.hashBody fpWord decls names h body = Stmt.hashBody fpWord decls names h body' := by
  induction same generalizing h with
  | nil => rfl
  | cons first _ ih => rw [Stmt.hashBody, Stmt.hashBody, first, ih]

theorem Stmt.roots_indexTyped {scope : List LoopId} {s : Stmt F}
    (verified : s.verify decls scope = true) : ∀ e ∈ s.roots, e.IndexTyped :=
  fun e mem => Expr.indexTyped_of_verify (Stmt.verify_roots verified e mem)

theorem Stmt.operands_indexTyped {scope : List LoopId} {s : Stmt F}
    (verified : s.verify decls scope = true) : ∀ e ∈ s.operands, e.IndexTyped := by
  have roots := Stmt.roots_indexTyped verified
  cases s with
  | store arg indices value accumulate =>
    obtain ⟨subscripts, stored⟩ := List.forall_mem_append.mp roots
    refine List.forall_mem_cons.mpr ⟨?_, stored⟩
    simp only [Expr.IndexTyped, Expr.collectIndices, Expr.collectIndicesList_eq, List.mem_flatMap]
    rintro i ⟨e, mem, at_⟩
    exact subscripts e mem i at_
  | loop | ifRange | call | storeLocal => exact roots

theorem Stmt.collectExprs_indexTyped {scope : List LoopId} {s : Stmt F}
    (verified : s.verify decls scope = true) : ∀ e ∈ s.collectExprs, e.IndexTyped := by
  intro e mem
  obtain ⟨t, below, inT⟩ := List.mem_flatMap.mp mem
  obtain ⟨root, atT, inRoot⟩ := List.mem_flatMap.mp inT
  obtain ⟨inner, verified⟩ := Stmt.verify_collectStmts verified below
  exact (Stmt.operands_indexTyped verified root atT).mem inRoot

end Nodes

/-! ## The methods -/

variable [BEq F]

mutual

def Expr.compare : Expr F → Expr F → Bool
  | .index loop _, .index loop' _ => loop' = loop
  | .const val, .const val' => val' = val
  | .constFP val, .constFP val' => val' == val
  | .constString val, .constString val' => val' = val
  | .binary kind lhs rhs, .binary kind' lhs' rhs' =>
    kind' = kind && lhs.compare lhs' && rhs.compare rhs'
  | .unary kind val, .unary kind' val' => kind' = kind && val.compare val'
  | .broadcast val vf, .broadcast val' vf' => vf' = vf && val.compare val'
  | .gep arg indices, .gep arg' indices' => arg' = arg && Expr.compareList indices indices'
  | .load arg indices type, .load arg' indices' type' =>
    type' = type && (arg' = arg && Expr.compareList indices indices')
  | .loadLocal var type, .loadLocal var' type' => type' = type && var' = var
  | _, _ => false

/-- Compares the operands of two nodes, that have to be equally many. -/
def Expr.compareList : List (Expr F) → List (Expr F) → Bool
  | [], [] => true
  | e :: es, e' :: es' => e.compare e' && Expr.compareList es es'
  | _, _ => false

end

mutual

def Stmt.compare : Stmt F → Stmt F → Bool
  | .loop header body, .loop header' body' =>
    header'.name = header.name && header'.end_ = header.end_ && header'.stride = header.stride &&
      Stmt.compareBody body body'
  | .ifRange val start end_ body, .ifRange val' start' end' body' =>
    (start', end') = (start, end_) && val.compare val' && Stmt.compareBody body body'
  | .call name params, .call name' params' => name' = name && Expr.compareList params params'
  | .store arg indices value accumulate, .store arg' indices' value' accumulate' =>
    accumulate' = accumulate && (Expr.gep arg indices).compare (.gep arg' indices') &&
      value.compare value'
  | .storeLocal var value accumulate, .storeLocal var' value' accumulate' =>
    -- Here the other value compares itself with this one.
    accumulate' = accumulate && var' = var && value'.compare value
  | _, _ => false

/-- `Scope::compare`. -/
def Stmt.compareBody : List (Stmt F) → List (Stmt F) → Bool
  | [], [] => true
  | s :: body, s' :: body' => s.compare s' && Stmt.compareBody body body'
  | _, _ => false

end

/-! ## An equivalence, apart from NaN -/

theorem Expr.compareList_iff {es es' : List (Expr F)} :
    Expr.compareList es es' = true ↔ List.Forall₂ (fun e e' => e.compare e' = true) es es' := by
  induction es generalizing es' with
  | nil => cases es' <;> simp [Expr.compareList]
  | cons e es ih => cases es' <;> simp [Expr.compareList, ih]

theorem Stmt.compareBody_iff {body body' : List (Stmt F)} :
    Stmt.compareBody body body' = true ↔
      List.Forall₂ (fun s s' => s.compare s' = true) body body' := by
  induction body generalizing body' with
  | nil => cases body' <;> simp [Stmt.compareBody]
  | cons s body ih => cases body' <;> simp [Stmt.compareBody, ih]

/-- The expressions that compare equal to an expression. -/
def Expr.Alike : Expr F → Expr F → Prop
  | .index loop _, e' => ∃ type', e' = .index loop type'
  | .const val, e' => e' = .const val
  | .constFP val, e' => ∃ val', e' = .constFP val' ∧ (val' == val) = true
  | .constString val, e' => e' = .constString val
  | .binary kind lhs rhs, e' => ∃ lhs' rhs', e' = .binary kind lhs' rhs' ∧
      lhs.compare lhs' = true ∧ rhs.compare rhs' = true
  | .unary kind val, e' => ∃ val', e' = .unary kind val' ∧ val.compare val' = true
  | .broadcast val vf, e' => ∃ val', e' = .broadcast val' vf ∧ val.compare val' = true
  | .gep arg indices, e' => ∃ indices', e' = .gep arg indices' ∧
      List.Forall₂ (fun e e' => e.compare e' = true) indices indices'
  | .load arg indices type, e' => ∃ indices', e' = .load arg indices' type ∧
      List.Forall₂ (fun e e' => e.compare e' = true) indices indices'
  | .loadLocal var type, e' => e' = .loadLocal var type

theorem Expr.compare_iff {e e' : Expr F} : e.compare e' = true ↔ e.Alike e' := by
  unfold Expr.compare
  split
  case h_11 others => cases e <;> grind [Expr.Alike]
  all_goals grind [Expr.Alike, Expr.compareList_iff]

theorem Expr.alike_of_compare {e e' : Expr F} (same : e.compare e' = true) : e.Alike e' :=
  Expr.compare_iff.mp same

theorem Expr.compare_of_alike {e e' : Expr F} (alike : e.Alike e') : e.compare e' = true :=
  Expr.compare_iff.mpr alike

/-- The statements that compare equal to a statement. -/
def Stmt.Alike : Stmt F → Stmt F → Prop
  | .loop header body, s' => ∃ header' body', s' = .loop header' body' ∧
      header'.name = header.name ∧ header'.end_ = header.end_ ∧ header'.stride = header.stride ∧
        List.Forall₂ (fun s s' => s.compare s' = true) body body'
  | .ifRange val start end_ body, s' => ∃ val' body', s' = .ifRange val' start end_ body' ∧
      val.compare val' = true ∧ List.Forall₂ (fun s s' => s.compare s' = true) body body'
  | .call name params, s' => ∃ params', s' = .call name params' ∧
      List.Forall₂ (fun e e' => e.compare e' = true) params params'
  | .store arg indices value accumulate, s' => ∃ indices' value',
      s' = .store arg indices' value' accumulate ∧
        List.Forall₂ (fun e e' => e.compare e' = true) indices indices' ∧ value.compare value' = true
  | .storeLocal var value accumulate, s' => ∃ value',
      s' = .storeLocal var value' accumulate ∧ value'.compare value = true

theorem Stmt.compare_iff {s s' : Stmt F} : s.compare s' = true ↔ s.Alike s' := by
  unfold Stmt.compare
  split
  case h_6 others => cases s <;> grind [Stmt.Alike]
  all_goals grind [Stmt.Alike, Stmt.compareBody_iff, Expr.compare, Expr.compareList_iff]

theorem Stmt.alike_of_compare {s s' : Stmt F} (same : s.compare s' = true) : s.Alike s' :=
  Stmt.compare_iff.mp same

theorem Stmt.compare_of_alike {s s' : Stmt F} (alike : s.Alike s') : s.compare s' = true :=
  Stmt.compare_iff.mpr alike

/-- `Program::compare`.  The arguments and the local variables are compared as objects, which only
those of one program can share. -/
def Program.compare (p other : Program F) : Bool :=
  other.name = p.name && other.args = p.args && other.vars = p.vars &&
    Stmt.compareBody p.body other.body

/-! ## Nodes without NaN -/

/-- Every floating point constant in the list equals itself. -/
def NoNaN (es : List (Expr F)) : Prop := ∀ val, Expr.constFP val ∈ es → (val == val) = true

theorem NoNaN.mono {es es' : List (Expr F)} (noNaN : NoNaN es') (sub : ∀ e ∈ es, e ∈ es') :
    NoNaN es := fun val mem => noNaN val (sub _ mem)

theorem Expr.compare_refl {e : Expr F} (noNaN : NoNaN e.collectExprs) : e.compare e = true := by
  induction e using Expr.inductTree with
  | index | const | constString | loadLocal => simp [Expr.compare]
  | constFP val =>
    have := noNaN val (by simp [Expr.collectExprs])
    simpa [Expr.compare] using this
  | binary kind lhs rhs ihL ihR =>
    have left := ihL (noNaN.mono fun e mem => by simp [Expr.collectExprs, mem])
    have right := ihR (noNaN.mono fun e mem => by simp [Expr.collectExprs, mem])
    simp [Expr.compare, left, right]
  | unary kind val ih | broadcast val vf ih =>
    have inner := ih (noNaN.mono fun e mem => by simp [Expr.collectExprs, mem])
    simp [Expr.compare, inner]
  | gep arg indices ih | load arg indices type ih =>
    have inner : Expr.compareList indices indices = true :=
      Expr.compareList_iff.mpr (List.forall₂_same.mpr fun e inList => ih e inList
        (noNaN.mono fun n mem => by
          simp only [Expr.collectExprs, Expr.collectExprsList_eq, List.mem_append, List.mem_flatMap]
          exact .inl ⟨e, inList, mem⟩))
    simp [Expr.compare, inner]

theorem Stmt.compare_refl {s : Stmt F} (noNaN : NoNaN s.collectExprs) : s.compare s = true := by
  have operand : ∀ {s : Stmt F}, NoNaN s.collectExprs → ∀ e ∈ s.operands, e.compare e = true :=
    fun noNaN e mem =>
      Expr.compare_refl (noNaN.mono fun n inner => Stmt.mem_collectExprs_operand mem inner)
  induction s using Stmt.inductTree with
  | loop header body ih =>
    have below : ∀ s ∈ body, s ∈ (Stmt.loop header body).collectStmts := fun s inBody => by
      simp only [Stmt.collectStmts, Stmt.collectStmtsBody_eq, List.mem_cons, List.mem_flatMap]
      exact .inr ⟨s, inBody, s.mem_collectStmts_self⟩
    -- The statements of the body are below the loop, and so are their constants.
    have inner : Stmt.compareBody body body = true :=
      Stmt.compareBody_iff.mpr (List.forall₂_same.mpr fun s inBody =>
        ih s inBody (noNaN.mono (Stmt.collectExprs_mono (below s inBody))))
    simp [Stmt.compare, inner]
  | ifRange val start end_ body ih =>
    have below : ∀ s ∈ body, s ∈ (Stmt.ifRange val start end_ body).collectStmts :=
      fun s inBody => by
        simp only [Stmt.collectStmts, Stmt.collectStmtsBody_eq, List.mem_cons, List.mem_flatMap]
        exact .inr ⟨s, inBody, s.mem_collectStmts_self⟩
    have inner : Stmt.compareBody body body = true :=
      Stmt.compareBody_iff.mpr (List.forall₂_same.mpr fun s inBody =>
        ih s inBody (noNaN.mono (Stmt.collectExprs_mono (below s inBody))))
    simp [Stmt.compare, inner, operand noNaN val (by simp [Stmt.operands, Stmt.roots])]
  | call name params =>
    have inner : Expr.compareList params params = true :=
      Expr.compareList_iff.mpr (List.forall₂_same.mpr (operand noNaN))
    simp [Stmt.compare, inner]
  | store arg indices value accumulate =>
    simp [Stmt.compare, operand noNaN (.gep arg indices) (by simp [Stmt.operands]),
      operand noNaN value (by simp [Stmt.operands])]
  | storeLocal var value accumulate =>
    simp [Stmt.compare, operand noNaN value (by simp [Stmt.operands, Stmt.roots])]

/-! ## Symmetry and transitivity -/

section Equivalence

variable [PartialEquivBEq F]

theorem Expr.compare_symm {e : Expr F} : ∀ {e' : Expr F}, e.compare e' = true →
    e'.compare e = true := by
  induction e using Expr.inductTree with
  | index loop type =>
    intro e' same
    obtain ⟨type', rfl⟩ := Expr.alike_of_compare same
    exact Expr.compare_of_alike ⟨type, rfl⟩
  | const | constString | loadLocal =>
    intro e' same
    obtain rfl := Expr.alike_of_compare same
    exact same
  | constFP val =>
    intro e' same
    obtain ⟨val', rfl, equal⟩ := Expr.alike_of_compare same
    exact Expr.compare_of_alike ⟨val, rfl, BEq.symm equal⟩
  | binary kind lhs rhs ihL ihR =>
    intro e' same
    obtain ⟨lhs', rhs', rfl, left, right⟩ := Expr.alike_of_compare same
    exact Expr.compare_of_alike ⟨lhs, rhs, rfl, ihL left, ihR right⟩
  | unary kind val ih | broadcast val vf ih =>
    intro e' same
    obtain ⟨val', rfl, inner⟩ := Expr.alike_of_compare same
    exact Expr.compare_of_alike ⟨val, rfl, ih inner⟩
  | gep arg indices ih | load arg indices type ih =>
    intro e' same
    obtain ⟨indices', rfl, inner⟩ := Expr.alike_of_compare same
    exact Expr.compare_of_alike
      ⟨indices, rfl, (forall₂_of_mem (fun e mem e' _ => ih e mem) inner).flip⟩

theorem Expr.compare_trans {e : Expr F} : ∀ {e' e'' : Expr F}, e.compare e' = true →
    e'.compare e'' = true → e.compare e'' = true := by
  induction e using Expr.inductTree with
  | index loop type =>
    intro e' e'' first second
    obtain ⟨type', rfl⟩ := Expr.alike_of_compare first
    obtain ⟨type'', rfl⟩ := Expr.alike_of_compare second
    exact Expr.compare_of_alike ⟨type'', rfl⟩
  | const | constString | loadLocal =>
    intro e' e'' first second
    rw [Expr.alike_of_compare first] at second
    exact second
  | constFP val =>
    intro e' e'' first second
    obtain ⟨val', rfl, equal⟩ := Expr.alike_of_compare first
    obtain ⟨val'', rfl, equal'⟩ := Expr.alike_of_compare second
    exact Expr.compare_of_alike ⟨val'', rfl, BEq.trans equal' equal⟩
  | binary kind lhs rhs ihL ihR =>
    intro e' e'' first second
    obtain ⟨lhs', rhs', rfl, left, right⟩ := Expr.alike_of_compare first
    obtain ⟨lhs'', rhs'', rfl, left', right'⟩ := Expr.alike_of_compare second
    exact Expr.compare_of_alike ⟨lhs'', rhs'', rfl, ihL left left', ihR right right'⟩
  | unary kind val ih | broadcast val vf ih =>
    intro e' e'' first second
    obtain ⟨val', rfl, inner⟩ := Expr.alike_of_compare first
    obtain ⟨val'', rfl, inner'⟩ := Expr.alike_of_compare second
    exact Expr.compare_of_alike ⟨val'', rfl, ih inner inner'⟩
  | gep arg indices ih | load arg indices type ih =>
    intro e' e'' first second
    obtain ⟨indices', rfl, inner⟩ := Expr.alike_of_compare first
    obtain ⟨indices'', rfl, inner'⟩ := Expr.alike_of_compare second
    exact Expr.compare_of_alike
      ⟨indices'', rfl, forall₂_trans_of_mem (fun e mem _ _ => ih e mem) inner inner'⟩

theorem Stmt.compare_symm {s : Stmt F} : ∀ {s' : Stmt F}, s.compare s' = true →
    s'.compare s = true := by
  induction s using Stmt.inductTree with
  | loop header body ih =>
    intro s' same
    obtain ⟨header', body', rfl, name, last, stride, inner⟩ := Stmt.alike_of_compare same
    exact Stmt.compare_of_alike ⟨header, body, rfl, name.symm, last.symm, stride.symm,
      (forall₂_of_mem (fun s mem s' _ => ih s mem) inner).flip⟩
  | ifRange val start end_ body ih =>
    intro s' same
    obtain ⟨val', body', rfl, index, inner⟩ := Stmt.alike_of_compare same
    exact Stmt.compare_of_alike ⟨val, body, rfl, Expr.compare_symm index,
      (forall₂_of_mem (fun s mem s' _ => ih s mem) inner).flip⟩
  | call name params =>
    intro s' same
    obtain ⟨params', rfl, inner⟩ := Stmt.alike_of_compare same
    exact Stmt.compare_of_alike ⟨params, rfl, (inner.imp fun _ _ => Expr.compare_symm).flip⟩
  | store arg indices value accumulate =>
    intro s' same
    obtain ⟨indices', value', rfl, place, inner⟩ := Stmt.alike_of_compare same
    exact Stmt.compare_of_alike ⟨indices, value, rfl, (place.imp fun _ _ => Expr.compare_symm).flip,
      Expr.compare_symm inner⟩
  | storeLocal var value accumulate =>
    intro s' same
    obtain ⟨value', rfl, inner⟩ := Stmt.alike_of_compare same
    exact Stmt.compare_of_alike ⟨value, rfl, Expr.compare_symm inner⟩

theorem Stmt.compare_trans {s : Stmt F} : ∀ {s' s'' : Stmt F}, s.compare s' = true →
    s'.compare s'' = true → s.compare s'' = true := by
  induction s using Stmt.inductTree with
  | loop header body ih =>
    intro s' s'' first second
    obtain ⟨header', body', rfl, name, last, stride, inner⟩ := Stmt.alike_of_compare first
    obtain ⟨header'', body'', rfl, name', last', stride', inner'⟩ := Stmt.alike_of_compare second
    exact Stmt.compare_of_alike ⟨header'', body'', rfl, name'.trans name, last'.trans last,
      stride'.trans stride, forall₂_trans_of_mem (fun s mem _ _ => ih s mem) inner inner'⟩
  | ifRange val start end_ body ih =>
    intro s' s'' first second
    obtain ⟨val', body', rfl, index, inner⟩ := Stmt.alike_of_compare first
    obtain ⟨val'', body'', rfl, index', inner'⟩ := Stmt.alike_of_compare second
    exact Stmt.compare_of_alike ⟨val'', body'', rfl, Expr.compare_trans index index',
      forall₂_trans_of_mem (fun s mem _ _ => ih s mem) inner inner'⟩
  | call name params =>
    intro s' s'' first second
    obtain ⟨params', rfl, inner⟩ := Stmt.alike_of_compare first
    obtain ⟨params'', rfl, inner'⟩ := Stmt.alike_of_compare second
    exact Stmt.compare_of_alike
      ⟨params'', rfl, forall₂_trans_of_mem (fun _ _ _ _ => Expr.compare_trans) inner inner'⟩
  | store arg indices value accumulate =>
    intro s' s'' first second
    obtain ⟨indices', value', rfl, place, inner⟩ := Stmt.alike_of_compare first
    obtain ⟨indices'', value'', rfl, place', inner'⟩ := Stmt.alike_of_compare second
    exact Stmt.compare_of_alike ⟨indices'', value'', rfl,
      forall₂_trans_of_mem (fun _ _ _ _ => Expr.compare_trans) place place',
      Expr.compare_trans inner inner'⟩
  | storeLocal var value accumulate =>
    intro s' s'' first second
    obtain ⟨value', rfl, inner⟩ := Stmt.alike_of_compare first
    obtain ⟨value'', rfl, inner'⟩ := Stmt.alike_of_compare second
    exact Stmt.compare_of_alike ⟨value'', rfl, Expr.compare_trans inner' inner⟩

end Equivalence

/-! ## Equal hashes -/

section Hash

variable {fpWord : F → UInt64} {decls : Decls} {names : LoopId → String}

theorem Expr.elementType_of_compare {e : Expr F} : ∀ {e' : Expr F}, e.compare e' = true →
    e.IndexTyped → e'.IndexTyped → e.getType.elementType = e'.getType.elementType := by
  induction e using Expr.inductTree with
  | index loop type =>
    intro e' same typed typed'
    obtain ⟨type', rfl⟩ := Expr.alike_of_compare same
    simp only [Expr.IndexTyped, Expr.collectIndices, List.mem_singleton, forall_eq,
      ExprType.isIndexTy, decide_eq_true_eq] at typed typed'
    simp only [Expr.getType, typed, typed']
  | constFP val =>
    intro e' same _ _
    obtain ⟨val', rfl, -⟩ := Expr.alike_of_compare same
    rfl
  | binary kind lhs rhs ihL ihR =>
    intro e' same typed typed'
    obtain ⟨lhs', rhs', rfl, left, -⟩ := Expr.alike_of_compare same
    simp only [Expr.IndexTyped, Expr.collectIndices, List.forall_mem_append] at typed typed'
    have inner := ihL left typed.1 typed'.1
    exact inner
  | unary kind val ih | broadcast val vf ih =>
    intro e' same typed typed'
    obtain ⟨val', rfl, inner⟩ := Expr.alike_of_compare same
    have type := ih inner typed typed'
    exact type
  | gep arg indices ih | load arg indices type ih =>
    intro e' same _ _
    obtain ⟨indices', rfl, -⟩ := Expr.alike_of_compare same
    rfl
  | const | constString | loadLocal =>
    intro e' same _ _
    rw [Expr.alike_of_compare same]

theorem Expr.hash_of_compare (word : ∀ a b : F, (a == b) = true → fpWord a = fpWord b)
    {e : Expr F} : ∀ {e' : Expr F}, e.compare e' = true → e.IndexTyped → e'.IndexTyped →
      e.hash fpWord decls names = e'.hash fpWord decls names := by
  -- The operands of a subscript list hash alike, so the list does.
  have operands : ∀ {indices indices' : List (Expr F)} (h : UInt64),
      (∀ e ∈ indices, ∀ {e' : Expr F}, e.compare e' = true → e.IndexTyped → e'.IndexTyped →
        e.hash fpWord decls names = e'.hash fpWord decls names) →
      List.Forall₂ (fun e e' => e.compare e' = true) indices indices' →
      (∀ i ∈ Expr.collectIndicesList indices, i.2.isIndexTy = true) →
      (∀ i ∈ Expr.collectIndicesList indices', i.2.isIndexTy = true) →
      Expr.hashIndices fpWord decls names h indices =
        Expr.hashIndices fpWord decls names h indices' := by
    intro indices indices' h ih inner typed typed'
    simp only [Expr.collectIndicesList_eq, List.mem_flatMap] at typed typed'
    exact Expr.hashIndices_forall₂ (forall₂_of_mem (fun e mem e' mem' same =>
      ih e mem same (fun i at_ => typed i ⟨e, mem, at_⟩) fun i at_ => typed' i ⟨e', mem', at_⟩)
      inner) h
  induction e using Expr.inductTree with
  | index loop type =>
    intro e' same _ _
    obtain ⟨type', rfl⟩ := Expr.alike_of_compare same
    rw [Expr.hash, Expr.hash]
  | const | constString | loadLocal =>
    intro e' same _ _
    rw [Expr.alike_of_compare same]
  | constFP val =>
    intro e' same _ _
    obtain ⟨val', rfl, equal⟩ := Expr.alike_of_compare same
    exact (word _ _ equal).symm
  | binary kind lhs rhs ihL ihR =>
    intro e' same typed typed'
    obtain ⟨lhs', rhs', rfl, left, right⟩ := Expr.alike_of_compare same
    simp only [Expr.IndexTyped, Expr.collectIndices, List.forall_mem_append] at typed typed'
    rw [Expr.hash, Expr.hash, ihL left typed.1 typed'.1, ihR right typed.2 typed'.2]
  | unary kind val ih =>
    intro e' same typed typed'
    obtain ⟨val', rfl, inner⟩ := Expr.alike_of_compare same
    rw [Expr.hash, Expr.hash, ih inner typed typed']
  | broadcast val vf ih =>
    intro e' same typed typed'
    obtain ⟨val', rfl, inner⟩ := Expr.alike_of_compare same
    -- The hash takes the type of the operand, which the comparison does not look at.
    have type := Expr.elementType_of_compare inner typed typed'
    rw [Expr.hash, Expr.hash, ih inner typed typed', Expr.getType, Expr.getType, type]
  | gep arg indices ih =>
    intro e' same typed typed'
    obtain ⟨indices', rfl, inner⟩ := Expr.alike_of_compare same
    simp only [Expr.IndexTyped, Expr.collectIndices] at typed typed'
    rw [Expr.hash, Expr.hash, operands _ ih inner typed typed']
  | load arg indices type ih =>
    intro e' same typed typed'
    obtain ⟨indices', rfl, inner⟩ := Expr.alike_of_compare same
    simp only [Expr.IndexTyped, Expr.collectIndices] at typed typed'
    rw [Expr.hash, Expr.hash, operands _ ih inner typed typed']

theorem Expr.hashIndices_of_compare (word : ∀ a b : F, (a == b) = true → fpWord a = fpWord b)
    {es es' : List (Expr F)} (same : List.Forall₂ (fun e e' => e.compare e' = true) es es')
    (typed : ∀ e ∈ es, e.IndexTyped) (typed' : ∀ e ∈ es', e.IndexTyped) (h : UInt64) :
    Expr.hashIndices fpWord decls names h es = Expr.hashIndices fpWord decls names h es' :=
  Expr.hashIndices_forall₂ (forall₂_of_mem (fun e mem e' mem' same =>
    Expr.hash_of_compare word same (typed e mem) (typed' e' mem')) same) h

theorem Stmt.hash_of_compare (word : ∀ a b : F, (a == b) = true → fpWord a = fpWord b)
    {s : Stmt F} : ∀ {s' : Stmt F} {scope scope' : List LoopId}, s.compare s' = true →
      s.verify decls scope = true → s'.verify decls scope' = true →
        s.hash fpWord decls names = s'.hash fpWord decls names := by
  induction s using Stmt.inductTree with
  | loop header body ih =>
    intro s' scope scope' same verified verified'
    obtain ⟨header', body', rfl, name, last, stride, inner⟩ := Stmt.alike_of_compare same
    simp only [Stmt.verify, Bool.and_eq_true, Stmt.verifyBody_eq, List.all_eq_true]
      at verified verified'
    rw [Stmt.hash, Stmt.hash, name, last, stride, inner.length_eq,
      Stmt.hashBody_forall₂ (forall₂_of_mem (fun s mem s' mem' same =>
        ih s mem same (verified.2 s mem) (verified'.2 s' mem')) inner)]
  | ifRange val start end_ body ih =>
    intro s' scope scope' same verified verified'
    obtain ⟨val', body', rfl, index, inner⟩ := Stmt.alike_of_compare same
    -- The hash of an index leaves out its type, which verification fixes.
    have typed := Stmt.roots_indexTyped verified val List.mem_cons_self
    have typed' := Stmt.roots_indexTyped verified' val' List.mem_cons_self
    simp only [Stmt.verify, Bool.and_eq_true, Stmt.verifyBody_eq, List.all_eq_true]
      at verified verified'
    rw [Stmt.hash, Stmt.hash, Expr.hash_of_compare word index typed typed', inner.length_eq,
      Stmt.hashBody_forall₂ (forall₂_of_mem (fun s mem s' mem' same =>
        ih s mem same (verified.2 s mem) (verified'.2 s' mem')) inner)]
  | call name params =>
    intro s' scope scope' same verified verified'
    obtain ⟨params', rfl, inner⟩ := Stmt.alike_of_compare same
    rw [Stmt.hash, Stmt.hash, inner.length_eq,
      Expr.hashIndices_of_compare word inner (Stmt.roots_indexTyped verified)
        (Stmt.roots_indexTyped verified')]
  | store arg indices value accumulate =>
    intro s' scope scope' same verified verified'
    obtain ⟨indices', value', rfl, place, inner⟩ := Stmt.alike_of_compare same
    have typed := List.forall_mem_append.mp (Stmt.roots_indexTyped verified)
    have typed' := List.forall_mem_append.mp (Stmt.roots_indexTyped verified')
    rw [Stmt.hash, Stmt.hash, Expr.hashIndices_of_compare word place typed.1 typed'.1,
      Expr.hash_of_compare word inner (typed.2 _ List.mem_cons_self) (typed'.2 _ List.mem_cons_self)]
  | storeLocal var value accumulate =>
    intro s' scope scope' same verified verified'
    obtain ⟨value', rfl, inner⟩ := Stmt.alike_of_compare same
    have typed := Stmt.roots_indexTyped verified value List.mem_cons_self
    have typed' := Stmt.roots_indexTyped verified' value' List.mem_cons_self
    rw [Stmt.hash, Stmt.hash, Expr.hash_of_compare word inner typed' typed]

end Hash

/-- Comparing and hashing the expressions and the statements of a verified program. -/
theorem Program.compare_respects_hash [PartialEquivBEq F] (fpWord : F → UInt64)
    (word : ∀ a b : F, (a == b) = true → fpWord a = fpWord b) (p : Program F)
    (verified : p.verify = true) :
    (∀ e ∈ p.body.flatMap Stmt.collectExprs, ∀ e' ∈ p.body.flatMap Stmt.collectExprs,
      e.compare e' = true → e.hash fpWord p.decls p.loopName = e'.hash fpWord p.decls p.loopName) ∧
    (∀ s ∈ p.body.flatMap Stmt.collectStmts, ∀ s' ∈ p.body.flatMap Stmt.collectStmts,
      s.compare s' = true → s.hash fpWord p.decls p.loopName = s'.hash fpWord p.decls p.loopName) ∧
    (∀ e e' : Expr F, e.compare e' = true → e'.compare e = true) ∧
    (∀ s s' : Stmt F, s.compare s' = true → s'.compare s = true) ∧
    (∀ e e' e'' : Expr F, e.compare e' = true → e'.compare e'' = true → e.compare e'' = true) ∧
    (∀ s s' s'' : Stmt F, s.compare s' = true → s'.compare s'' = true → s.compare s'' = true) ∧
    (∀ e : Expr F, NoNaN e.collectExprs → e.compare e = true) ∧
    (∀ s : Stmt F, NoNaN s.collectExprs → s.compare s = true) ∧
    (NoNaN (p.body.flatMap Stmt.collectExprs) → p.compare p = true) := by
  have typed : ∀ e ∈ p.body.flatMap Stmt.collectExprs, e.IndexTyped := by
    intro e mem
    obtain ⟨s, inBody, inS⟩ := List.mem_flatMap.mp mem
    exact Stmt.collectExprs_indexTyped (p.verify_body verified s inBody) e inS
  have checked : ∀ s ∈ p.body.flatMap Stmt.collectStmts,
      ∃ scope, s.verify p.decls scope = true := by
    intro s mem
    obtain ⟨root, inBody, below⟩ := List.mem_flatMap.mp mem
    exact Stmt.verify_collectStmts (p.verify_body verified root inBody) below
  refine ⟨fun e mem e' mem' same => ?_, fun s mem s' mem' same => ?_, fun _ _ => Expr.compare_symm,
    fun _ _ => Stmt.compare_symm, fun _ _ _ => Expr.compare_trans, fun _ _ _ => Stmt.compare_trans,
    fun _ => Expr.compare_refl, fun _ => Stmt.compare_refl, fun noNaN => ?_⟩
  -- Equal expressions, equal statements, and then the two relations.
  · exact Expr.hash_of_compare word same (typed e mem) (typed e' mem')
  · obtain ⟨scope, verified⟩ := checked s mem
    obtain ⟨scope', verified'⟩ := checked s' mem'
    exact Stmt.hash_of_compare word same verified verified'
  · have body : Stmt.compareBody p.body p.body = true :=
      Stmt.compareBody_iff.mpr (List.forall₂_same.mpr fun s mem =>
        Stmt.compare_refl (noNaN.mono fun e inS => List.mem_flatMap.mpr ⟨s, mem, inS⟩))
    simp [Program.compare, body]

/-- Floating point constants, cut to whole numbers. -/
inductive WholeFP where
  | nan
  | num (val : Int)

instance WholeFP.instBEq : BEq WholeFP where
  beq
    | .num a, .num b => a = b
    | _, _ => false

instance WholeFP.instPartialEquivBEq : PartialEquivBEq WholeFP where
  symm := by
    intro a b same
    cases a <;> cases b <;> simp_all [BEq.beq]
  trans := by
    intro a b c first second
    cases a <;> cases b <;> cases c <;> simp_all [BEq.beq]

/-- The conversion to a word. -/
def WholeFP.word : WholeFP → UInt64
  | .nan => 0
  | .num val => UInt64.ofInt val

/-- A loop that stores a constant in a local variable. -/
def storingLoop (id : LoopId) : Stmt WholeFP :=
  .loop ⟨id, "i", 4, 1⟩ [.storeLocal 0 (.constFP (.num 1)) false]

/-- The same loop twice. -/
def repeatedLoop : Program WholeFP :=
  ⟨"f", [], [⟨"v", .scalar .float32Ty⟩], [storingLoop 0, storingLoop 1]⟩

theorem repeatedLoop_hash : repeatedLoop.verify = true ∧
    (storingLoop 0).compare (storingLoop 1) = true ∧
    (storingLoop 0).hash WholeFP.word repeatedLoop.decls repeatedLoop.loopName =
      (storingLoop 1).hash WholeFP.word repeatedLoop.decls repeatedLoop.loopName := by
  have verified : repeatedLoop.verify = true := by decide +kernel
  have same : (storingLoop 0).compare (storingLoop 1) = true := by decide +kernel
  have word : ∀ a b : WholeFP, (a == b) = true → a.word = b.word := by
    intro a b same
    cases a <;> cases b <;> simp_all [BEq.beq]
  have first : storingLoop 0 ∈ repeatedLoop.body.flatMap Stmt.collectStmts := by
    simp [repeatedLoop, storingLoop, Stmt.collectStmts]
  have second : storingLoop 1 ∈ repeatedLoop.body.flatMap Stmt.collectStmts := by
    simp [repeatedLoop, storingLoop, Stmt.collectStmts]
  exact ⟨verified, same,
    (repeatedLoop.compare_respects_hash WholeFP.word word verified).2.1 _ first _ second same⟩

end Bistra
