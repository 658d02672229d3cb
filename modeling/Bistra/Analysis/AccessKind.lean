import Mathlib.Algebra.Field.Rat
import Mathlib.Algebra.Order.Ring.Rat
import Mathlib.Algebra.Polynomial.Roots
import Bistra.Transforms.Vectorize

/-! # What the kind of a subscript says

`getIndexAccessKind` of `Analysis/Value.cpp`.  A subscript of a known kind is a sum of products in
which the index of the loop stands some number of times.  A consecutive one should be the index plus
a constant, but the case of a product falls through to the one of a sum.
-/

namespace Bistra

open Polynomial

variable {F : Type}

def Expr.intValue (env : Env) : Expr F → Int
  | .index loop _ => env loop
  | .const val => val
  | .binary kind lhs rhs => kind.onInt (lhs.intValue env) (rhs.intValue env)
  | _ => 0

/-- The expression consists of constants, indices and operators. -/
def Expr.isArith : Expr F → Bool
  | .index _ _ | .const _ | .constFP _ => true
  | .binary _ lhs rhs => lhs.isArith && rhs.isArith
  | _ => false

/-- The index of `L` stands below sums and products only. -/
def Expr.inSumsAndProducts (L : LoopId) : Expr F → Bool
  | .binary kind lhs rhs =>
    if kind = .add ∨ kind = .mul then lhs.inSumsAndProducts L && rhs.inSumsAndProducts L
    else !lhs.dependsOnLoop L && !rhs.dependsOnLoop L
  | _ => true

/-- The expression multiplied out: products in which the index of `L` stands so many times, and
their other factors. -/
def Expr.terms (L : LoopId) : Expr F → List (Nat × List (Expr F))
  | .index loop type => if loop = L then [(1, [])] else [(0, [.index loop type])]
  | .binary .add lhs rhs => lhs.terms L ++ rhs.terms L
  | .binary .mul lhs rhs =>
    (lhs.terms L).flatMap fun s => (rhs.terms L).map fun t => (s.1 + t.1, s.2 ++ t.2)
  | e => [(0, [e])]

def factor (env : Env) (term : Nat × List (Expr F)) : Int :=
  (term.2.map (Expr.intValue env)).prod

/-- The sum of the other factors of the products in which the index of `L` stands `k` times. -/
def Expr.coefficient (L : LoopId) (env : Env) (k : Nat) (e : Expr F) : Int :=
  (((e.terms L).filter (·.1 = k)).map (factor env)).sum

@[simp] theorem Expr.dependsOnLoop_binary {L : LoopId} {kind : BinOpKind} {lhs rhs : Expr F} :
    (Expr.binary kind lhs rhs).dependsOnLoop L = (lhs.dependsOnLoop L || rhs.dependsOnLoop L) := by
  simp [Expr.dependsOnLoop, Expr.collectIndices]

theorem Expr.inSumsAndProducts_of_not {L : LoopId} {e : Expr F} (free : e.dependsOnLoop L = false) :
    e.inSumsAndProducts L = true := by
  induction e using Expr.inductTree with
  | binary kind lhs rhs ihL ihR =>
    rw [Expr.dependsOnLoop_binary, Bool.or_eq_false_iff] at free
    simp [Expr.inSumsAndProducts, ihL free.1, ihR free.2, free]
  | index | const | constFP | constString | unary | broadcast | gep | load | loadLocal => rfl

/-- The kind of a subscript says where the index of the loop stands. -/
theorem getIndexAccessKind_eq (L : LoopId) (e : Expr F) :
    getIndexAccessKind L e =
      if e.isArith && e.inSumsAndProducts L then
        if e.dependsOnLoop L then .consecutive else .uniform
      else .other := by
  induction e using Expr.inductTree with
  | index loop type =>
    simp [getIndexAccessKind, Expr.isArith, Expr.inSumsAndProducts, Expr.dependsOnLoop,
      Expr.collectIndices]
  | binary kind lhs rhs ihL ihR =>
    have left := Expr.inSumsAndProducts_of_not (L := L) (e := lhs)
    have right := Expr.inSumsAndProducts_of_not (L := L) (e := rhs)
    simp only [getIndexAccessKind, ihL, ihR, Expr.isArith, Expr.inSumsAndProducts,
      Expr.dependsOnLoop_binary]
    -- What remains is a table over what holds of the operands.
    generalize lhs.isArith = arithL, rhs.isArith = arithR, lhs.dependsOnLoop L = inL,
      rhs.dependsOnLoop L = inR, lhs.inSumsAndProducts L = sumsL,
      rhs.inSumsAndProducts L = sumsR at left right ⊢
    revert arithL arithR inL inR sumsL sumsR
    cases kind <;> decide
  | const | constFP | constString | unary | broadcast | gep | load | loadLocal => rfl

theorem Expr.intValue_congr {env env' : Env} {e : Expr F}
    (same : ∀ index ∈ e.collectIndices, env' index.1 = env index.1) :
    e.intValue env' = e.intValue env := by
  induction e using Expr.inductTree with
  | index loop type => exact same (loop, type) (by simp [Expr.collectIndices])
  | binary kind lhs rhs ihL ihR =>
    simp only [Expr.collectIndices, List.mem_append] at same
    rw [Expr.intValue, Expr.intValue, ihL fun i mem => same i (.inl mem),
      ihR fun i mem => same i (.inr mem)]
  | const | constFP | constString | unary | broadcast | gep | load | loadLocal => rfl

theorem Expr.intValue_update {L : LoopId} {e : Expr F} (free : e.dependsOnLoop L = false) (env : Env)
    (i : Int) : e.intValue (Function.update env L i) = e.intValue env := by
  apply Expr.intValue_congr
  intro index mem
  apply Function.update_of_ne
  simpa using List.any_eq_false.mp free index mem

/-! ## Multiplying out -/

/-- The sum of products as a polynomial in the index of the loop. -/
noncomputable def polynomial (env : Env) (terms : List (Nat × List (Expr F))) : ℤ[X] :=
  (terms.map fun term => C (factor env term) * X ^ term.1).sum

section Polynomial

variable {env : Env} {terms rest : List (Nat × List (Expr F))}

@[simp] theorem polynomial_nil : polynomial env ([] : List (Nat × List (Expr F))) = 0 := rfl

@[simp] theorem polynomial_cons {term : Nat × List (Expr F)} :
    polynomial env (term :: rest) = C (factor env term) * X ^ term.1 + polynomial env rest := by
  simp [polynomial]

@[simp] theorem polynomial_append :
    polynomial env (terms ++ rest) = polynomial env terms + polynomial env rest := by
  simp [polynomial]

theorem polynomial_row (s : Nat × List (Expr F)) :
    polynomial env (rest.map fun t => (s.1 + t.1, s.2 ++ t.2)) =
      C (factor env s) * X ^ s.1 * polynomial env rest := by
  induction rest with
  | nil => simp
  | cons t rest ih =>
    have split : factor env (s.1 + t.1, s.2 ++ t.2) = factor env s * factor env t := by
      simp [factor]
    rw [List.map_cons, polynomial_cons, polynomial_cons, ih, split, C_mul]
    ring

theorem polynomial_product :
    polynomial env (terms.flatMap fun s => rest.map fun t => (s.1 + t.1, s.2 ++ t.2)) =
      polynomial env terms * polynomial env rest := by
  induction terms with
  | nil => simp
  | cons s terms ih =>
    rw [List.flatMap_cons, polynomial_append, polynomial_row, ih, polynomial_cons]
    ring

theorem coeff_polynomial (k : Nat) : (polynomial env terms).coeff k =
    ((terms.filter (·.1 = k)).map (factor env)).sum := by
  induction terms with
  | nil => simp
  | cons term rest ih =>
    rw [polynomial_cons, coeff_add, ih, coeff_C_mul_X_pow]
    by_cases here : term.1 = k
    · simp [here]
    · simp [here, Ne.symm here]

end Polynomial

/-- The polynomial has the values of the subscript. -/
theorem Expr.eval_polynomial {L : LoopId} {e : Expr F} (sums : e.inSumsAndProducts L = true)
    (env : Env) (i : Int) :
    (polynomial env (e.terms L)).eval i = e.intValue (Function.update env L i) := by
  have one : ∀ {e : Expr F}, e.dependsOnLoop L = false →
      (polynomial env [(0, [e])]).eval i = e.intValue (Function.update env L i) := by
    intro e free
    simp [factor, Expr.intValue_update free]
  induction e using Expr.inductTree with
  | index loop type =>
    by_cases same : loop = L
    · simp [Expr.terms, same, factor, Expr.intValue]
    · rw [Expr.terms, if_neg same]
      exact one (by simp [Expr.dependsOnLoop, Expr.collectIndices, same])
  | binary kind lhs rhs ihL ihR =>
    simp only [Expr.inSumsAndProducts] at sums
    cases kind with
    | add =>
      simp only [true_or, if_true, Bool.and_eq_true] at sums
      rw [Expr.terms, polynomial_append, eval_add, ihL sums.1, ihR sums.2]
      rfl
    | mul =>
      simp only [or_true, if_true, Bool.and_eq_true] at sums
      rw [Expr.terms, polynomial_product, eval_mul, ihL sums.1, ihR sums.2]
      rfl
    | _ => exact one (by simpa using sums)
  | const | constFP | constString => simp [Expr.terms, factor, Expr.intValue]
  | unary | broadcast | gep | load | loadLocal => simp [Expr.terms, factor, Expr.intValue]

theorem polynomial_eq_X_add_C {L : LoopId} {env : Env} {e : Expr F} :
    (∃ c, polynomial env (e.terms L) = X + C c) ↔
      e.coefficient L env 1 = 1 ∧ ∀ k, 2 ≤ k → e.coefficient L env k = 0 := by
  simp only [Expr.coefficient, ← coeff_polynomial]
  constructor
  · rintro ⟨c, sum⟩
    refine ⟨by rw [sum, coeff_add, coeff_X_one, coeff_C, if_neg (by omega), add_zero],
      fun k high => ?_⟩
    rw [sum, coeff_add, coeff_X, coeff_C, if_neg (by omega), if_neg (by omega), add_zero]
  · rintro ⟨once, none⟩
    refine ⟨(polynomial env (e.terms L)).coeff 0, Polynomial.ext fun k => ?_⟩
    rw [coeff_add, coeff_X, coeff_C]
    match k with
    | 0 => simp
    | 1 => simp [once]
    | k + 2 => simp [none (k + 2) (by omega)]

section Subscripts

variable [Field F] [LinearOrder F] {decls : Decls} {scope : List LoopId}

theorem Expr.eval_subscript {e : Expr F} (verified : e.verify decls scope = true)
    (subscript : e.getType.isIndexTy = true) (arith : e.isArith = true)
    (M : Machine F) (st : State F) (env : Env) : e.eval M st env 0 = .idx (e.intValue env) := by
  induction e using Expr.inductTree with
  | index loop type => simp [Expr.eval, Expr.intValue]
  | const val => rfl
  | constFP val => cases subscript
  | binary kind lhs rhs ihL ihR =>
    simp only [Expr.verify, Bool.and_eq_true, decide_eq_true_eq] at verified
    simp only [Expr.isArith, Bool.and_eq_true] at arith
    have subscriptR : rhs.getType.isIndexTy = true := verified.1.1 ▸ subscript
    rw [Expr.eval, ihL verified.1.2 subscript arith.1, ihR verified.2 subscriptR arith.2]
    rfl
  | constString | unary | broadcast | gep | load | loadLocal => cases arith

/-- What the kind of a subscript promises: a uniform one does not depend on the index of the loop,
and a consecutive one grows as much as the index. -/
def AccessKindSound (L : LoopId) (e : Expr F) : Prop :=
  ∀ (M : Machine F) (st : State F) (env : Env) (t : Int),
    (getIndexAccessKind L e = .uniform →
      (e.eval M st (Function.update env L (env L + t)) 0).toInt = (e.eval M st env 0).toInt) ∧
    (getIndexAccessKind L e = .consecutive →
      (e.eval M st (Function.update env L (env L + t)) 0).toInt = (e.eval M st env 0).toInt + t)

/-- The kind of a subscript is right exactly when the subscript is no sum of products with the index
of the loop, or when the products with one index have factors that sum to one, and those with more
indices factors that sum to zero. -/
theorem getIndexAccessKind_sound_iff {L : LoopId} {e : Expr F}
    (verified : e.verify decls scope = true) (subscript : e.getType.isIndexTy = true) :
    AccessKindSound L e ↔
      (e.isArith = true → e.inSumsAndProducts L = true → e.dependsOnLoop L = true →
        ∀ env, e.coefficient L env 1 = 1 ∧ ∀ k, 2 ≤ k → e.coefficient L env k = 0) := by
  have kind := getIndexAccessKind_eq L e
  constructor
  · intro sound arith sums depends env
    rw [arith, sums, depends] at kind
    refine polynomial_eq_X_add_C.mp
      ⟨(polynomial env (e.terms L)).eval 0, Polynomial.funext fun i => ?_⟩
    have grows := (sound .bare .zero (Function.update env L 0) i).2 kind
    rw [e.eval_subscript verified subscript arith, e.eval_subscript verified subscript arith,
      Function.update_idem, Function.update_self, Int.zero_add] at grows
    rw [eval_add, eval_X, eval_C, Expr.eval_polynomial sums, Expr.eval_polynomial sums, add_comm]
    exact grows
  · intro unit M st env t
    constructor
    · intro uniform
      rw [Expr.eval_congr fun index mem =>
        Function.update_of_ne (not_mem_of_uniform uniform index mem) _ _]
    · intro consecutive
      obtain ⟨⟨arith, sums⟩, depends⟩ :
          (e.isArith = true ∧ e.inSumsAndProducts L = true) ∧ e.dependsOnLoop L = true := by
        rw [consecutive] at kind
        split_ifs at kind with both depends
        exact ⟨Bool.and_eq_true_iff.mp both, depends⟩
      obtain ⟨c, sum⟩ := polynomial_eq_X_add_C.mpr (unit arith sums depends env)
      have value : ∀ i, e.intValue (Function.update env L i) = i + c := by
        intro i
        rw [← Expr.eval_polynomial sums, sum, eval_add, eval_X, eval_C]
      have here := value (env L)
      rw [Function.update_eq_self] at here
      rw [e.eval_subscript verified subscript arith, e.eval_subscript verified subscript arith,
        Scalar.toInt, Scalar.toInt, value, here]
      omega

end Subscripts

/-- The kind of `i + 3 * j` is right: of its products `i` and `3 * j` only the first one has `i`. -/
theorem getIndexAccessKind_sound_offset : AccessKindSound 0
    (.binary .add (.indexOf 0) (.binary .mul (.const 3) (.indexOf 1)) : Expr ℚ) := by
  refine (getIndexAccessKind_sound_iff (show Expr.verify ⟨[], []⟩ [0, 1] _ = true by decide)
    (by decide)).mpr fun _ _ _ env => ⟨rfl, fun k high => ?_⟩
  have some : 0 ≠ k ∧ 1 ≠ k := by omega
  simp [Expr.coefficient, Expr.terms, Expr.indexOf, some]

/-- The subscript `i * 2` grows by two. -/
theorem getIndexAccessKind_unsound_product : ¬ ∀ (decls : Decls) (scope : List LoopId) (L : LoopId)
    (e : Expr ℚ), e.verify decls scope = true → e.getType.isIndexTy = true →
      AccessKindSound L e := by
  intro sound
  have grows := (sound ⟨[], []⟩ [0] 0 (.binary .mul (.indexOf 0) (.const 2)) (by decide) (by decide)
    .bare .zero (fun _ => 0) 1).2 (by decide)
  exact absurd grows (by decide)

end Bistra
