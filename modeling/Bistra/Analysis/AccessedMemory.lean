import Mathlib.Data.Int.Interval
import Mathlib.Data.Set.Card
import Bistra.Analysis.RangeSound

/-! # The footprint of an access

`getAccessedMemoryForSubscript` of `Value.cpp`, and the tuples of subscripts that it is to bound.
-/

namespace Bistra

variable {F : Type}

-- The order that `exactRange` uses.
local instance footprintOrder : Preorder Int := Int.instLinearOrder.toPreorder

/-- The loop of `getAccessedMemoryForSubscript`, from the product `span` on; `none` is a failed
assertion. -/
def accessedSpan (loops : LoopTable) (live : Option (List LoopId)) :
    List (Expr F) → Int32 → Option UInt64
  | [], span => some span.toInt64.toUInt64
  | idx :: indices, span =>
    match computeKnownIntegerRange loops live idx with
    | none => none
    | some none => some 0
    | some (some range) => accessedSpan loops live indices (span * (range.2 - range.1 + 1))

def getAccessedMemoryForSubscript (loops : LoopTable) (live : Option (List LoopId))
    (indices : List (Expr F)) : Option UInt64 := accessedSpan loops live indices 1

/-! ## What is bounded -/

section Bound

variable [Field F] [LinearOrder F] (M : Machine F) (loops : LoopTable)
  (live : Option (List LoopId)) (indices : List (Expr F))

/-- The tuples that the subscripts reach when every live loop runs over its whole range and every
other index is zero. -/
def reachedTuples (st : State F) : Set (List Int) :=
  {t | ∃ env, loops.Assigns live env ∧ t = Expr.subscripts M st env indices}

/-- The result is zero only if a range is not known, and otherwise bounds the number of tuples. -/
def FootprintBound : Prop :=
  ∃ n, getAccessedMemoryForSubscript loops live indices = some n ∧
    (n = 0 → ∃ idx ∈ indices, computeKnownIntegerRange loops live idx = some none) ∧
    (n ≠ 0 → ∀ st, (reachedTuples M loops live indices st).encard ≤ n.toNat)

end Bound

/-! ## Spans -/

def boxSize (intervals : List (NonemptyInterval Int)) : Int :=
  (intervals.map fun I => I.snd - I.fst + 1).prod

/-- The number of 64 bits that the number becomes in an `int`. -/
def throughInt (n : Int) : UInt64 := (Int32.ofInt n).toInt64.toUInt64

/-- The intervals are the right ranges of the subscripts. -/
def Ranges (loops : LoopTable) (live : Option (List LoopId)) (indices : List (Expr F))
    (intervals : List (NonemptyInterval Int)) : Prop :=
  List.Forall₂ (fun e I => boundedRange loops live e = some I) indices intervals

/-- The analysis computes the range of every subscript right, and the number of tuples that it
allows for is not above what becomes of it in an `int`; or the range of a subscript is not known. -/
def FootprintFits (loops : LoopTable) (live : Option (List LoopId)) (indices : List (Expr F)) :
    Prop :=
  (∃ known idx rest, indices = known ++ idx :: rest ∧
    (∀ e ∈ known, ∃ range, computeKnownIntegerRange loops live e = some (some range)) ∧
    computeKnownIntegerRange loops live idx = some none) ∨
  ∃ intervals, Ranges loops live indices intervals ∧
    boxSize intervals ≤ (throughInt (boxSize intervals)).toNat

theorem boxSize_pos (intervals : List (NonemptyInterval Int)) : 0 < boxSize intervals := by
  induction intervals with
  | nil => decide
  | cons I rest ih =>
    have ordered := I.fst_le_snd
    have length : 0 < I.snd - I.fst + 1 := by omega
    exact Int.mul_pos length ih

theorem card_box_eq (intervals : List (NonemptyInterval Int)) :
    ((Interval.box intervals).card : Int) = boxSize intervals := by
  induction intervals with
  | nil => rfl
  | cons I rest ih =>
    have ordered := I.fst_le_snd
    rw [Interval.box, Finset.card_map, Finset.card_product, Nat.cast_mul, ih, Int.card_Icc,
      Int.toNat_of_nonneg (by omega), boxSize, boxSize, List.map_cons, List.prod_cons]
    ring

theorem accessedSpan_of_ranges {loops : LoopTable} {live : Option (List LoopId)}
    {indices : List (Expr F)} {intervals : List (NonemptyInterval Int)}
    (known : Ranges loops live indices intervals) (n : Int) :
    accessedSpan loops live indices (Int32.ofInt n) = some (throughInt (n * boxSize intervals)) := by
  induction known generalizing n with
  | nil => simp [accessedSpan, throughInt, boxSize]
  | @cons idx I indices intervals first others ih =>
    obtain ⟨range, computed, low, high⟩ := computeKnownIntegerRange_of_bounded first
    have span : range.2 - range.1 + 1 = Int32.ofInt (I.snd - I.fst + 1) := by
      rw [Int32.ofInt_add, Int32.ofInt_sub, ← low, ← high, Int32.ofInt_toInt, Int32.ofInt_toInt]
      rfl
    simp only [accessedSpan, computed]
    rw [span, ← Int32.ofInt_mul, ih, boxSize, boxSize, List.map_cons, List.prod_cons,
      Int.mul_assoc]

theorem accessedSpan_of_unknown {loops : LoopTable} {live : Option (List LoopId)}
    {known rest : List (Expr F)} {idx : Expr F}
    (ranges : ∀ e ∈ known, ∃ range, computeKnownIntegerRange loops live e = some (some range))
    (unknown : computeKnownIntegerRange loops live idx = some none) (span : Int32) :
    accessedSpan loops live (known ++ idx :: rest) span = some 0 := by
  induction known generalizing span with
  | nil => simp [accessedSpan, unknown]
  | cons e known ih =>
    obtain ⟨range, computed⟩ := ranges e List.mem_cons_self
    simp only [List.cons_append, accessedSpan, computed]
    exact ih (fun e mem => ranges e (List.mem_cons_of_mem _ mem)) _

section Sound

variable [Field F] [LinearOrder F] {M : Machine F} {loops : LoopTable}
  {live : Option (List LoopId)} {indices : List (Expr F)}
  {intervals : List (NonemptyInterval Int)}

theorem reachedTuples_subset (known : Ranges loops live indices intervals)
    (st : State F) : reachedTuples M loops live indices st ⊆ Interval.box intervals := by
  rintro t ⟨env, assigns, rfl⟩
  rw [Finset.mem_coe, Interval.mem_box, Expr.subscripts_eq]
  induction known with
  | nil => exact .nil
  | cons first others ih =>
    obtain ⟨v, mem, value⟩ : ∃ v ∈ _, Expr.eval M st env _ 0 = .idx v :=
      boundedRange_sound assigns first
    refine .cons ?_ ih
    simpa only [value, Scalar.toInt] using mem

/-- Where every range is right, and the reached tuples fill the box of the ranges, the bound holds
exactly if the size of the box is not above what becomes of it in an `int`. -/
theorem footprintBound_of_ranges (known : Ranges loops live indices intervals) :
    (boxSize intervals ≤ (throughInt (boxSize intervals)).toNat →
      FootprintBound M loops live indices) ∧
    ((∃ st, ↑(Interval.box intervals) ⊆ reachedTuples M loops live indices st) →
      FootprintBound M loops live indices →
      boxSize intervals ≤ (throughInt (boxSize intervals)).toNat) := by
  have computed : getAccessedMemoryForSubscript loops live indices =
      some (throughInt (boxSize intervals)) := by
    rw [getAccessedMemoryForSubscript, ← Int.one_mul (boxSize intervals)]
    exact accessedSpan_of_ranges known 1
  constructor
  · intro fits
    have positive := boxSize_pos intervals
    refine ⟨_, computed, fun zero => ?_, fun _ st => ?_⟩
    · rw [zero] at fits
      exact absurd (Int.lt_of_lt_of_le positive fits) (by decide)
    · refine (Set.encard_le_encard (reachedTuples_subset known st)).trans ?_
      rw [Set.encard_coe_eq_coe_finsetCard, Nat.cast_le]
      have := card_box_eq intervals
      omega
  · rintro ⟨st, fills⟩ ⟨n, result, zero, bound⟩
    rw [computed] at result
    cases result
    have nonzero : throughInt (boxSize intervals) ≠ 0 := fun isZero => by
      obtain ⟨idx, mem, unknown⟩ := zero isZero
      obtain ⟨I, -, bounded⟩ := exists_of_forall₂ known idx mem
      obtain ⟨range, ranged, -⟩ := computeKnownIntegerRange_of_bounded bounded
      cases unknown.symm.trans ranged
    have counted := (Set.encard_le_encard fills).trans (bound nonzero st)
    rw [Set.encard_coe_eq_coe_finsetCard, Nat.cast_le] at counted
    have size := card_box_eq intervals
    omega

/-- The footprint estimate is an upper bound where the analysis is right and the size of the box of
the ranges fits; where the reached tuples fill that box, it is an upper bound only then. -/
theorem getAccessedMemoryForSubscript_bounds (M : Machine F) (loops : LoopTable)
    (live : Option (List LoopId)) (indices : List (Expr F)) :
    (FootprintFits loops live indices → FootprintBound M loops live indices) ∧
      ∀ intervals, Ranges loops live indices intervals →
        (∃ st, ↑(Interval.box intervals) ⊆ reachedTuples M loops live indices st) →
        (FootprintBound M loops live indices ↔ FootprintFits loops live indices) := by
  have sound : FootprintFits loops live indices → FootprintBound M loops live indices := by
    rintro (⟨before, idx, rest, rfl, ranges, unknown⟩ | ⟨intervals, known, fits⟩)
    · refine ⟨0, accessedSpan_of_unknown ranges unknown 1, fun _ => ⟨idx, ?_, unknown⟩, ?_⟩
      · exact List.mem_append_right _ List.mem_cons_self
      · exact fun absurd => (absurd rfl).elim
    · exact (footprintBound_of_ranges known).1 fits
  refine ⟨sound, fun intervals known fills => ⟨fun bound => ?_, sound⟩⟩
  exact .inr ⟨intervals, known, (footprintBound_of_ranges known).2 fills bound⟩

end Sound

/-- The loops `for (i in 0 .. end) for (j in 0 .. end)`. -/
def squareLoops (end_ : UInt32) : LoopTable := fun L =>
  if L = 0 then some ⟨0, "i", end_, 1⟩ else if L = 1 then some ⟨1, "j", end_, 1⟩ else none

theorem getAccessedMemoryForSubscript_bounds_square :
    FootprintBound (Machine.bare : Machine ℚ) (squareLoops 100) none [.indexOf 0, .indexOf 1] := by
  refine (getAccessedMemoryForSubscript_bounds _ _ _ _).1
    (.inr ⟨_, .cons rfl (.cons rfl .nil), ?_⟩)
  decide

/-- Of the footprint of `A[i][j]` over `65536 * 65536` cells nothing is left in an `int`. -/
theorem getAccessedMemoryForSubscript_wraps :
    ¬ FootprintBound (Machine.bare : Machine ℚ) (squareLoops 65536) none
      [.indexOf 0, .indexOf 1] := by
  rintro ⟨n, result, zero, -⟩
  have wrapped : getAccessedMemoryForSubscript (squareLoops 65536) none
      ([.indexOf 0, .indexOf 1] : List (Expr ℚ)) = some 0 := by decide
  cases wrapped.symm.trans result
  obtain ⟨idx, mem, unknown⟩ := zero rfl
  have known : ∀ idx ∈ ([.indexOf 0, .indexOf 1] : List (Expr ℚ)),
      computeKnownIntegerRange (squareLoops 65536) none idx ≠ some none := by decide
  exact known idx mem unknown

end Bistra
