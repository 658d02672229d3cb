import Mathlib.Algebra.Order.Field.Rat
import Bistra.Analysis.Range

/-! # Soundness of the range analysis

`computeKnownIntegerRange` is sound for the expressions that it knows no range for, and for those
that `boundedRange` accepts: every bound on the way is an `int`, and the operands of a maximum have
the same upper bound.
-/

namespace Bistra

variable {F : Type}

-- The order that `exactRange` uses.
local instance exactRangeOrder : Preorder Int := Int.instLinearOrder.toPreorder

theorem mapM_eq_some_iff {α β : Type} {f : α → Option β} {l : List α} {l' : List β} :
    l.mapM f = some l' ↔ List.Forall₂ (fun a b => f a = some b) l l' := by
  induction l generalizing l' with
  | nil => simp [eq_comm]
  | cons a l ih =>
    simp only [List.mapM_cons, Option.bind_eq_bind, Option.bind_eq_some_iff, Option.pure_def,
      Option.some.injEq, ih]
    constructor
    · rintro ⟨b, first, rest, others, rfl⟩
      exact .cons first others
    · rintro (_ | ⟨first, others⟩)
      exact ⟨_, first, _, others, rfl⟩

theorem exists_of_forall₂ {α β : Type} {R : α → β → Prop} {l : List α} {l' : List β}
    (related : List.Forall₂ R l l') : ∀ a ∈ l, ∃ b ∈ l', R a b := by
  induction related with
  | nil => exact fun _ mem => nomatch mem
  | cons first others ih =>
    refine List.forall_mem_cons.mpr ⟨⟨_, List.mem_cons_self, first⟩, fun a mem => ?_⟩
    obtain ⟨b, memB, related⟩ := ih a mem
    exact ⟨b, List.mem_cons_of_mem _ memB, related⟩

/-! ## Bounded ranges -/

def FitsInt (n : Int) : Prop := -2 ^ 31 ≤ n ∧ n < 2 ^ 31

instance (n : Int) : Decidable (FitsInt n) := inferInstanceAs (Decidable (_ ∧ _))

/-- The interval, if its ends are of type `int`. -/
def boundedInterval (I : NonemptyInterval Int) : Option (NonemptyInterval Int) :=
  if FitsInt I.fst ∧ FitsInt I.snd then some I else none

/-- The range of a binary expression when the analysis computes it right. -/
def BinOpKind.boundedRange (kind : BinOpKind) (L R : NonemptyInterval Int) :
    Option (NonemptyInterval Int) :=
  match kind with
  -- Both bounds of a maximum are minima in the source.
  | .max =>
    if L.snd = R.snd then
      some ⟨(Min.min L.fst R.fst, L.snd), (min_le_left _ _).trans L.fst_le_snd⟩
    else none
  | kind => (kind.range L R).bind boundedInterval

/-- The range of an index expression when the analysis computes it right. -/
def boundedRange (loops : LoopTable) (liveLoops : Option (List LoopId)) :
    Expr F → Option (NonemptyInterval Int)
  | .const val => boundedInterval (NonemptyInterval.pure val)
  | .index loop _ =>
    if liveLoops.any (loop ∉ ·) then some (NonemptyInterval.pure 0)
    else ((loops loop).bind Loop.range).bind boundedInterval
  | .binary kind lhs rhs =>
    (boundedRange loops liveLoops lhs).bind fun L =>
      (boundedRange loops liveLoops rhs).bind fun R => kind.boundedRange L R
  | _ => none

/-- Live loops are at one of `0, stride, ..., end - stride`, the other ones at zero. -/
def LoopTable.Assigns (loops : LoopTable) (liveLoops : Option (List LoopId)) (env : Env) : Prop :=
  ∀ L, (liveLoops.any (L ∉ ·) = true → env L = 0) ∧
    (liveLoops.any (L ∉ ·) = false → ∀ header, loops L = some header →
      ∃ k : Nat, env L = k * header.stride.toNat ∧
        (k + 1) * header.stride.toNat ≤ header.end_.toNat)

theorem boundedInterval_eq_some {I J : NonemptyInterval Int} (bounded : boundedInterval I = some J) :
    J = I ∧ FitsInt I.fst ∧ FitsInt I.snd := by
  simp only [boundedInterval] at bounded
  split at bounded
  next fits => exact ⟨(Option.some.inj bounded).symm, fits⟩
  next => cases bounded

/-- The value of an expression is in its bounded range. -/
theorem boundedRange_sound [Field F] [LinearOrder F] {M : Machine F} {st : State F} {env : Env}
    {loops : LoopTable} {liveLoops : Option (List LoopId)} (assigns : loops.Assigns liveLoops env)
    {e : Expr F} {I : NonemptyInterval Int} (known : boundedRange loops liveLoops e = some I) :
    ∃ v ∈ I, e.eval M st env 0 = .idx v := by
  induction e using Expr.inductTree generalizing I with
  | const val =>
    obtain ⟨rfl, -⟩ := boundedInterval_eq_some known
    exact ⟨val, NonemptyInterval.mem_pure_self val, rfl⟩
  | index loop type =>
    have value : (Expr.index loop type : Expr F).eval M st env 0 = .idx (env loop) := by
      simp [Expr.eval]
    refine ⟨env loop, ?_, value⟩
    simp only [boundedRange] at known
    split at known
    -- An index that is not live is zero, and so is the range that the analysis takes for it.
    next frozen =>
      cases known
      rw [(assigns loop).1 frozen]
      exact NonemptyInterval.mem_pure_self 0
    next live =>
      obtain ⟨J, found, bounded⟩ := Option.bind_eq_some_iff.mp known
      obtain ⟨rfl, -⟩ := boundedInterval_eq_some bounded
      obtain ⟨header, declared, inside⟩ := Option.bind_eq_some_iff.mp found
      obtain ⟨k, at_, last⟩ := (assigns loop).2 (by simpa using live) header declared
      simp only [Loop.range] at inside
      split at inside
      · cases inside
        -- The last iteration is one stride before the end.
        have upper : (k * header.stride.toNat : Int) ≤ header.end_.toNat - header.stride.toNat := by
          have : ((k * header.stride.toNat + header.stride.toNat : Nat) : Int) ≤
              header.end_.toNat := by
            rw [← Nat.succ_mul]
            exact_mod_cast last
          push_cast at this
          omega
        rw [at_]
        exact ⟨Int.mul_nonneg (Int.natCast_nonneg _) (Int.natCast_nonneg _), upper⟩
      · cases inside
  | binary kind lhs rhs ihL ihR =>
    simp only [boundedRange] at known
    obtain ⟨L, knownL, known⟩ := Option.bind_eq_some_iff.mp known
    obtain ⟨R, knownR, known⟩ := Option.bind_eq_some_iff.mp known
    obtain ⟨a, memA, evalA⟩ := ihL knownL
    obtain ⟨b, memB, evalB⟩ := ihR knownR
    refine ⟨kind.onInt a b, ?_, by rw [Expr.eval, evalA, evalB, Machine.binOp]⟩
    -- The maximum is the one operator whose bounds are not those of the interval operation.
    by_cases isMax : kind = .max
    · subst isMax
      simp only [BinOpKind.boundedRange] at known
      split at known
      next same =>
        cases known
        exact ⟨(min_le_left _ _).trans (memA.1.trans (le_max_left a b)),
          max_le memA.2 (same ▸ memB.2)⟩
      next => cases known
    · have ranged : (kind.range L R).bind boundedInterval = some I := by
        cases kind with
        | max => exact absurd rfl isMax
        | mul | add | div | sub | min | pow => exact known
      obtain ⟨J, found, bounded⟩ := Option.bind_eq_some_iff.mp ranged
      obtain ⟨rfl, -⟩ := boundedInterval_eq_some bounded
      exact BinOpKind.mem_range found memA memB
  | constFP | constString | unary | broadcast | gep | load | loadLocal => cases known

/-! ## The analysis -/

theorem toInt_add_of_fits {a b : Int32} (fits : FitsInt (a.toInt + b.toInt)) :
    (a + b).toInt = a.toInt + b.toInt := by
  rw [Int32.toInt_add]
  exact Int.bmod_eq_of_le fits.1 fits.2

theorem toInt_sub_of_fits {a b : Int32} (fits : FitsInt (a.toInt - b.toInt)) :
    (a - b).toInt = a.toInt - b.toInt := by
  rw [Int32.toInt_sub]
  exact Int.bmod_eq_of_le fits.1 fits.2

theorem toInt_mul_of_fits {a b : Int32} (fits : FitsInt (a.toInt * b.toInt)) :
    (a * b).toInt = a.toInt * b.toInt := by
  rw [Int32.toInt_mul]
  exact Int.bmod_eq_of_le fits.1 fits.2

theorem toInt_min (a b : Int32) : (min a b).toInt = min a.toInt b.toInt := by
  show (if a ≤ b then a else b).toInt = _
  rw [apply_ite Int32.toInt, min_def]
  simp only [Int32.le_iff_toInt_le]

theorem toInt_max (a b : Int32) : (max a b).toInt = max a.toInt b.toInt := by
  show (if a ≤ b then b else a).toInt = _
  rw [apply_ite Int32.toInt, max_def]
  simp only [Int32.le_iff_toInt_le]

/-- The range has the ends of the interval. -/
def IntRange.Is (range : IntRange) (I : NonemptyInterval Int) : Prop :=
  range.1.toInt = I.fst ∧ range.2.toInt = I.snd

theorem checkedRange_of_is {range : IntRange} {I : NonemptyInterval Int} (is : range.Is I) :
    checkedRange range = some (some range) := by
  rw [checkedRange, if_pos]
  rw [Int32.le_iff_toInt_le, is.1, is.2]
  exact I.fst_le_snd

theorem cornerRange_is {f : Int32 → Int32 → Int32} {g : Int → Int → Int}
    (same : ∀ a b, FitsInt (g a.toInt b.toInt) → (f a b).toInt = g a.toInt b.toInt)
    {L R : IntRange} {I J : NonemptyInterval Int} (isL : L.Is I) (isR : R.Is J)
    (low : FitsInt (Interval.corners g I J).fst) (high : FitsInt (Interval.corners g I J).snd) :
    (cornerRange f L R).Is (Interval.corners g I J) := by
  obtain ⟨lowL, highL⟩ := isL
  obtain ⟨lowR, highR⟩ := isR
  simp only [Interval.corners, FitsInt, ← lowL, ← highL, ← lowR, ← highR, le_min_iff, max_lt_iff]
    at low high
  obtain ⟨⟨⟨ll, lh⟩, hl, hh⟩, -⟩ := low
  obtain ⟨-, ⟨ll', lh'⟩, hl', hh'⟩ := high
  simp only [IntRange.Is, cornerRange, Interval.corners, toInt_min, toInt_max, same _ _ ⟨ll, ll'⟩,
    same _ _ ⟨lh, lh'⟩, same _ _ ⟨hl, hl'⟩, same _ _ ⟨hh, hh'⟩, lowL, highL, lowR, highR, and_self]

theorem BinOpKind.intRange_is {kind : BinOpKind} {L R : IntRange} {I J K : NonemptyInterval Int}
    (isL : L.Is I) (isR : R.Is J) (bounded : kind.boundedRange I J = some K) :
    ∃ range : IntRange, kind.intRange L R = some (some range) ∧ range.Is K := by
  cases kind with
  -- Of a product, a sum or a difference all four corners have to be of type `int`.
  | mul =>
    obtain ⟨rfl, low, high⟩ := boundedInterval_eq_some bounded
    have is := cornerRange_is (fun _ _ => toInt_mul_of_fits) isL isR low high
    exact ⟨_, checkedRange_of_is is, is⟩
  | add =>
    obtain ⟨rfl, low, high⟩ := boundedInterval_eq_some bounded
    have is := cornerRange_is (fun _ _ => toInt_add_of_fits) isL isR low high
    exact ⟨_, checkedRange_of_is is, is⟩
  | sub =>
    obtain ⟨rfl, low, high⟩ := boundedInterval_eq_some bounded
    have is := cornerRange_is (fun _ _ => toInt_sub_of_fits) isL isR low high
    exact ⟨_, checkedRange_of_is is, is⟩
  -- A minimum of numbers of type `int` is one of them, so nothing can leave the type.
  | min =>
    obtain ⟨rfl, -⟩ := boundedInterval_eq_some bounded
    have low : (Min.min L.1 R.1).toInt = Min.min I.fst J.fst := by rw [toInt_min, isL.1, isR.1]
    have high : (Min.min L.2 R.2).toInt = Min.min I.snd J.snd := by rw [toInt_min, isL.2, isR.2]
    have is : IntRange.Is (Min.min L.1 R.1, Min.min L.2 R.2) (NonemptyInterval.map₂ Min.min
        (fun _ _ _ le => min_le_min_right _ le) (fun _ _ _ le => min_le_min_left _ le) I J) :=
      ⟨low, high⟩
    exact ⟨_, checkedRange_of_is is, is⟩
  | max =>
    simp only [BinOpKind.boundedRange] at bounded
    split at bounded
    next same =>
      cases bounded
      have low : (Min.min L.1 R.1).toInt = Min.min I.fst J.fst := by rw [toInt_min, isL.1, isR.1]
      have high : (Min.min L.2 R.2).toInt = I.snd := by
        rw [toInt_min, isL.2, isR.2, same, min_self]
      have is : IntRange.Is (Min.min L.1 R.1, Min.min L.2 R.2)
          ⟨(Min.min I.fst J.fst, I.snd), (min_le_left _ _).trans I.fst_le_snd⟩ := ⟨low, high⟩
      exact ⟨_, checkedRange_of_is is, is⟩
    next => cases bounded
  | div | pow => cases bounded

theorem computeKnownIntegerRange_of_bounded {loops : LoopTable} {liveLoops : Option (List LoopId)}
    {e : Expr F} {I : NonemptyInterval Int} (known : boundedRange loops liveLoops e = some I) :
    ∃ range : IntRange, computeKnownIntegerRange loops liveLoops e = some (some range) ∧
      range.Is I := by
  induction e using Expr.inductTree generalizing I with
  | const val =>
    obtain ⟨rfl, low, high⟩ := boundedInterval_eq_some known
    have same : (Int32.ofInt val).toInt = val := by
      rw [Int32.toInt_ofInt]
      exact Int.bmod_eq_of_le low.1 low.2
    exact ⟨_, rfl, same, same⟩
  | index loop type =>
    simp only [boundedRange] at known
    split at known
    next frozen =>
      cases known
      exact ⟨(0, 0), if_pos frozen, rfl, rfl⟩
    next live =>
      obtain ⟨J, found, bounded⟩ := Option.bind_eq_some_iff.mp known
      obtain ⟨rfl, -, fits⟩ := boundedInterval_eq_some bounded
      obtain ⟨header, declared, inside⟩ := Option.bind_eq_some_iff.mp found
      simp only [Loop.range] at inside
      split at inside
      next stride_le =>
        cases inside
        -- The unsigned difference does not wrap around, and as an `int` it stays what it is.
        have last : (header.end_ - header.stride).toInt32.toInt =
            header.end_.toNat - header.stride.toNat := by
          have le : header.stride ≤ header.end_ := by
            rw [UInt32.le_iff_toNat_le]
            omega
          have size := UInt32.toNat_sub_of_le _ _ le
          have small : (header.end_ - header.stride).toNat < 2 ^ 31 := by
            have := fits.2
            simp only at this
            omega
          rw [toInt32_toInt, if_pos small, size]
          omega
        have is : IntRange.Is (0, (header.end_ - header.stride).toInt32)
            ⟨(0, header.end_.toNat - header.stride.toNat), stride_le⟩ := ⟨rfl, last⟩
        refine ⟨_, ?_, is⟩
        rw [computeKnownIntegerRange, if_neg live, declared]
        exact checkedRange_of_is is
      next => cases inside
  | binary kind lhs rhs ihL ihR =>
    simp only [boundedRange] at known
    obtain ⟨L, knownL, known⟩ := Option.bind_eq_some_iff.mp known
    obtain ⟨R, knownR, known⟩ := Option.bind_eq_some_iff.mp known
    obtain ⟨rangeL, computedL, isL⟩ := ihL knownL
    obtain ⟨rangeR, computedR, isR⟩ := ihR knownR
    obtain ⟨range, computed, is⟩ := BinOpKind.intRange_is isL isR known
    exact ⟨range, by simp only [computeKnownIntegerRange, computedL, computedR, computed], is⟩
  | constFP | constString | unary | broadcast | gep | load | loadLocal => cases known

/-! ## Expressions without a range -/

/-- A quotient, a power, or a node that is no constant, index or operator occurs. -/
def Expr.rangeless : Expr F → Bool
  | .const _ | .index _ _ => false
  | .binary kind lhs rhs => kind = .div || kind = .pow || lhs.rangeless || rhs.rangeless
  | _ => true

theorem computeKnownIntegerRange_of_rangeless {loops : LoopTable} {liveLoops : Option (List LoopId)}
    {e : Expr F} (rangeless : e.rangeless = true) (range : IntRange) :
    computeKnownIntegerRange loops liveLoops e ≠ some (some range) := by
  induction e using Expr.inductTree generalizing range with
  | const | index => cases rangeless
  | binary kind lhs rhs ihL ihR =>
    intro computed
    simp only [computeKnownIntegerRange] at computed
    split at computed
    next L computedL =>
      split at computed
      next R computedR =>
        simp only [Expr.rangeless, Bool.or_eq_true, decide_eq_true_eq] at rangeless
        obtain ((rfl | rfl) | left) | right := rangeless
        · cases computed
        · cases computed
        · exact ihL left L computedL
        · exact ihR right R computedR
      next unknown => exact unknown range computed
    next unknown => exact unknown range computed
  | constFP | constString | unary | broadcast | gep | load | loadLocal => exact nofun

/-! ## Soundness -/

section Soundness

variable [Field F] [LinearOrder F]

/-- The range that the analysis computes, if it computes one, has the value of the expression. -/
def RangeSound (M : Machine F) (loops : LoopTable) (liveLoops : Option (List LoopId))
    (e : Expr F) : Prop :=
  ∀ range, computeKnownIntegerRange loops liveLoops e = some (some range) →
    ∀ (st : State F) (env : Env), loops.Assigns liveLoops env →
      ∃ v, e.eval M st env 0 = .idx v ∧ range.1.toInt ≤ v ∧ v ≤ range.2.toInt

/-- Assignments give the operands every pair of ends of their ranges. -/
def AttainsCorners (M : Machine F) (loops : LoopTable) (liveLoops : Option (List LoopId))
    (lhs rhs : Expr F) (L R : NonemptyInterval Int) : Prop :=
  ∀ a ∈ [L.fst, L.snd], ∀ b ∈ [R.fst, R.snd], ∃ (st : State F) (env : Env),
    loops.Assigns liveLoops env ∧ lhs.eval M st env 0 = .idx a ∧ rhs.eval M st env 0 = .idx b

theorem RangeSound.of_bounded {M : Machine F} {loops : LoopTable}
    {liveLoops : Option (List LoopId)} {e : Expr F} {I : NonemptyInterval Int}
    (known : boundedRange loops liveLoops e = some I) : RangeSound M loops liveLoops e := by
  intro range computed st env assigns
  obtain ⟨range', computed', low, high⟩ := computeKnownIntegerRange_of_bounded known
  obtain rfl : range' = range := by
    rw [computed] at computed'
    cases computed'
    rfl
  obtain ⟨v, mem, value⟩ : ∃ v ∈ I, e.eval M st env 0 = .idx v :=
    boundedRange_sound assigns known
  exact ⟨v, value, low ▸ mem.1, high ▸ mem.2⟩

theorem RangeSound.of_rangeless {M : Machine F} {loops : LoopTable}
    {liveLoops : Option (List LoopId)} {e : Expr F} (rangeless : e.rangeless = true) :
    RangeSound M loops liveLoops e := fun range computed =>
  absurd computed (computeKnownIntegerRange_of_rangeless rangeless range)

theorem fitsInt_toInt (a : Int32) : FitsInt a.toInt := ⟨a.le_toInt, a.toInt_lt⟩

theorem checkedRange_cornerRange (f : Int32 → Int32 → Int32) (L R : IntRange) :
    checkedRange (cornerRange f L R) = some (some (cornerRange f L R)) := by
  apply if_pos
  simp only [cornerRange, Int32.le_iff_toInt_le, toInt_min, toInt_max]
  exact (min_le_left _ _).trans ((min_le_left _ _).trans
    ((le_max_left _ _).trans (le_max_left _ _)))

section Operator

variable {M : Machine F} {loops : LoopTable} {liveLoops : Option (List LoopId)} {kind : BinOpKind}
  {lhs rhs : Expr F} {L R : NonemptyInterval Int} {rangeL rangeR : IntRange}

/-- The corners of a sum, a difference or a product whose range is sound are of type `int`. -/
theorem RangeSound.corners_fit (corners : AttainsCorners M loops liveLoops lhs rhs L R)
    {f : Int32 → Int32 → Int32} (computed : computeKnownIntegerRange loops liveLoops
      (.binary kind lhs rhs) = some (some (cornerRange f rangeL rangeR)))
    (sound : RangeSound M loops liveLoops (.binary kind lhs rhs)) :
    FitsInt (Interval.corners kind.onInt L R).fst ∧ FitsInt (Interval.corners kind.onInt L R).snd := by
  have fits : ∀ a ∈ [L.fst, L.snd], ∀ b ∈ [R.fst, R.snd], FitsInt (kind.onInt a b) := by
    intro a memA b memB
    obtain ⟨st, env, assigns, evalL, evalR⟩ := corners a memA b memB
    obtain ⟨v, value, above, below⟩ := sound _ computed st env assigns
    rw [Expr.eval, evalL, evalR, Machine.binOp] at value
    cases value
    exact ⟨(fitsInt_toInt _).1.trans above, below.trans_lt (fitsInt_toInt _).2⟩
  simp only [List.mem_cons, List.not_mem_nil, or_false, forall_eq_or_imp, forall_eq] at fits
  obtain ⟨⟨ll, lh⟩, hl, hh⟩ := fits
  constructor
  · exact ⟨le_min (le_min ll.1 lh.1) (le_min hl.1 hh.1),
      (min_le_left _ _).trans_lt ((min_le_left _ _).trans_lt ll.2)⟩
  · exact ⟨ll.1.trans ((le_max_left _ _).trans (le_max_left _ _)),
      max_lt (max_lt ll.2 lh.2) (max_lt hl.2 hh.2)⟩

/-- The greater upper bound of the operands of a maximum is above the computed range. -/
theorem RangeSound.max_bounds (corners : AttainsCorners M loops liveLoops lhs rhs L R)
    (isL : rangeL.Is L) (isR : rangeR.Is R)
    (computedL : computeKnownIntegerRange loops liveLoops lhs = some (some rangeL))
    (computedR : computeKnownIntegerRange loops liveLoops rhs = some (some rangeR))
    (sound : RangeSound M loops liveLoops (.binary .max lhs rhs)) : L.snd = R.snd := by
  have low : (min rangeL.1 rangeR.1).toInt = min L.fst R.fst := by rw [toInt_min, isL.1, isR.1]
  have high : (min rangeL.2 rangeR.2).toInt = min L.snd R.snd := by rw [toInt_min, isL.2, isR.2]
  have ordered : min L.fst R.fst ≤ min L.snd R.snd := min_le_min L.fst_le_snd R.fst_le_snd
  have computed : computeKnownIntegerRange loops liveLoops (.binary .max lhs rhs) =
      some (some (min rangeL.1 rangeR.1, min rangeL.2 rangeR.2)) := by
    simp only [computeKnownIntegerRange, computedL, computedR, BinOpKind.intRange]
    have is : IntRange.Is (min rangeL.1 rangeR.1, min rangeL.2 rangeR.2)
        ⟨(min L.fst R.fst, min L.snd R.snd), ordered⟩ := ⟨low, high⟩
    exact checkedRange_of_is is
  obtain ⟨st, env, assigns, evalL, evalR⟩ := corners L.snd (by simp) R.snd (by simp)
  obtain ⟨v, value, -, below⟩ := sound _ computed st env assigns
  rw [Expr.eval, evalL, evalR, Machine.binOp] at value
  cases value
  -- The maximum of the upper bounds is at most their minimum.
  rw [high] at below
  exact le_antisymm ((le_max_left _ _).trans (below.trans (min_le_right _ _)))
    ((le_max_right _ _).trans (below.trans (min_le_left _ _)))

/-- An operator on operands with bounded ranges whose corners are attained has a sound range only
if its own range is bounded, too. -/
theorem RangeSound.bounded (knownL : boundedRange loops liveLoops lhs = some L)
    (knownR : boundedRange loops liveLoops rhs = some R)
    (corners : AttainsCorners M loops liveLoops lhs rhs L R)
    (sound : RangeSound M loops liveLoops (.binary kind lhs rhs)) :
    kind = .div ∨ kind = .pow ∨ (kind.boundedRange L R).isSome = true := by
  obtain ⟨rangeL, computedL, isL⟩ := computeKnownIntegerRange_of_bounded knownL
  obtain ⟨rangeR, computedR, isR⟩ := computeKnownIntegerRange_of_bounded knownR
  have computed : computeKnownIntegerRange loops liveLoops (.binary kind lhs rhs) =
      kind.intRange rangeL rangeR := by
    simp only [computeKnownIntegerRange, computedL, computedR]
  cases kind with
  | div => exact .inl rfl
  | pow => exact .inr (.inl rfl)
  -- The computed ends are of type `int`, so corners that are attained have to be, too.
  | mul | add | sub =>
    rw [BinOpKind.intRange, checkedRange_cornerRange] at computed
    have fits := sound.corners_fit corners computed
    refine .inr (.inr ?_)
    rw [BinOpKind.boundedRange, BinOpKind.range, Option.bind_some]
    · exact Option.isSome_iff_exists.mpr ⟨_, if_pos fits⟩
    · exact nofun
  -- The ends are ends of the operands, which are of type `int`.
  | min =>
    have low := fitsInt_toInt (min rangeL.1 rangeR.1)
    have high := fitsInt_toInt (min rangeL.2 rangeR.2)
    rw [toInt_min, isL.1, isR.1] at low
    rw [toInt_min, isL.2, isR.2] at high
    refine .inr (.inr (Option.isSome_iff_exists.mpr ⟨_, if_pos ⟨low, high⟩⟩))
  | max =>
    refine .inr (.inr (Option.isSome_iff_exists.mpr ⟨_, dif_pos ?_⟩))
    exact sound.max_bounds corners isL isR computedL computedR

end Operator

/-- The analysis is sound where it knows no range, and where every bound on the way is an `int` and
the operands of every maximum have the same upper bound.  At an operator whose operands attain the
corners of such ranges it is sound only then. -/
theorem computeKnownIntegerRange_sound (M : Machine F) (loops : LoopTable)
    (liveLoops : Option (List LoopId)) :
    (∀ e : Expr F, (e.rangeless = true ∨ (boundedRange loops liveLoops e).isSome = true) →
      RangeSound M loops liveLoops e) ∧
    ∀ (kind : BinOpKind) (lhs rhs : Expr F) (L R : NonemptyInterval Int),
      boundedRange loops liveLoops lhs = some L → boundedRange loops liveLoops rhs = some R →
      AttainsCorners M loops liveLoops lhs rhs L R →
      (RangeSound M loops liveLoops (.binary kind lhs rhs) ↔
        (Expr.binary kind lhs rhs).rangeless = true ∨
          (boundedRange loops liveLoops (.binary kind lhs rhs)).isSome = true) := by
  have enough : ∀ e : Expr F,
      (e.rangeless = true ∨ (boundedRange loops liveLoops e).isSome = true) →
        RangeSound M loops liveLoops e := by
    rintro e (rangeless | known)
    · exact .of_rangeless rangeless
    · obtain ⟨I, known⟩ := Option.isSome_iff_exists.mp known
      exact .of_bounded known
  refine ⟨enough, fun kind lhs rhs L R knownL knownR corners => ⟨fun sound => ?_, enough _⟩⟩
  simp only [boundedRange, knownL, knownR, Option.bind_some]
  obtain quotient | power | bounded := sound.bounded knownL knownR corners
  · exact .inl (by simp [Expr.rangeless, quotient])
  · exact .inl (by simp [Expr.rangeless, power])
  · exact .inr bounded

end Soundness

/-- The loops `for (i in 0 .. 4)`. -/
def upToFour : LoopTable := fun L => if L = 0 then some ⟨0, "i", 4, 1⟩ else none

/-- `2 * i - max(i, 3)`. -/
def boundedExpr : Expr F :=
  .binary .sub (.binary .mul (.const 2) (.indexOf 0)) (.binary .max (.indexOf 0) (.const 3))

/-- The range of `boundedExpr` is right, and `max(i, 5) / 2` has none. -/
theorem computeKnownIntegerRange_sound_boundedExpr :
    RangeSound (Machine.bare : Machine ℚ) upToFour none boundedExpr ∧
      RangeSound (Machine.bare : Machine ℚ) upToFour none
        (.binary .div (.binary .max (.indexOf 0) (.const 5)) (.const 2)) :=
  have sound := (computeKnownIntegerRange_sound (Machine.bare : Machine ℚ) upToFour none).1
  ⟨sound boundedExpr (.inr (by decide)), sound _ (.inl (by decide))⟩

/-- The range of `max(i, 5)` is `(0, 3)`, and its value is 5. -/
theorem computeKnownIntegerRange_max_unsound :
    computeKnownIntegerRange upToFour none (.binary .max (.indexOf 0) (.const 5) : Expr ℚ) =
        some (some (0, 3)) ∧
      ¬ RangeSound (Machine.bare : Machine ℚ) upToFour none
        (.binary .max (.indexOf 0) (.const 5)) := by
  have computed : computeKnownIntegerRange upToFour none
      (.binary .max (.indexOf 0) (.const 5) : Expr ℚ) = some (some (0, 3)) := by decide
  refine ⟨computed, fun sound => ?_⟩
  have assigns : upToFour.Assigns none (fun _ => 0) := by
    intro L
    refine ⟨fun frozen => rfl, fun _ header known => ⟨0, by simp, ?_⟩⟩
    simp only [upToFour] at known
    split at known <;> cases known
    decide
  obtain ⟨v, value, -, below⟩ := sound _ computed State.zero _ assigns
  cases value
  exact absurd below (by decide)

end Bistra
