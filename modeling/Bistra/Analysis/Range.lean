import Mathlib.Algebra.Order.Ring.Int
import Bistra.Library.Interval
import Bistra.Program.Verify
import Bistra.Semantics.Rewrite

/-! # Ranges of index expressions

`computeKnownIntegerRange` and `getRangeRelation` of `Analysis/Value.cpp`.  The analysis
computes with pairs of `int`, inclusive at both ends.  `exactRange` is what it approximates:
interval arithmetic on integers, which is sound.
-/

namespace Bistra

variable {F : Type}

/-- `std::pair<int, int>`. -/
abbrev IntRange := Int32 × Int32

inductive RangeRelation where
  | subset | disjoint | intersect
  deriving DecidableEq

/-- The headers of the loops that indices refer to. -/
abbrev LoopTable := LoopId → Option Loop

def Program.loopTable (p : Program F) : LoopTable := fun L => (p.findLoop L).map (·.1)

/-- `assert(range.first <= range.second && "invalid range")`. -/
def checkedRange (range : IntRange) : Option (Option IntRange) :=
  if range.1 ≤ range.2 then some (some range) else none

/-- The least and the greatest value of an operator at the corners of two ranges. -/
def cornerRange (f : Int32 → Int32 → Int32) (L R : IntRange) : IntRange :=
  (min (min (f L.1 R.1) (f L.1 R.2)) (min (f L.2 R.1) (f L.2 R.2)),
    max (max (f L.1 R.1) (f L.1 R.2)) (max (f L.2 R.1) (f L.2 R.2)))

/-- The range of a binary expression whose operands have the ranges `L` and `R`. -/
def BinOpKind.intRange (kind : BinOpKind) (L R : IntRange) : Option (Option IntRange) :=
  match kind with
  | .mul => checkedRange (cornerRange (· * ·) L R)
  | .add => checkedRange (cornerRange (· + ·) L R)
  | .sub => checkedRange (cornerRange (· - ·) L R)
  | .min => checkedRange (Min.min L.1 R.1, Min.min L.2 R.2)
  -- The bounds of a maximum are computed with `std::min`, too.
  | .max => checkedRange (Min.min L.1 R.1, Min.min L.2 R.2)
  | .div | .pow => some none

/-- `computeKnownIntegerRange`: `none` is a failed assertion, `some none` an unknown range. -/
def computeKnownIntegerRange (loops : LoopTable) (liveLoops : Option (List LoopId)) :
    Expr F → Option (Option IntRange)
  | .const val => some (some (Int32.ofInt val, Int32.ofInt val))
  | .index loop _ =>
    if liveLoops.any (loop ∉ ·) then some (some (0, 0))
    else (loops loop).bind fun header => checkedRange (0, (header.end_ - header.stride).toInt32)
  | .binary kind lhs rhs =>
    match computeKnownIntegerRange loops liveLoops lhs with
    | some (some L) =>
      match computeKnownIntegerRange loops liveLoops rhs with
      | some (some R) => kind.intRange L R
      | unknown => unknown
    | unknown => unknown
  | _ => some none

def getRangeRelation (A B : IntRange) : RangeRelation :=
  if B.1 ≤ A.1 ∧ A.2 ≤ B.2 then .subset
  else if A.2 ≤ B.1 ∨ A.2 ≤ B.1 then .disjoint
  else .intersect

/-! ## Exact ranges -/

-- Intervals are computed with this order, not with that of a complete lattice.
local instance rangeOrder : Preorder Int := Int.instLinearOrder.toPreorder

def Loop.range (header : Loop) : Option (NonemptyInterval Int) :=
  if fits : (0 : Int) ≤ header.end_.toNat - header.stride.toNat then
    some ⟨(0, header.end_.toNat - header.stride.toNat), fits⟩
  else none

/-- The exact range of a binary expression. -/
def BinOpKind.range (kind : BinOpKind) (L R : NonemptyInterval Int) :
    Option (NonemptyInterval Int) :=
  match kind with
  | .mul => some (Interval.corners (· * ·) L R)
  | .add => some (Interval.corners (· + ·) L R)
  | .sub => some (Interval.corners (· - ·) L R)
  | .min => some (NonemptyInterval.map₂ Min.min (fun _ _ _ le => min_le_min_right _ le)
      (fun _ _ _ le => min_le_min_left _ le) L R)
  | .max => some (NonemptyInterval.map₂ Max.max (fun _ _ _ le => max_le_max_right _ le)
      (fun _ _ _ le => max_le_max_left _ le) L R)
  | .div | .pow => none

/-- The range of an index expression in exact arithmetic; the index of a loop that is not live
is zero. -/
def exactRange (loops : LoopTable) (liveLoops : Option (List LoopId)) :
    Expr F → Option (NonemptyInterval Int)
  | .const val => some (NonemptyInterval.pure val)
  | .index loop _ =>
    if liveLoops.any (loop ∉ ·) then some (NonemptyInterval.pure 0)
    else (loops loop).bind Loop.range
  | .binary kind lhs rhs =>
    (exactRange loops liveLoops lhs).bind fun L =>
      (exactRange loops liveLoops rhs).bind fun R => kind.range L R
  | _ => none

/-- Every index of a loop of the table is between its first and its last value. -/
def LoopTable.Bounds (loops : LoopTable) (env : Env) : Prop :=
  ∀ L header, loops L = some header →
    0 ≤ env L ∧ env L ≤ header.end_.toNat - header.stride.toNat

theorem Program.Reachable.bounds {p : Program F} (verified : p.verify = true) {env : Env}
    (reach : p.Reachable env) : p.loopTable.Bounds env := by
  intro L header known
  obtain ⟨loop, found, rfl⟩ := Option.map_eq_some_iff.mp known
  obtain ⟨mem, rfl⟩ := Program.findLoop_mem found
  obtain ⟨-, divides, positive, -⟩ := Loop.verify_iff.mp (Program.verify_loop verified mem)
  obtain ⟨nonneg, below, aligned⟩ := (Loop.mem_iterations positive).mp (reach loop mem)
  refine ⟨nonneg, ?_⟩
  -- Both are multiples of the stride.
  have gap : (loop.1.stride.toNat : Int) ∣ loop.1.end_.toNat - env loop.1.id :=
    Int.dvd_sub (Int.natCast_dvd_natCast.mpr divides) aligned
  have := Int.le_of_dvd (by omega) gap
  omega

/-- Interval arithmetic is sound. -/
theorem BinOpKind.mem_range {kind : BinOpKind} {L R range : NonemptyInterval Int} {a b : Int}
    (known : kind.range L R = some range) (memA : a ∈ L) (memB : b ∈ R) :
    kind.onInt a b ∈ range := by
  cases kind with
  | mul =>
    cases known
    refine Interval.mem_corners (fun y => ?_) (fun x => ?_) memA memB
    · cases le_total 0 y with
      | inl nonneg => exact .inl fun _ _ le => Int.mul_le_mul_of_nonneg_right le nonneg
      | inr nonpos => exact .inr fun _ _ le => Int.mul_le_mul_of_nonpos_right le nonpos
    · cases le_total 0 x with
      | inl nonneg => exact .inl fun _ _ le => Int.mul_le_mul_of_nonneg_left le nonneg
      | inr nonpos => exact .inr fun _ _ le => Int.mul_le_mul_of_nonpos_left nonpos le
  | add =>
    cases known
    exact Interval.mem_corners (fun y => .inl fun _ _ le => Int.add_le_add_right le y)
      (fun x => .inl fun _ _ le => Int.add_le_add_left le x) memA memB
  | sub =>
    cases known
    exact Interval.mem_corners (fun y => .inl fun _ _ le => Int.sub_le_sub_right le y)
      (fun x => .inr fun _ _ le => Int.sub_le_sub_left le x) memA memB
  | min => cases known; exact Interval.mem_map₂ _ _ memA memB
  | max => cases known; exact Interval.mem_map₂ _ _ memA memB
  | div => cases known
  | pow => cases known

theorem exactRange_sound [Field F] [LinearOrder F] {M : Machine F} {st : State F} {env : Env}
    {loops : LoopTable} (bounds : loops.Bounds env) {e : Expr F} {range : NonemptyInterval Int}
    (known : exactRange loops none e = some range) :
    ∃ v ∈ range, e.eval M st env 0 = .idx v := by
  induction e using Expr.inductTree generalizing range with
  | const val =>
    cases known
    exact ⟨val, NonemptyInterval.mem_pure_self val, rfl⟩
  | index loop type =>
    simp only [exactRange, Option.any_none, Bool.false_eq_true, if_false] at known
    obtain ⟨header, found, inside⟩ := Option.bind_eq_some_iff.mp known
    simp only [Loop.range] at inside
    split at inside
    · cases inside
      exact ⟨env loop, bounds loop header found, by simp [Expr.eval]⟩
    · cases inside
  | binary kind lhs rhs ihL ihR =>
    simp only [exactRange] at known
    obtain ⟨L, knownL, known⟩ := Option.bind_eq_some_iff.mp known
    obtain ⟨R, knownR, known⟩ := Option.bind_eq_some_iff.mp known
    obtain ⟨a, memA, evalA⟩ := ihL knownL
    obtain ⟨b, memB, evalB⟩ := ihR knownR
    refine ⟨kind.onInt a b, BinOpKind.mem_range known memA memB, ?_⟩
    rw [Expr.eval, evalA, evalB, Machine.binOp]
  | constFP | constString | unary | broadcast | gep | load | loadLocal => cases known

end Bistra
