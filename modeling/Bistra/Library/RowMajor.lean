import Mathlib.Algebra.BigOperators.Group.List.Basic
import Mathlib.Algebra.Order.Ring.Int
import Mathlib.Tactic.Linarith
import Mathlib.Tactic.Ring

/-! # Row-major order

The place of a tuple of subscripts in a box, when the last subscript varies fastest: the value of
the subscripts as digits in a system of mixed radices.
-/

namespace RowMajor

variable {dims xs ys : List ℤ}

/-- The place of the subscripts `xs` in a box with these dimensions. -/
def offset : List ℤ → List ℤ → ℤ
  | _ :: dims, x :: xs => x * dims.prod + offset dims xs
  | _, _ => 0

/-- Each subscript is inside its dimension. -/
def InBox (dims xs : List ℤ) : Prop := List.Forall₂ (fun x d => 0 ≤ x ∧ x < d) xs dims

theorem offset_nonneg (inBox : InBox dims xs) : 0 ≤ offset dims xs ∧ 0 < dims.prod := by
  induction inBox with
  | nil => exact ⟨le_refl _, one_pos⟩
  | @cons x d xs dims inside _ ih =>
    rw [offset, List.prod_cons]
    exact ⟨add_nonneg (mul_nonneg inside.1 ih.2.le) ih.1, mul_pos (by omega) ih.2⟩

theorem offset_lt (inBox : InBox dims xs) : offset dims xs < dims.prod := by
  induction inBox with
  | nil => exact one_pos
  | @cons x d xs dims inside inBox ih =>
    have positive := (offset_nonneg inBox).2
    calc x * dims.prod + offset dims xs < x * dims.prod + dims.prod := by omega
      _ = (x + 1) * dims.prod := by ring
      _ ≤ d * dims.prod := mul_le_mul_of_nonneg_right (by omega) positive.le
      _ = (d :: dims).prod := List.prod_cons.symm

/-- Different subscripts have different places. -/
theorem offset_injective (first : InBox dims xs) (second : InBox dims ys)
    (same : offset dims xs = offset dims ys) : xs = ys := by
  induction first generalizing ys with
  | nil => cases second; rfl
  | @cons x d xs dims inside inBox ih =>
    obtain _ | ⟨inside', inBox'⟩ := second
    rename_i y ys
    rw [offset, offset] at same
    have low := offset_nonneg inBox
    have low' := offset_nonneg inBox'
    have high := offset_lt inBox
    have high' := offset_lt inBox'
    -- The place in the rest of the box is the remainder.
    have front : x = y := by
      by_contra differ
      rcases lt_or_gt_of_ne differ with less | more
      · have := mul_le_mul_of_nonneg_right (show x + 1 ≤ y by omega) low.2.le
        linarith [add_mul x 1 dims.prod]
      · have := mul_le_mul_of_nonneg_right (show y + 1 ≤ x by omega) low.2.le
        linarith [add_mul y 1 dims.prod]
    rw [front] at same ⊢
    rw [ih inBox' (by omega)]

/-- The last subscript is the one that varies fastest. -/
theorem offset_concat (inBox : InBox dims xs) (d x : ℤ) :
    offset (dims ++ [d]) (xs ++ [x]) = offset dims xs * d + x := by
  induction inBox with
  | nil => simp [offset]
  | cons _ _ ih =>
    rw [List.cons_append, List.cons_append, offset, offset, ih, List.prod_append,
      List.prod_singleton]
    ring

end RowMajor
