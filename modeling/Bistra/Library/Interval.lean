import Mathlib.Algebra.GroupWithZero.Nat
import Mathlib.Order.Interval.Basic
import Mathlib.Order.Interval.Finset.Basic
import Mathlib.Order.Interval.Finset.Nat
import Mathlib.Order.MinMax

/-! # Images of intervals under binary operations

An operation that is monotone or antitone in each argument takes its extreme values over a
pair of intervals at the corners.  The tuples over a list of intervals are a box.
-/

namespace Interval

variable {α : Type*} [LinearOrder α]

/-- The interval spanned by the values of `f` at the four corners. -/
def corners (f : α → α → α) (s t : NonemptyInterval α) : NonemptyInterval α where
  fst := min (min (f s.fst t.fst) (f s.fst t.snd)) (min (f s.snd t.fst) (f s.snd t.snd))
  snd := max (max (f s.fst t.fst) (f s.fst t.snd)) (max (f s.snd t.fst) (f s.snd t.snd))
  fst_le_snd := (min_le_left _ _).trans ((min_le_left _ _).trans
    ((le_max_left _ _).trans (le_max_left _ _)))

/-- Between two arguments a monotone or antitone function stays between its two values. -/
theorem between {g : α → α} (turns : Monotone g ∨ Antitone g) {a b x : α} (lower : a ≤ x)
    (upper : x ≤ b) : min (g a) (g b) ≤ g x ∧ g x ≤ max (g a) (g b) := by
  cases turns with
  | inl mono => exact ⟨(min_le_left _ _).trans (mono lower), (mono upper).trans (le_max_right _ _)⟩
  | inr anti => exact ⟨(min_le_right _ _).trans (anti upper), (anti lower).trans (le_max_left _ _)⟩

theorem mem_corners {f : α → α → α} (left : ∀ y, Monotone (fun x => f x y) ∨ Antitone (fun x => f x y))
    (right : ∀ x, Monotone (f x) ∨ Antitone (f x)) {s t : NonemptyInterval α} {x y : α}
    (memX : x ∈ s) (memY : y ∈ t) : f x y ∈ corners f s t := by
  -- First `y` moves to an end of `t`, then `x` moves to an end of `s`.
  obtain ⟨belowX, aboveX⟩ := between (left y) memX.1 memX.2
  obtain ⟨low1, high1⟩ := between (right s.fst) memY.1 memY.2
  obtain ⟨low2, high2⟩ := between (right s.snd) memY.1 memY.2
  exact ⟨(min_le_min low1 low2).trans belowX, aboveX.trans (max_le_max high1 high2)⟩

theorem corners_of_le {f : α → α → α} {s t : NonemptyInterval α}
    (low : f s.fst t.fst ≤ f s.snd t.fst) (high : f s.fst t.snd ≤ f s.snd t.snd)
    (lower : f s.fst t.fst ≤ f s.fst t.snd) (upper : f s.snd t.fst ≤ f s.snd t.snd) :
    (corners f s t).fst = f s.fst t.fst ∧ (corners f s t).snd = f s.snd t.snd := by
  simp only [corners, min_eq_left lower, min_eq_left upper, min_eq_left low, max_eq_right lower,
    max_eq_right upper, max_eq_right high, and_self]

theorem mem_map₂ {f : α → α → α} (left : ∀ y, Monotone fun x => f x y) (right : ∀ x, Monotone (f x))
    {s t : NonemptyInterval α} {x y : α} (memX : x ∈ s) (memY : y ∈ t) :
    f x y ∈ NonemptyInterval.map₂ f left right s t :=
  ⟨(left _ memX.1).trans (right _ memY.1), (left _ memX.2).trans (right _ memY.2)⟩

/-! ## Boxes -/

section Box

variable [LocallyFiniteOrder α]

/-- The tuples with one member of every interval. -/
def box : List (NonemptyInterval α) → Finset (List α)
  | [] => {[]}
  | s :: rest => (Finset.Icc s.fst s.snd ×ˢ box rest).map
      ⟨fun p => p.1 :: p.2, fun _ _ same => Prod.ext (List.cons.inj same).1 (List.cons.inj same).2⟩

theorem mem_box {t : List α} {l : List (NonemptyInterval α)} :
    t ∈ box l ↔ List.Forall₂ (· ∈ ·) t l := by
  induction l generalizing t with
  | nil => simp [box]
  | cons s rest ih =>
    simp only [box, Finset.mem_map, Finset.mem_product, Finset.mem_Icc, ih, Prod.exists]
    constructor
    · rintro ⟨x, xs, ⟨memX, memXs⟩, rfl⟩
      exact .cons memX memXs
    · rintro (_ | ⟨memX, memXs⟩)
      exact ⟨_, _, ⟨memX, memXs⟩, rfl⟩

end Box

/-! ## Packing -/

section Packing

variable {β ι : Type*}

theorem sum_card_le {l : List ι} {f : ι → Finset β} {s : Finset β}
    (disjoint : l.Pairwise fun i j => Disjoint (f i) (f j)) (inside : ∀ i ∈ l, f i ⊆ s) :
    (l.map fun i => (f i).card).sum ≤ s.card := by
  classical
  induction disjoint generalizing s with
  | nil => exact Nat.zero_le _
  | @cons i l apart _ ih =>
    have room := Finset.card_sdiff_add_card_eq_card (inside i List.mem_cons_self)
    have others := ih (s := s \ f i) fun j mem => Finset.subset_sdiff.mpr
      ⟨inside j (List.mem_cons_of_mem _ mem), (apart j mem).symm⟩
    rw [List.map_cons, List.sum_cons]
    omega

theorem sum_length_le {l : List (ℕ × ℕ)} {n : ℕ}
    (disjoint : l.Pairwise fun r s => Disjoint (Finset.Ico r.1 (r.1 + r.2)) (Finset.Ico s.1 (s.1 + s.2)))
    (inside : ∀ r ∈ l, r.1 + r.2 ≤ n) : (l.map (·.2)).sum ≤ n := by
  have packed := sum_card_le (f := fun r : ℕ × ℕ => Finset.Ico r.1 (r.1 + r.2))
    (s := Finset.range n) disjoint fun r mem x inRange => by
      have := Finset.mem_Ico.mp inRange
      have := inside r mem
      exact Finset.mem_range.mpr (by omega)
  simpa using packed

end Packing

end Interval
