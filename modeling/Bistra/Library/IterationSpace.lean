import Mathlib.Data.List.Basic
import Mathlib.Tactic.Ring

/-! # Strided iteration spaces

The list `0, stride, 2 * stride, ...` of the multiples of a stride below a bound, and the
ways to cut it: at a multiple of the stride, into blocks, and into groups of consecutive
members.
-/

namespace IterationSpace

/-- The multiples of `stride` below `bound`, in increasing order. -/
def strided (bound stride : Nat) : List Nat :=
  (List.range ((bound + stride - 1) / stride)).map (· * stride)

theorem lt_count_iff {bound stride k : Nat} (positive : 0 < stride) :
    k < (bound + stride - 1) / stride ↔ k * stride < bound := by
  have next : (k + 1) * stride = k * stride + stride := by ring
  have count : k + 1 ≤ (bound + stride - 1) / stride ↔ (k + 1) * stride ≤ bound + stride - 1 :=
    Nat.le_div_iff_mul_le positive
  exact count.trans (by omega)

theorem mem_strided {bound stride n : Nat} (positive : 0 < stride) :
    n ∈ strided bound stride ↔ n < bound ∧ stride ∣ n := by
  simp only [strided, List.mem_map, List.mem_range, lt_count_iff positive]
  constructor
  · intro member
    obtain ⟨k, below, same⟩ := member
    exact ⟨same ▸ below, Dvd.intro_left k same⟩
  · intro member
    obtain ⟨below, k, same⟩ := member
    exact ⟨k, by rwa [Nat.mul_comm, ← same], by rw [same, Nat.mul_comm]⟩

theorem pairwise_strided {bound stride : Nat} (positive : 0 < stride) :
    (strided bound stride).Pairwise (· < ·) := by
  refine List.Pairwise.map _ ?_ List.pairwise_lt_range
  intro a b less
  exact Nat.mul_lt_mul_of_pos_right less positive

theorem nodup_strided {bound stride : Nat} (positive : 0 < stride) :
    (strided bound stride).Nodup :=
  (pairwise_strided positive).imp fun less => Nat.ne_of_lt less

@[simp] theorem strided_zero (stride : Nat) : strided 0 stride = [] := by
  rcases Nat.eq_zero_or_pos stride with rfl | positive
  · rfl
  · simp only [strided, List.map_eq_nil_iff, List.range_eq_nil]
    exact Nat.div_eq_of_lt (by omega)

theorem strided_one (bound : Nat) : strided bound 1 = List.range bound := by
  simp [strided]

theorem strided_mul {count stride : Nat} (positive : 0 < stride) :
    strided (count * stride) stride = (List.range count).map (· * stride) := by
  have : (count * stride + stride - 1) / stride = count := by
    rw [show count * stride + stride - 1 = stride - 1 + count * stride by omega,
      Nat.add_mul_div_right _ _ positive, Nat.div_eq_of_lt (by omega), Nat.zero_add]
  rw [strided, this]

theorem strided_self {stride : Nat} (positive : 0 < stride) : strided stride stride = [0] := by
  simpa using @strided_mul 1 stride positive

theorem strided_ne_nil {bound stride : Nat} (positive : 0 < stride) (nonempty : 0 < bound) :
    strided bound stride ≠ [] := by
  intro empty
  have : 0 ∈ strided bound stride := (mem_strided positive).mpr ⟨nonempty, dvd_zero stride⟩
  simp [empty] at this

/-- Two strictly increasing lists with the same members are equal; a space is determined by
its members. -/
theorem eq_strided {bound stride : Nat} (positive : 0 < stride) {l : List Nat}
    (sorted : l.Pairwise (· < ·)) (members : ∀ n, n ∈ l ↔ n < bound ∧ stride ∣ n) :
    l = strided bound stride := by
  refine @List.Perm.eq_of_pairwise _ (· < ·) _ _ ?_ sorted (pairwise_strided positive) ?_
  · intro a b _ _ less greater
    omega
  · refine (List.perm_ext_iff_of_nodup (sorted.imp Nat.ne_of_lt) (nodup_strided positive)).mpr ?_
    intro n
    rw [members, mem_strided positive]

/-- **Peeling.**  A space cut at a multiple of the stride. -/
theorem strided_split {bound stride cut : Nat} (positive : 0 < stride) (aligned : stride ∣ cut)
    (inside : cut ≤ bound) :
    strided bound stride =
      strided cut stride ++ (strided (bound - cut) stride).map (cut + ·) := by
  symm
  apply eq_strided positive
  · rw [List.pairwise_append]
    refine ⟨pairwise_strided positive, ?_, ?_⟩
    · exact List.Pairwise.map _ (fun a b less => by omega) (pairwise_strided positive)
    · intro a memA b memB
      obtain ⟨b, memB, rfl⟩ := List.mem_map.mp memB
      have := ((mem_strided positive).mp memA).1
      omega
  · intro n
    simp only [List.mem_append, List.mem_map, mem_strided positive]
    constructor
    · rintro (⟨below, divides⟩ | ⟨m, ⟨below, divides⟩, rfl⟩)
      · exact ⟨by omega, divides⟩
      · exact ⟨by omega, (Nat.dvd_add_right aligned).mpr divides⟩
    · rintro ⟨below, divides⟩
      by_cases first : n < cut
      · exact .inl ⟨first, divides⟩
      · refine .inr ⟨n - cut, ⟨by omega, ?_⟩, by omega⟩
        exact (Nat.dvd_sub divides aligned)

/-- **Blocking.**  A space cut into blocks: the members of block `i` are the members of the
block space shifted by `i * block` that are still below the bound. -/
theorem strided_blocks {bound stride block count : Nat} (positive : 0 < stride)
    (aligned : stride ∣ block) (nonempty : 0 < block) (covers : bound ≤ count * block) :
    strided bound stride =
      (List.range count).flatMap fun i =>
        ((strided block stride).map fun j => j + i * block).filter (· < bound) := by
  symm
  apply eq_strided positive
  · rw [List.pairwise_flatMap]
    refine ⟨?_, ?_⟩
    -- Inside a block the members are strided; from one block to the next they grow.
    · intro i _
      refine List.Pairwise.filter _ (List.Pairwise.map _ ?_ (pairwise_strided positive))
      intro a b less
      omega
    · refine List.pairwise_lt_range.imp ?_
      intro i i' less a memA b memB
      simp only [List.mem_filter, List.mem_map, mem_strided positive, decide_eq_true_eq] at memA memB
      obtain ⟨⟨j, ⟨belowJ, -⟩, rfl⟩, -⟩ := memA
      obtain ⟨⟨j', -, rfl⟩, -⟩ := memB
      have : (i + 1) * block ≤ i' * block := Nat.mul_le_mul_right _ less
      have : (i + 1) * block = i * block + block := by ring
      omega
  · intro n
    simp only [List.mem_flatMap, List.mem_range, List.mem_filter, List.mem_map,
      mem_strided positive, decide_eq_true_eq]
    constructor
    · rintro ⟨i, -, ⟨j, ⟨-, divides⟩, rfl⟩, below⟩
      exact ⟨below, (Nat.dvd_add_right divides).mpr (Dvd.dvd.mul_left aligned i)⟩
    · rintro ⟨below, divides⟩
      -- A member is its place in the block, and the number of the block times its size.
      have split : n % block + n / block * block = n := Nat.mod_add_div' n block
      refine ⟨n / block, ?_, ⟨n % block, ⟨Nat.mod_lt _ nonempty, ?_⟩, split⟩, below⟩
      · rw [Nat.div_lt_iff_lt_mul nonempty]
        omega
      · exact (Nat.dvd_mod_iff aligned).mpr divides

/-- **Grouping.**  When a multiple of the stride divides the bound, the space is the space of
the wider stride with every member followed by its group. -/
theorem strided_groups {count stride factor : Nat} (positive : 0 < stride)
    (nonempty : 0 < factor) :
    strided (count * (stride * factor)) stride =
      (strided (count * (stride * factor)) (stride * factor)).flatMap fun n =>
        (List.range factor).map fun k => n + k * stride := by
  have widePositive : 0 < stride * factor := Nat.mul_pos positive nonempty
  rw [strided_blocks positive (Dvd.intro factor rfl) widePositive (le_refl _),
    strided_mul widePositive, List.flatMap_map]
  refine List.flatMap_congr ?_
  intro i memI
  have groups : strided (stride * factor) stride = (List.range factor).map (· * stride) := by
    rw [Nat.mul_comm stride factor]
    exact strided_mul positive
  rw [groups, List.map_map, List.filter_eq_self.mpr]
  · exact List.map_congr_left fun k _ => Nat.add_comm _ _
  · intro n memN
    simp only [List.mem_map, List.mem_range, Function.comp] at memN memI ⊢
    obtain ⟨k, below, rfl⟩ := memN
    have inside : k * stride < factor * stride := Nat.mul_lt_mul_of_pos_right below positive
    have : (i + 1) * (stride * factor) ≤ count * (stride * factor) :=
      Nat.mul_le_mul_right _ memI
    have : (i + 1) * (stride * factor) = i * (stride * factor) + factor * stride := by ring
    simp only [decide_eq_true_eq]
    omega

end IterationSpace
