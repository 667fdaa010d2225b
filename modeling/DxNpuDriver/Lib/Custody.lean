import Mathlib.Algebra.BigOperators.Group.Finset.Basic
import Mathlib.Algebra.Ring.Nat
import Mathlib.Data.List.Count
import Mathlib.Data.List.Range

/-! Things in the custody of numbered keepers.

Each keeper has a list of things. `kept` counts how often a thing is kept by the first
keepers; what one keeper gives away or gets moves the count by as much (`kept_update`).
Where every number below a bound is counted at most once and no other at all, a list has at
most that many entries (`length_le_of_count`). -/
namespace DxNpuDriver.Custody

variable {α : Type*} [DecidableEq α]

/-- How often the keepers below `n` keep `a`. -/
def kept (keep : Nat → List α) (n : Nat) (a : α) : Nat := ∑ i ∈ Finset.range n, (keep i).count a

@[simp] theorem kept_zero (keep : Nat → List α) (a : α) : kept keep 0 a = 0 := rfl

theorem kept_succ (keep : Nat → List α) (n : Nat) (a : α) :
    kept keep (n + 1) a = kept keep n a + (keep n).count a := Finset.sum_range_succ _ _

theorem kept_congr {keep keep' : Nat → List α} {n : Nat} (h : ∀ i, i < n → keep' i = keep i)
    (a : α) : kept keep' n a = kept keep n a := by
  refine Finset.sum_congr rfl fun i hi => ?_
  rw [h i (Finset.mem_range.mp hi)]

/-- Where only one keeper's things differ, the counts differ by them. -/
theorem kept_update (keep keep' : Nat → List α) {n i : Nat} (hi : i < n)
    (h : ∀ j, j ≠ i → keep' j = keep j) (a : α) :
    kept keep' n a + (keep i).count a = kept keep n a + (keep' i).count a := by
  have hmem : i ∈ Finset.range n := Finset.mem_range.mpr hi
  have hrest : ∑ j ∈ (Finset.range n).erase i, (keep' j).count a =
      ∑ j ∈ (Finset.range n).erase i, (keep j).count a := by
    refine Finset.sum_congr rfl fun j hj => ?_
    rw [h j (Finset.ne_of_mem_erase hj)]
  simp only [kept]
  rw [← Finset.add_sum_erase _ _ hmem, ← Finset.add_sum_erase _ _ hmem, hrest]
  omega

theorem count_le_kept (keep : Nat → List α) {n i : Nat} (hi : i < n) (a : α) :
    (keep i).count a ≤ kept keep n a := by
  rw [kept, ← Finset.add_sum_erase _ _ (Finset.mem_range.mpr hi)]
  exact Nat.le_add_right _ _

theorem kept_eq_zero {keep : Nat → List α} {n : Nat} (h : ∀ i, i < n → keep i = []) (a : α) :
    kept keep n a = 0 := by
  refine Finset.sum_eq_zero fun i hi => ?_
  rw [h i (Finset.mem_range.mp hi), List.count_nil]

theorem not_mem_of_kept {keep : Nat → List α} {n i : Nat} {a : α} (h : kept keep n a = 0)
    (hi : i < n) : a ∉ keep i := by
  have hle := count_le_kept keep hi a
  rw [h] at hle
  exact List.count_eq_zero.mp (Nat.le_zero.mp hle)

/-- A thing that is kept once has one keeper. -/
theorem exists_keeper {keep : Nat → List α} {n : Nat} {a : α} (h : kept keep n a = 1) :
    ∃ i < n, (keep i).count a = 1 ∧ ∀ j < n, a ∈ keep j → j = i := by
  obtain ⟨i, hi, hpos⟩ : ∃ i ∈ Finset.range n, (keep i).count a ≠ 0 := by
    apply Finset.exists_ne_zero_of_sum_ne_zero
    rw [← kept, h]
    exact one_ne_zero
  rw [kept, ← Finset.add_sum_erase _ _ hi] at h
  have hothers : ∑ j ∈ (Finset.range n).erase i, (keep j).count a = 0 := by omega
  refine ⟨i, Finset.mem_range.mp hi, by omega, fun j hj hmem => ?_⟩
  by_contra hne
  have hzero := Finset.sum_eq_zero_iff.mp hothers j
    (Finset.mem_erase.mpr ⟨hne, Finset.mem_range.mpr hj⟩)
  exact List.count_eq_zero.mp hzero hmem

/-- Numbers below `size`, each at most once, are at most `size`. -/
theorem length_le_of_count {l : List Nat} {size : Nat}
    (h : ∀ b, l.count b ≤ if b < size then 1 else 0) : l.length ≤ size := by
  have hnodup : l.Nodup := by
    rw [List.nodup_iff_count_le_one]
    intro b
    exact Nat.le_trans (h b) (by split <;> omega)
  have hsub : l ⊆ List.range size := by
    intro b hb
    rw [List.mem_range]
    by_contra hge
    have := h b
    rw [if_neg hge] at this
    exact absurd (List.count_pos_iff.mpr hb) (by omega)
  simpa using (List.subperm_of_subset hnodup hsub).length_le

end DxNpuDriver.Custody
