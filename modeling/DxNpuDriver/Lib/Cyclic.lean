import Mathlib.Algebra.Ring.Nat
import Mathlib.Data.List.Range
import Mathlib.Tactic.Common

/-! Windows on a cyclic array.

An array of `size` slots is used round and round. A window is a run of slots from `start`
on, past the end back to the beginning; what it holds is a queue: the slot behind it takes
the next element, its first slot gives the oldest. Nothing here depends on where the
positions start to count, so a free-running index and one that is kept below `size` are
the same. -/
namespace DxNpuDriver.Cyclic

/-- The `n` slots from `start` on. -/
def window (size start n : Nat) : List Nat := (List.range n).map fun k => (start + k) % size

section Window
variable {size start n : Nat}

@[simp] theorem window_zero : window size start 0 = [] := rfl

@[simp] theorem length_window : (window size start n).length = n := by simp [window]

theorem window_succ :
    window size start (n + 1) = window size start n ++ [(start + n) % size] := by
  simp [window, List.range_succ]

theorem window_cons :
    window size start (n + 1) = start % size :: window size (start + 1) n := by
  simp only [window, List.range_succ_eq_map, List.map_cons, List.map_map, Nat.add_zero,
    List.cons.injEq, true_and]
  refine List.map_congr_left fun k _ => ?_
  simp only [Function.comp_apply, Nat.succ_eq_add_one]
  rw [Nat.add_assoc, Nat.add_comm 1 k]

theorem window_mod : window size (start % size) n = window size start n := by
  simp only [window, Nat.mod_add_mod]

theorem lt_of_mem_window (hsize : 0 < size) {i : Nat} (hi : i ∈ window size start n) : i < size := by
  obtain ⟨k, -, rfl⟩ := List.mem_map.mp hi
  exact Nat.mod_lt _ hsize

/-- Two positions less than a round apart are different slots. -/
theorem slot_ne {i j : Nat} (hij : i < j) (hj : j < i + size) : i % size ≠ j % size := by
  intro h
  have hdvd : size ∣ j - i :=
    Nat.dvd_of_mod_eq_zero (Nat.sub_mod_eq_zero_of_mod_eq h.symm)
  have := Nat.le_of_dvd (by omega) hdvd
  omega

/-- The slot behind a window that leaves room is not in it. -/
theorem slot_notMem_window (hn : n < size) : (start + n) % size ∉ window size start n := by
  intro h
  obtain ⟨k, hk, heq⟩ := List.mem_map.mp h
  have hk := List.mem_range.mp hk
  exact slot_ne (by omega) (by omega) heq

end Window

/-- What the slots of a window hold, oldest first. -/
def contents {α : Type*} (slots : Nat → α) (size start n : Nat) : List α :=
  (window size start n).map slots

section Contents
variable {α : Type*} {slots : Nat → α} {size start n : Nat}

@[simp] theorem contents_zero : contents slots size start 0 = [] := rfl

@[simp] theorem length_contents : (contents slots size start n).length = n := by simp [contents]

theorem contents_mod : contents slots size (start % size) n = contents slots size start n := by
  simp only [contents, window_mod]

/-- The first slot gives the oldest. -/
theorem contents_cons :
    contents slots size start (n + 1) =
      slots (start % size) :: contents slots size (start + 1) n := by
  simp only [contents, window_cons, List.map_cons]

theorem contents_succ :
    contents slots size start (n + 1) =
      contents slots size start n ++ [slots ((start + n) % size)] := by
  simp only [contents, window_succ, List.map_append, List.map_cons, List.map_nil]

/-- A slot outside the window does not matter. -/
theorem contents_congr {slots' : Nat → α} (h : ∀ i ∈ window size start n, slots' i = slots i) :
    contents slots' size start n = contents slots size start n :=
  List.map_congr_left h

/-- The slot behind the window takes the next. -/
theorem contents_push (hn : n < size) (a : α) :
    contents (Function.update slots ((start + n) % size) a) size start (n + 1) =
      contents slots size start n ++ [a] := by
  rw [contents_succ, Function.update_self]
  congr 1
  refine contents_congr fun i hi => Function.update_of_ne ?_ _ _
  rintro rfl
  exact slot_notMem_window hn hi

end Contents

end DxNpuDriver.Cyclic
