import Mathlib.Algebra.Ring.Nat
import Mathlib.Data.List.Range
import Mathlib.Tactic.Common

/-! Copies between two address spaces, unit by unit.

A copy is a list of pairs: where each unit comes from and where it goes. `span` is a
contiguous piece, `layout` are pieces that lie anywhere on the one side and one after
the other on the other side. Two copies with the same list move the same units to the
same places in the same order, however they are cut. -/
namespace DxNpuDriver.Extent

/-- `n` consecutive units from `a` on the one side and from `b` on the other. -/
def span (a b n : Nat) : List (Nat × Nat) := (List.range n).map fun i => (a + i, b + i)

/-- Two pieces that touch on both sides are one. -/
theorem span_add (a b m n : Nat) : span a b (m + n) = span a b m ++ span (a + m) (b + m) n := by
  simp only [span, List.range_add, List.map_append, List.map_map]
  congr 1
  refine List.map_congr_left fun i _ => ?_
  simp only [Function.comp_apply, Nat.add_assoc]

section Layout
variable {α : Type*} (addr len : α → Nat)

/-- The length of the pieces together. -/
def total (ps : List α) : Nat := (ps.map len).sum

/-- The pieces, each where it lies, placed one after the other from `b`. -/
def layout : Nat → List α → List (Nat × Nat)
  | _, [] => []
  | b, p :: ps => span (addr p) b (len p) ++ layout (b + len p) ps

@[simp] theorem total_nil : total len [] = 0 := rfl

@[simp] theorem total_cons (p : α) (ps : List α) : total len (p :: ps) = len p + total len ps := by
  simp only [total, List.map_cons, List.sum_cons]

@[simp] theorem total_append (ps qs : List α) :
    total len (ps ++ qs) = total len ps + total len qs := by
  simp only [total, List.map_append, List.sum_append]

theorem layout_append (b : Nat) (ps qs : List α) :
    layout addr len b (ps ++ qs) = layout addr len b ps ++ layout addr len (b + total len ps) qs := by
  induction ps generalizing b with
  | nil => simp only [List.nil_append, layout, total_nil, Nat.add_zero]
  | cons p ps ih =>
    simp only [List.cons_append, layout, ih, total_cons, List.append_assoc, Nat.add_assoc]

end Layout

end DxNpuDriver.Extent
