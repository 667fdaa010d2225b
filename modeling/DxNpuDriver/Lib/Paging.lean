import Mathlib.Algebra.Order.Group.Nat
import Mathlib.Data.Finset.Image
import Mathlib.Data.List.Range
import Mathlib.Order.Interval.Finset.Nat

/-! Ranges of addresses cut along pages.

`f` maps the number of a page to where the page lies. A range that is cut is a list of pieces,
each in one page; but for the first they all begin where their page begins. -/
namespace DxNpuDriver.Paging

/-- `length` bytes of a page, from `offset` on. -/
structure Piece where
  page : Nat
  offset : Nat
  length : Nat

/-- Where the bytes of a piece lie. -/
def Piece.bytes (p : Piece) : List (Nat × Nat) :=
  (List.range p.length).map fun i => (p.page, p.offset + i)

section Pages
variable (P : Nat) (f : Nat → Nat)

/-- Where the `n` bytes from `b` on lie. -/
def bytes (b n : Nat) : List (Nat × Nat) :=
  (List.range n).map fun i => (f ((b + i) / P), (b + i) % P)

/-- The pages that the `n` bytes from `b` on touch. -/
def touched (b n : Nat) : Finset Nat := (Finset.Ico b (b + n)).image (· / P)

/-- Their number, by rounding. -/
def count (b n : Nat) : Nat := (b % P + n + P - 1) / P

/-- As many pieces as are asked for, each up to the end of its page or of the range. -/
def cut : Nat → Nat → Nat → List Piece
  | 0, _, _ => []
  | k + 1, b, n =>
    let m := min (P - b % P) n
    ⟨f (b / P), b % P, m⟩ :: cut k (b + m) (n - m)

/-- What they leave of it. -/
def rest : Nat → Nat → Nat → Nat
  | 0, _, n => n
  | k + 1, b, n => rest k (b + min (P - b % P) n) (n - min (P - b % P) n)

@[simp] theorem cut_length (k b n : Nat) : (cut P f k b n).length = k := by
  induction k generalizing b n with
  | zero => rfl
  | succ k ih => simp only [cut, List.length_cons, ih]

/-- The first piece begins with the range. -/
theorem cut_head (k b n : Nat) : ∀ p ∈ (cut P f k b n).head?, p.offset = b % P := by
  intro p hp
  cases k with
  | zero => cases hp
  | succ k =>
    cases hp
    rfl

theorem bytes_add (b m n : Nat) : bytes P f b (m + n) = bytes P f b m ++ bytes P f (b + m) n := by
  simp only [bytes, List.range_add, List.map_append, List.map_map]
  congr 1
  refine List.map_congr_left fun i _ => ?_
  simp only [Function.comp_apply, Nat.add_assoc]

variable {P f} {b n : Nat}

/-- Bytes of one page. -/
theorem bytes_piece {m : Nat} (hm : b % P + m ≤ P) :
    bytes P f b m = (Piece.mk (f (b / P)) (b % P) m).bytes := by
  refine List.map_congr_left fun i hi => ?_
  have hlt : b % P + i < P := by
    rw [List.mem_range] at hi
    omega
  have hsplit : b + i = b % P + i + P * (b / P) := by
    have := Nat.mod_add_div b P
    omega
  have hpos : 0 < P := by omega
  rw [hsplit, Nat.add_mul_div_left _ _ hpos, Nat.add_mul_mod_self_left, Nat.div_eq_of_lt hlt,
    Nat.mod_eq_of_lt hlt, Nat.zero_add]

/-- A range that ends in its first page. -/
theorem count_last (hn : 0 < n) (hin : b % P + n ≤ P) : count P b n = 1 := by
  have hsplit : b % P + n + P - 1 = b % P + n - 1 + P := by omega
  rw [count, hsplit, Nat.add_div_right _ (by omega), Nat.div_eq_of_lt (by omega)]

/-- A range that goes on beyond its first page goes on at the start of the next. -/
theorem next_page (hP : 0 < P) : b + (P - b % P) = P * (b / P + 1) := by
  have hlt := Nat.mod_lt b hP
  have := Nat.mod_add_div b P
  rw [Nat.mul_add, Nat.mul_one]
  omega

theorem count_next (hP : 0 < P) (hout : P < b % P + n) :
    count P b n = count P (b + (P - b % P)) (n - (P - b % P)) + 1 := by
  have hlt := Nat.mod_lt b hP
  have hsplit : b % P + n + P - 1 = 0 + (n - (P - b % P)) + P - 1 + P := by omega
  rw [count, count, next_page hP, Nat.mul_mod_right, hsplit, Nat.add_div_right _ hP]

/-- The pages touched are those from the first byte's to the last byte's. -/
theorem touched_eq (hP : 0 < P) (hn : 0 < n) :
    touched P b n = Finset.Icc (b / P) ((b + n - 1) / P) := by
  ext p
  rw [touched, Finset.mem_image, Finset.mem_Icc]
  constructor
  · rintro ⟨a, ha, rfl⟩
    rw [Finset.mem_Ico] at ha
    exact ⟨Nat.div_le_div_right ha.1, Nat.div_le_div_right (by omega)⟩
  · intro ⟨hlo, hhi⟩
    -- the page's first byte, or the range's
    refine ⟨max b (P * p), Finset.mem_Ico.mpr ⟨Nat.le_max_left _ _, ?_⟩, ?_⟩
    · have := (Nat.le_div_iff_mul_le hP).mp hhi
      rw [Nat.mul_comm] at this
      omega
    · have hpage : b < P * (p + 1) := by
        rw [Nat.mul_comm]
        exact (Nat.div_lt_iff_lt_mul hP).mp (by omega)
      apply Nat.div_eq_of_lt_le
      · rw [Nat.mul_comm]
        exact Nat.le_max_right _ _
      · have hlt : P * p < P * (p + 1) := Nat.mul_lt_mul_of_pos_left (by omega) hP
        rw [Nat.mul_comm (p + 1)]
        exact Nat.max_lt.mpr ⟨hpage, hlt⟩

/-- Rounding counts the pages that are touched. -/
theorem count_eq_card (hP : 0 < P) (hn : 0 < n) : count P b n = (touched P b n).card := by
  have hlast : (b + n - 1) / P = (b % P + n - 1) / P + b / P := by
    have hsplit : b + n - 1 = b % P + n - 1 + P * (b / P) := by
      have := Nat.mod_add_div b P
      omega
    rw [hsplit, Nat.add_mul_div_left _ _ hP]
  have hsplit : b % P + n + P - 1 = b % P + n - 1 + P := by omega
  rw [touched_eq hP hn, Nat.card_Icc, hlast, count, hsplit, Nat.add_div_right _ hP, Nat.succ_sub
    (Nat.le_add_left _ _), Nat.add_sub_cancel]

/-! ### Cutting a range -/

/-- As many pieces as a range has pages. -/
def Needed (P k b n : Nat) : Prop := k = if n = 0 then 0 else count P b n

theorem needed_count (hn : 0 < n) : Needed P (count P b n) b n := (if_neg (by omega)).symm

theorem Needed.empty (hP : 0 < P) (h : Needed P 0 b n) : n = 0 := by
  by_contra hn
  rw [Needed, if_neg hn, count, eq_comm, Nat.div_eq_zero_iff] at h
  omega

theorem Needed.pos {k : Nat} (h : Needed P (k + 1) b n) : 0 < n := by
  by_contra hn
  rw [Needed, if_pos (by omega)] at h
  cases h

/-- After a piece, as many are needed as are to come, and they begin with a page. -/
theorem Needed.next {k : Nat} (hP : 0 < P) (h : Needed P (k + 1) b n) :
    Needed P k (b + min (P - b % P) n) (n - min (P - b % P) n) ∧
      (0 < k → b + min (P - b % P) n = P * (b / P + 1)) := by
  have hn := h.pos
  have hlt := Nat.mod_lt b hP
  rw [Needed, if_neg (by omega)] at h
  by_cases hin : b % P + n ≤ P
  · rw [count_last hn hin] at h
    constructor
    · rw [Needed, if_pos (by omega)]
      omega
    · omega
  · rw [count_next hP (by omega)] at h
    rw [Nat.min_eq_left (by omega)]
    constructor
    · rw [Needed, if_neg (by omega)]
      omega
    · intro hk
      exact next_page hP

theorem Needed.next_aligned {k : Nat} (hP : 0 < P) (h : Needed P (k + 1) b n) (hk : 0 < k) :
    (b + min (P - b % P) n) % P = 0 := by
  rw [(h.next hP).2 hk, Nat.mul_mod_right]

/-- As many pieces as are needed are the whole range. -/
theorem Needed.bytes {k : Nat} (hP : 0 < P) (h : Needed P k b n) :
    (cut P f k b n).flatMap Piece.bytes = bytes P f b n ∧ rest P k b n = 0 := by
  induction k generalizing b n with
  | zero =>
    obtain rfl := h.empty hP
    exact ⟨rfl, rfl⟩
  | succ k ih =>
    have hlt := Nat.mod_lt b hP
    obtain ⟨hbytes, hrest⟩ := ih (h.next hP).1
    refine ⟨?_, hrest⟩
    have hsplit : n = min (P - b % P) n + (n - min (P - b % P) n) := by omega
    have hadd := bytes_add P f b (min (P - b % P) n) (n - min (P - b % P) n)
    have hle : b % P + min (P - b % P) n ≤ P := by omega
    rw [← hsplit] at hadd
    rw [cut, List.flatMap_cons, hbytes, hadd, bytes_piece hle]

/-- None of them is empty, and each stays in its page. -/
theorem Needed.within {k : Nat} (hP : 0 < P) (h : Needed P k b n) :
    ∀ p ∈ cut P f k b n, 0 < p.length ∧ p.offset + p.length ≤ P := by
  induction k generalizing b n with
  | zero =>
    intro p hp
    cases hp
  | succ k ih =>
    have hn := h.pos
    have hlt := Nat.mod_lt b hP
    intro p hp
    rcases List.mem_cons.mp hp with rfl | hp
    · exact ⟨by dsimp only; omega, by dsimp only; omega⟩
    · exact ih (h.next hP).1 p hp

/-- They begin where their pages begin, if the range does. -/
theorem Needed.aligned {k : Nat} (hP : 0 < P) (h : Needed P k b n) (hb : 0 < k → b % P = 0) :
    ∀ p ∈ cut P f k b n, p.offset = 0 := by
  induction k generalizing b n with
  | zero =>
    intro p hp
    cases hp
  | succ k ih =>
    intro p hp
    rcases List.mem_cons.mp hp with rfl | hp
    · exact hb (Nat.succ_pos k)
    · exact ih (h.next hP).1 (h.next_aligned hP) p hp

/-- All but the first do anyway. -/
theorem Needed.tail {k : Nat} (hP : 0 < P) (h : Needed P k b n) :
    ∀ p ∈ (cut P f k b n).tail, p.offset = 0 := by
  cases k with
  | zero =>
    intro p hp
    cases hp
  | succ k => exact (h.next hP).1.aligned hP (h.next_aligned hP)

end Pages

end DxNpuDriver.Paging
