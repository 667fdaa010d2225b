import Mathlib.Algebra.Ring.Nat
import Mathlib.Tactic.Common

/-! A memory of bytes, and 32-bit words in it.

Words are little-endian and may stand anywhere; a word is its four bytes and nothing else,
so that what is written beside it leaves it as it is, and what is written over a part of it
does not. -/
namespace DxNpuDriver

/-- A memory, byte by byte. -/
abbrev Bytes := Nat → UInt8

namespace Bytes

/-- The word at `a`. -/
def word (m : Bytes) (a : Nat) : Nat :=
  (m a).toNat + 2 ^ 8 * (m (a + 1)).toNat + 2 ^ 16 * (m (a + 2)).toNat + 2 ^ 24 * (m (a + 3)).toNat

/-- `n` bytes of `src` from `a` on. -/
def copy (m : Bytes) (a n : Nat) (src : Bytes) : Bytes :=
  fun b => if a ≤ b ∧ b < a + n then src (b - a) else m b

/-- The word at `a` is `v`, of which the memory keeps 32 bits. -/
def setWord (m : Bytes) (a v : Nat) : Bytes := m.copy a 4 fun i => UInt8.ofNat (v / 2 ^ (8 * i))

variable {m m' src : Bytes} {a b n v : Nat}

theorem word_lt (m : Bytes) (a : Nat) : word m a < 2 ^ 32 := by
  have h0 := (m a).toNat_lt
  have h1 := (m (a + 1)).toNat_lt
  have h2 := (m (a + 2)).toNat_lt
  have h3 := (m (a + 3)).toNat_lt
  unfold word
  omega

theorem word_congr (h : ∀ b, a ≤ b → b < a + 4 → m' b = m b) : word m' a = word m a := by
  unfold word
  rw [h a (Nat.le_refl _) (by omega), h (a + 1) (by omega) (by omega),
    h (a + 2) (by omega) (by omega), h (a + 3) (by omega) (by omega)]

theorem copy_inside (ha : a ≤ b) (hb : b < a + n) : m.copy a n src b = src (b - a) :=
  if_pos ⟨ha, hb⟩

theorem copy_outside (h : b < a ∨ a + n ≤ b) : m.copy a n src b = m b := if_neg (by omega)

/-- A word beside the copy. -/
theorem word_copy (h : b + 4 ≤ a ∨ a + n ≤ b) : (m.copy a n src).word b = m.word b :=
  word_congr fun c hc hc' => copy_outside (by omega)

/-- A word within the copy. -/
theorem word_copy_inside (ha : a ≤ b) (hb : b + 4 ≤ a + n) :
    (m.copy a n src).word b = src.word (b - a) := by
  unfold word
  rw [copy_inside ha (by omega), copy_inside (by omega) (by omega),
    copy_inside (by omega) (by omega), copy_inside (by omega) (by omega),
    Nat.sub_add_comm ha, Nat.sub_add_comm ha, Nat.sub_add_comm ha]

theorem setWord_outside (h : b < a ∨ a + 4 ≤ b) : m.setWord a v b = m b := copy_outside h

/-- A word beside the one that is set. -/
theorem word_setWord_of_ne (h : b + 4 ≤ a ∨ a + 4 ≤ b) : (m.setWord a v).word b = m.word b :=
  word_copy h

theorem word_setWord (m : Bytes) (a v : Nat) : (m.setWord a v).word a = v % 2 ^ 32 := by
  have hbyte : ∀ i < 4, m.setWord a v (a + i) = UInt8.ofNat (v / 2 ^ (8 * i)) := by
    intro i hi
    rw [setWord, copy_inside (by omega) (by omega), Nat.add_sub_cancel_left]
  have h0 := hbyte 0 (by omega)
  rw [Nat.add_zero] at h0
  unfold word
  rw [h0, hbyte 1 (by omega), hbyte 2 (by omega), hbyte 3 (by omega)]
  simp only [UInt8.toNat_ofNat', Nat.mul_zero, Nat.pow_zero, Nat.div_one]
  omega

/-- Where a word is set, its bytes are those of the word that was read. -/
theorem setWord_word {i : Nat} (hi : i < 4) : m.setWord a (src.word b) (a + i) = src (b + i) := by
  have h0 := (src b).toNat_lt
  have h1 := (src (b + 1)).toNat_lt
  have h2 := (src (b + 2)).toNat_lt
  have h3 := (src (b + 3)).toNat_lt
  rw [setWord, copy_inside (by omega) (by omega), Nat.add_sub_cancel_left, ← UInt8.toNat_inj,
    UInt8.toNat_ofNat', word]
  have hcases : i = 0 ∨ i = 1 ∨ i = 2 ∨ i = 3 := by omega
  obtain rfl | rfl | rfl | rfl := hcases <;>
    simp only [Nat.reduceMul, Nat.reducePow, Nat.div_one, Nat.add_zero] <;> omega

/-- `m'` is `m` with the `n` bytes of `src` from `b` on at `a`, and nothing else changed. -/
structure Moved (src : Bytes) (b : Nat) (m : Bytes) (a n : Nat) (m' : Bytes) : Prop where
  inside : ∀ i < n, m' (a + i) = src (b + i)
  outside : ∀ c, c < a ∨ a + n ≤ c → m' c = m c

theorem Moved.nil (src : Bytes) (b : Nat) (m : Bytes) (a : Nat) : Moved src b m a 0 m := by
  constructor
  · intro i hi
    cases hi
  · intro c hc
    rfl

/-- A move that goes on where one has ended. -/
theorem Moved.append {k : Nat} {m'' : Bytes} (h : Moved src b m a n m')
    (h' : Moved src (b + n) m' (a + n) k m'') : Moved src b m a (n + k) m'' := by
  constructor
  · intro i hi
    by_cases hlt : i < n
    · rw [h'.outside _ (by omega), h.inside i hlt]
    · have hmoved := h'.inside (i - n) (by omega)
      rwa [show a + n + (i - n) = a + i by omega, show b + n + (i - n) = b + i by omega] at hmoved
  · intro c hc
    rw [h'.outside c (by omega), h.outside c (by omega)]

/-- What is moved on through a memory between comes from where it came from. -/
theorem Moved.trans {s t : Bytes} {c : Nat} (h : Moved src b s c n t)
    (h' : Moved t c m a n m') : Moved src b m a n m' := by
  constructor
  · intro i hi
    rw [h'.inside i hi, h.inside i hi]
  · exact h'.outside

theorem Moved.byte (src : Bytes) (b : Nat) (m : Bytes) (a : Nat) :
    Moved src b m a 1 (Function.update m a (src b)) := by
  constructor
  · intro i hi
    obtain rfl : i = 0 := by omega
    exact Function.update_self a (src b) m
  · intro c hc
    have hne : c ≠ a := by omega
    exact Function.update_of_ne hne (src b) m

theorem Moved.word (src : Bytes) (b : Nat) (m : Bytes) (a : Nat) :
    Moved src b m a 4 (m.setWord a (src.word b)) := by
  constructor
  · intro i hi
    exact setWord_word hi
  · intro c hc
    exact setWord_outside hc

theorem Moved.copy (src : Bytes) (b : Nat) (m : Bytes) (a n : Nat) :
    Moved src b m a n (m.copy a n fun i => src (b + i)) := by
  constructor
  · intro i hi
    rw [copy_inside (by omega) (by omega), Nat.add_sub_cancel_left]
  · intro c hc
    exact copy_outside hc

end Bytes

end DxNpuDriver
