import DxNpuDriver.Lib.Machine
import Mathlib.Logic.Function.Basic

/-! A word of several fields that is only read and written as a whole.

Who wants to set some bits reads the word, sets them in the copy and writes the copy back;
the bits of the others go back to what they were at the read. `asked` is what the word would
be if every edit had changed its own bits alone. `Fresh` is the rule under which it stays that
(`step_asked`), and the first step against the rule ends it (`step_lost`): nobody writes back
a copy whose other bits are out of date. -/
namespace DxNpuDriver.SharedWord

variable {n : Nat}

structure Edit (n : Nat) where
  mask : BitVec n
  value : BitVec n
  deriving DecidableEq

/-- The word with the bits under the mask set. -/
def Edit.on (e : Edit n) (w : BitVec n) : BitVec n := w &&& ~~~e.mask ||| e.value &&& e.mask

theorem Edit.getLsbD_on (e : Edit n) (w : BitVec n) (i : Nat) :
    (e.on w).getLsbD i = if e.mask.getLsbD i then e.value.getLsbD i else w.getLsbD i := by
  by_cases hi : i < n
  · rw [on, BitVec.getLsbD_or, BitVec.getLsbD_and, BitVec.getLsbD_and, BitVec.getLsbD_not]
    cases e.mask.getLsbD i <;> simp [hi]
  · simp [BitVec.getLsbD_of_ge _ _ (Nat.le_of_not_lt hi)]

/-- Its own bits are set. -/
theorem Edit.on_own (e : Edit n) (w : BitVec n) {m : BitVec n} (h : m &&& e.mask = m) :
    e.on w &&& m = e.value &&& m := by
  refine BitVec.eq_of_getLsbD_eq fun i _ => ?_
  have hm := congrArg (BitVec.getLsbD · i) h
  simp only [BitVec.getLsbD_and, e.getLsbD_on] at hm ⊢
  cases hi : e.mask.getLsbD i with
  | true => rw [if_pos rfl]
  | false =>
    rw [hi, Bool.and_false] at hm
    rw [← hm, Bool.and_false, Bool.and_false]

/-- The others stay. -/
theorem Edit.on_other (e : Edit n) (w : BitVec n) {m : BitVec n} (h : m &&& e.mask = 0) :
    e.on w &&& m = w &&& m := by
  refine BitVec.eq_of_getLsbD_eq fun i _ => ?_
  have hm := congrArg (BitVec.getLsbD · i) h
  simp only [BitVec.getLsbD_and, e.getLsbD_on] at hm ⊢
  cases hi : e.mask.getLsbD i with
  | false => rw [if_neg Bool.false_ne_true]
  | true =>
    rw [hi, Bool.and_true] at hm
    rw [hm]
    simp

/-- The word, what has been asked of it, and the edits whose copy has been read. -/
structure Word (n : Nat) (τ : Type*) where
  word : BitVec n
  asked : BitVec n
  held : τ → Option (Edit n × BitVec n)

inductive Label (n : Nat) (τ : Type*) where
  | read (t : τ) (e : Edit n)
  | write (t : τ)
  /-- All bits, without a read before. -/
  | store (v : BitVec n)

variable {τ : Type*}

/-- A copy that is written back has the bits of the others as they are. -/
def Fresh (s : Word n τ) : Label n τ → Prop
  | .read _ _ | .store _ => True
  | .write t => ∀ p ∈ s.held t, p.1.on p.2 = p.1.on s.word

instance decidableFresh (s : Word n τ) (a : Label n τ) : Decidable (Fresh s a) :=
  match a with
  | .read _ _ => isTrue trivial
  | .write t => inferInstanceAs (Decidable (∀ p ∈ s.held t, p.1.on p.2 = p.1.on s.word))
  | .store _ => isTrue trivial

/-- An edit begins, and a store is made, while no edit is under way. -/
def Alone (s : Word n τ) : Label n τ → Prop
  | .read _ _ | .store _ => ∀ t, s.held t = none
  | .write _ => True

/-- What is held is the word as it is, and one thread at most holds it. -/
def Single (s : Word n τ) : Prop :=
  (∀ t e copy, s.held t = some (e, copy) → copy = s.word) ∧
    ∀ t u, s.held t ≠ none → s.held u ≠ none → t = u

theorem fresh_of_single {s : Word n τ} {a : Label n τ} (hs : Single s) : Fresh s a := by
  cases a with
  | read u e => trivial
  | store v => trivial
  | write u =>
    rintro ⟨e, copy⟩ hheld
    rw [hs.1 u e copy hheld]

variable [DecidableEq τ]

def step (s : Word n τ) : Label n τ → Option (Word n τ)
  | .read t e =>
    match s.held t with
    | none => some {s with held := Function.update s.held t (some (e, s.word))}
    | some _ => none
  | .write t =>
    match s.held t with
    | none => none
    | some (e, copy) =>
      some ⟨e.on copy, e.on s.asked, Function.update s.held t none⟩
  | .store v => some {s with word := v, asked := v}

theorem step_asked {s t : Word n τ} {a : Label n τ} (hs : s.word = s.asked) (hrule : Fresh s a)
    (h : step s a = some t) : t.word = t.asked := by
  cases a with
  | read u e =>
    simp only [step] at h
    split at h
    · cases h
      exact hs
    · cases h
  | write u =>
    simp only [step] at h
    split at h
    · cases h
    · rename_i e copy hheld
      cases h
      show e.on copy = e.on s.asked
      rw [hrule (e, copy) hheld, hs]
  | store v =>
    cases h
    rfl

theorem step_lost {s : Word n τ} {a : Label n τ} (hs : s.word = s.asked) (hrule : ¬ Fresh s a) :
    ∃ t, step s a = some t ∧ t.word ≠ t.asked := by
  cases a with
  | read u e => exact absurd trivial hrule
  | store v => exact absurd trivial hrule
  | write u =>
    simp only [Fresh, not_forall] at hrule
    obtain ⟨⟨e, copy⟩, hheld, hne⟩ := hrule
    refine ⟨⟨e.on copy, e.on s.asked, Function.update s.held u none⟩, ?_, ?_⟩
    · simp only [step, Option.mem_def.mp hheld]
    · rw [← hs]
      exact hne

/-! ### One at a time -/

theorem step_single {s t : Word n τ} {a : Label n τ} (hs : Single s) (hrule : Alone s a)
    (h : step s a = some t) : Single t := by
  obtain ⟨hcopy, hone⟩ := hs
  cases a with
  | read u e =>
    simp only [step, hrule u, Option.some.injEq] at h
    subst h
    have hheld : ∀ v, Function.update s.held u (some (e, s.word)) v ≠ none → v = u := by
      intro v hv
      by_contra hne
      rw [Function.update_of_ne hne] at hv
      exact hv (hrule v)
    constructor
    · intro v e' copy hv
      obtain rfl := hheld v (Option.ne_none_iff_exists'.mpr ⟨_, hv⟩)
      have hself : some (e, s.word) = some (e', copy) :=
        (Function.update_self v (some (e, s.word)) s.held).symm.trans hv
      cases hself
      rfl
    · intro v w hv hw
      rw [hheld v hv, hheld w hw]
  | write u =>
    simp only [step] at h
    split at h
    · cases h
    · rename_i e copy hheld
      cases h
      have hnone : ∀ v, Function.update s.held u none v = none := by
        intro v
        by_cases hv : v = u
        · rw [hv, Function.update_self]
        · rw [Function.update_of_ne hv]
          by_contra hsome
          exact hv (hone v u hsome (by rw [hheld]; exact Option.some_ne_none _))
      constructor
      · intro v e' copy' hv
        cases (hnone v).symm.trans hv
      · intro v w hv
        exact absurd (hnone v) hv
  | store v =>
    cases h
    constructor
    · intro u e copy hu
      rw [hrule u] at hu
      cases hu
    · intro u w hu
      exact absurd (hrule u) hu

end DxNpuDriver.SharedWord
