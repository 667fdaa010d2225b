import DxNpuDriver.Lib.Machine
import Mathlib.Data.List.Basic
import Mathlib.Tactic.Common

/-! Programs of atomic accesses.

A thread of a concurrent program is what it has still to do: a tree of accesses, each
followed by one continuation per answer. An `Access` names the accesses and the answers
they can have; what an access does to the shared state is left to the machine that runs
the threads.

Four questions are asked of such a tree: whether it can reach an access (`may`), whether it
reaches one in any case (`must`), whether every access in it is followed as it should be
(`every`), and whether what it returns is settled (`always`). What the first three answer
survives the steps that the thread takes. All of them compute, so that they are settled for a
given program by evaluation. A program with a long loop is too large for that: what a
record of its accesses comes to (`wp`) is derived from its parts, and a part that only makes
accesses which the record does not see leaves it as it is (`Only.wp`). -/
namespace DxNpuDriver

/-- The accesses a program can make, and the finitely many answers of each. -/
structure Access where
  Op : Type
  Val : Op → Type
  values : ∀ o, List (Val o)
  complete : ∀ o (v : Val o), v ∈ values o

/-- What a thread has still to do. -/
inductive Prog (A : Access) (α : Type) where
  | ret (a : α)
  | op (o : A.Op) (k : A.Val o → Prog A α)

namespace Prog
variable {A : Access} {α β : Type}

protected def bind : Prog A α → (α → Prog A β) → Prog A β
  | .ret a, f => f a
  | .op o k, f => .op o fun v => (k v).bind f

instance : Monad (Prog A) where
  pure := .ret
  bind := Prog.bind

/-- One access, as a program that returns its answer. -/
def call (o : A.Op) : Prog A (A.Val o) := .op o .ret

/-- The program has returned. -/
def done : Prog A α → Bool
  | .ret _ => true
  | .op _ _ => false

/-- The next access. -/
def head : Prog A α → Option A.Op
  | .ret _ => none
  | .op o _ => some o

/-! ### Can it come to that -/

section May
variable (seen : ∀ o, A.Val o → Bool) (stop target : A.Op → Bool)

/-- Some path of answers as in `seen` leads to a target, with no `stop` before it. -/
def may : Prog A α → Bool
  | .ret _ => false
  | .op o k => target o || (!stop o && (A.values o).any fun v => seen o v && (k v).may)

variable {seen stop target}

theorem target_of_may_eq_false {o : A.Op} {k : A.Val o → Prog A α}
    (h : (Prog.op o k).may seen stop target = false) : target o = false := by
  simp only [may, Bool.or_eq_false_iff] at h
  exact h.1

/-- What cannot be reached stays out of reach, unless a stop is passed or an answer comes
that was not foreseen. -/
theorem may_next {o : A.Op} {k : A.Val o → Prog A α}
    (h : (Prog.op o k).may seen stop target = false) (hstop : stop o = false) {v : A.Val o}
    (hv : seen o v = true) : (k v).may seen stop target = false := by
  simp only [may, Bool.or_eq_false_iff, hstop, Bool.not_false, Bool.true_and,
    List.any_eq_false, Bool.and_eq_true, not_and, Bool.not_eq_true] at h
  exact h.2 v (A.complete o v) hv

end May

/-! ### Does it come to that in any case -/

section Must
variable (target : A.Op → Bool)

/-- Every path of answers leads to a target. -/
def must : Prog A α → Bool
  | .ret _ => false
  | .op o k => target o || (A.values o).all fun v => (k v).must

variable {target}

theorem must_next {o : A.Op} {k : A.Val o → Prog A α} (h : (Prog.op o k).must target = true)
    (ho : target o = false) (v : A.Val o) : (k v).must target = true := by
  simp only [must, ho, Bool.false_or, List.all_eq_true] at h
  exact h v (A.complete o v)

theorem not_done_of_must {p : Prog A α} (h : p.must target = true) : p.done = false := by
  cases p with
  | ret a => cases h
  | op o k => rfl

end Must

/-! ### Is every access followed as it should be -/

section Every
variable (fits : ∀ o, A.Val o → Prog A α → Bool)

/-- After each access of the program, with each answer, what remains fits. -/
def every : Prog A α → Bool
  | .ret _ => true
  | .op o k => (A.values o).all fun v => fits o v (k v) && (k v).every

variable {fits}

theorem every_next {o : A.Op} {k : A.Val o → Prog A α} (h : (Prog.op o k).every fits = true)
    (v : A.Val o) : fits o v (k v) = true ∧ (k v).every fits = true := by
  simp only [every, List.all_eq_true, Bool.and_eq_true] at h
  exact h v (A.complete o v)

end Every

/-! ### Is the outcome settled -/

section Always
variable (good : α → Bool)

/-- Every path of answers returns something good. -/
def always : Prog A α → Bool
  | .ret a => good a
  | .op o k => (A.values o).all fun v => (k v).always

end Always

/-! ### What a record of the accesses comes to -/

section Record
variable {σ : Type} (track : σ → ∀ o, A.Val o → σ)

/-- On every path of answers, what is returned and the record kept from `s` on meet `post`. -/
def wp : Prog A α → (α → σ → Prop) → σ → Prop
  | .ret a, post, s => post a s
  | .op o k, post, s => ∀ v, (k v).wp post (track s o v)

variable {track} {s : σ}

@[simp] theorem wp_pure (a : α) (post : α → σ → Prop) :
    (pure a : Prog A α).wp track post s = post a s := rfl

@[simp] theorem wp_call (o : A.Op) (post : A.Val o → σ → Prop) :
    (call o).wp track post s = ∀ v, post v (track s o v) := rfl

@[simp] theorem wp_bind (p : Prog A α) (f : α → Prog A β) (post : β → σ → Prop) :
    (p >>= f).wp track post s = p.wp track (fun a => (f a).wp track post) s := by
  induction p generalizing s with
  | ret a => rfl
  | op o k ih =>
    refine forall_congr fun v => ?_
    exact ih v

@[simp] theorem wp_ite {c : Prop} [Decidable c] (p q : Prog A α) (post : α → σ → Prop) :
    (if c then p else q).wp track post s = if c then p.wp track post s else q.wp track post s := by
  split <;> rfl

/-- What every access keeps of the record holds of it in the end. -/
theorem wp_of_kept {inv : σ → Prop} (keeps : ∀ s o v, inv s → inv (track s o v)) {p : Prog A α}
    {post : α → σ → Prop} (hinv : inv s) (hpost : ∀ a s, inv s → post a s) : p.wp track post s := by
  induction p generalizing s with
  | ret a => exact hpost a s hinv
  | op o _ ih => exact fun v => ih v (keeps s o v hinv)

/-- A record that only grows has grown to one that is met in the end. -/
theorem exists_of_wp {le : σ → σ → Prop} (refl : ∀ s, le s s)
    (trans : ∀ s t u, le s t → le t u → le s u) (grows : ∀ s o v, le s (track s o v))
    (answers : ∀ o, Nonempty (A.Val o)) {p : Prog A α} {post : α → σ → Prop}
    (h : p.wp track post s) : ∃ a t, le s t ∧ post a t := by
  induction p generalizing s with
  | ret a => exact ⟨a, s, refl s, h⟩
  | op o k ih =>
    obtain ⟨v⟩ := answers o
    obtain ⟨a, t, hle, hpost⟩ := ih v (h v)
    exact ⟨a, t, trans _ _ _ (grows s o v) hle, hpost⟩

end Record

/-! ### Are all its accesses of one kind -/

section Only
variable {ok : A.Op → Prop}

/-- Every access that the program can make is of the kind. -/
def Only (ok : A.Op → Prop) : Prog A α → Prop
  | .ret _ => True
  | .op o k => ok o ∧ ∀ v, (k v).Only ok

theorem only_pure (a : α) : (pure a : Prog A α).Only ok := trivial

theorem only_call {o : A.Op} (h : ok o) : (call o).Only ok := ⟨h, fun _ => trivial⟩

theorem Only.bind {p : Prog A α} {f : α → Prog A β} (h : p.Only ok) (k : ∀ a, (f a).Only ok) :
    (p >>= f).Only ok := by
  induction p with
  | ret a => exact k a
  | op o _ ih => exact ⟨h.1, fun v => ih v (h.2 v)⟩

theorem only_ite {c : Prop} [Decidable c] {p q : Prog A α} (h : p.Only ok) (k : q.Only ok) :
    (if c then p else q).Only ok := by
  split
  · exact h
  · exact k

/-- A program of accesses that the record does not see leaves it as it is. -/
theorem Only.wp {σ : Type} {track : σ → ∀ o, A.Val o → σ} {p : Prog A α} (h : p.Only ok)
    (unseen : ∀ o, ok o → ∀ s v, track s o v = s) {s : σ} {post : α → σ → Prop}
    (hpost : ∀ a, post a s) : p.wp track post s := by
  induction p with
  | ret a => exact hpost a
  | op o _ ih =>
    intro v
    rw [unseen o h.1 s v]
    exact ih v (h.2 v)

end Only

end Prog

end DxNpuDriver
