import Mathlib.Data.List.Count
import Mathlib.Tactic.Common

/-! A record of what is taken and given back.

What is owed of a thing is how often it was taken less how often it was given back. A
record is settled when nothing is owed; each thing has then been given back as often as it
was taken (`Settled.count_give`). Records are put together from those of their parts
(`owed_append`).

Where things go from a stock to a holder and back, no step makes or loses one
(`Conserves`). Such steps can be put in a row, and what a holder has besides does not
matter to them. -/
namespace DxNpuDriver.Ledger

inductive Entry (R : Type*) where
  | take (r : R)
  | give (r : R)
  deriving DecidableEq

abbrev Log (R : Type*) := List (Entry R)

section Owed
variable {R : Type*} [DecidableEq R]

def owed (log : Log R) (r : R) : Int := log.count (.take r) - log.count (.give r)

def Settled (log : Log R) : Prop := ∀ r, owed log r = 0

@[simp] theorem owed_nil (r : R) : owed [] r = 0 := rfl

@[simp] theorem owed_append (log rest : Log R) (r : R) :
    owed (log ++ rest) r = owed log r + owed rest r := by
  simp only [owed, List.count_append]
  omega

@[simp] theorem owed_take (s : R) (log : Log R) (r : R) :
    owed (.take s :: log) r = (if s = r then 1 else 0) + owed log r := by
  simp only [owed, List.count_cons, beq_iff_eq, Entry.take.injEq, reduceCtorEq, if_false]
  split <;> omega

@[simp] theorem owed_give (s : R) (log : Log R) (r : R) :
    owed (.give s :: log) r = owed log r - (if s = r then 1 else 0) := by
  simp only [owed, List.count_cons, beq_iff_eq, Entry.give.injEq, reduceCtorEq, if_false]
  split <;> omega

/-- What is taken as a whole and given back as a whole is not owed. -/
theorem owed_map_give {α : Type*} (f : α → R) (as : List α) (r : R) :
    owed (as.map fun a => .give (f a)) r = - owed (as.map fun a => .take (f a)) r := by
  induction as with
  | nil => rfl
  | cons a as ih =>
    simp only [List.map_cons, owed_give, owed_take, ih]
    omega

theorem settled_nil : Settled ([] : Log R) := fun _ => rfl

theorem Settled.count_give {log : Log R} (h : Settled log) (r : R) :
    log.count (.give r) = log.count (.take r) := by
  have := h r
  simp only [owed] at this
  omega

end Owed

/-! ### Stock and holder -/

section Conserves
variable {R : Type*} [DecidableEq R] {stock stock' stock'' : R → Int} {held held' held'' : List R}

/-- What the stock has and what is held come to the same, thing by thing. -/
def Conserves (stock : R → Int) (held : List R) (stock' : R → Int) (held' : List R) : Prop :=
  ∀ r, stock' r + held'.count r = stock r + held.count r

theorem Conserves.refl (stock : R → Int) (held : List R) : Conserves stock held stock held :=
  fun _ => rfl

theorem Conserves.trans (h : Conserves stock held stock' held')
    (h' : Conserves stock' held' stock'' held'') : Conserves stock held stock'' held'' :=
  fun r => (h' r).trans (h r)

theorem Conserves.frame (h : Conserves stock held stock' held') (rest : List R) :
    Conserves stock (held ++ rest) stock' (held' ++ rest) := by
  intro r
  have := h r
  simp only [List.count_append]
  omega

theorem Conserves.perm {kept : List R} (h : Conserves stock held stock' held')
    (hp : held'.Perm kept) : Conserves stock held stock' kept := by
  intro r
  rw [← hp.count_eq]
  exact h r

end Conserves

end DxNpuDriver.Ledger
