import DxNpuDriver.Lib.Window
import DxNpuDriver.Rt.Readiness
import Mathlib.Algebra.Order.Ring.Nat

/-! The failure window of `perm_fail_check` (`dxrt_drv_recovery.c`).

PERM_FAIL is meant for a device that has failed `perm_fail_max_retries` times within a
"sliding window". The check keeps the start of a window and a count: the first failure
after the window has run out begins the next one, and those before it are forgotten,
however recent they are. A device that fails four times at the end of one window and once
at the beginning of the next has failed five times in a row and goes on.

`admissible_whole_iff_slides` says in which histories that makes no difference. -/
namespace DxNpuDriver.Rt.FailureWindow
open Recovery (DevState)
open Readiness (failures)

/-- The module parameters, and the ticks of a second. -/
structure Params where
  permFailWindowMs : Nat
  permFailMaxRetries : Nat
  hz : Nat

/-- `msecs_to_jiffies` rounds up; what is negative as an int stands for no limit. -/
def msecsToJiffies (hz m : Nat) : Nat :=
  if 2 ^ 31 ≤ m then 2 ^ 62 - 2 else (m * hz + 999) / 1000

def Params.window (p : Params) : Nat := msecsToJiffies p.hz p.permFailWindowMs

/-- `time_after`: `jiffies` has 64 bits and does not come round. -/
def timeAfter (a b : Nat) : Bool := decide (b < a)

/-- The words of a device that a failure writes. -/
structure Device where
  devState : DevState
  recovering : Bool
  permFailWindowStart : Nat
  permFailCountInWindow : Nat
  deriving DecidableEq

/-- `dxrt_recovery_state_init`. -/
def Device.init (jiffies : Nat) : Device := ⟨.ready, false, jiffies, 0⟩

/-- `perm_fail_check`, at `now`. -/
def permFailCheck (p : Params) (now : Nat) (dev : Device) : Device × Bool :=
  let dev :=
    if timeAfter now (dev.permFailWindowStart + p.window) then
      {dev with permFailWindowStart := now, permFailCountInWindow := 0}
    else dev
  let dev := {dev with permFailCountInWindow := (dev.permFailCountInWindow + 1) % 2 ^ 32}
  if p.permFailMaxRetries ≤ dev.permFailCountInWindow then
    ({dev with devState := .permFail}, true)
  else (dev, false)

/-- `fw_hang` in `dxrt_recovery_ready_work_fn`, the end of a run that fails. -/
def fwHang (p : Params) (now : Nat) (dev : Device) : Device × Bool :=
  permFailCheck p now {dev with devState := .fwHang, recovering := false}

/-- The count is the one the readiness worker compares. -/
theorem permFailCheck_failures (p : Params) (now : Nat) (dev : Device) (m : Readiness.Shared)
    (h : m.permFailCountInWindow = dev.permFailCountInWindow) :
    (permFailCheck p now dev).1.permFailCountInWindow =
      failures m (timeAfter now (dev.permFailWindowStart + p.window)) := by
  simp only [permFailCheck, failures, h]
  split <;> split <;> rfl

/-! ### Histories -/

structure State where
  dev : Device
  jiffies : Nat
  deriving DecidableEq

/-- A failure, `elapsed` ticks after the last one. -/
def step (p : Params) (s : State) (elapsed : Nat) : Option State :=
  some ⟨(fwHang p (s.jiffies + elapsed) s.dev).1, s.jiffies + elapsed⟩

/-- The failures, in the window that counts them. -/
def note (p : Params) (s : State) (elapsed : Nat) (w : Window Nat) : Window Nat :=
  (w.roll p.window (s.jiffies + elapsed)).count (s.jiffies + elapsed)

def watchedStep (p : Params) : State × Window Nat → Nat → Option (State × Window Nat) :=
  Machine.watched (step p) (note p)

def watchedInitial (jiffies : Nat) : State × Window Nat :=
  (⟨.init jiffies, jiffies⟩, .opened jiffies)

/-- The failures of the last `perm_fail_window_ms`, counting one that comes now. -/
def lately (p : Params) (s : State × Window Nat) (elapsed : Nat) : Nat :=
  Window.recent p.window (s.1.jiffies + elapsed) ((s.1.jiffies + elapsed) :: s.2.events)

/-- The check answers, and enters PERM_FAIL, as a sliding window would. -/
structure Slides (p : Params) (s : State × Window Nat) (elapsed : Nat) : Prop where
  returns : (fwHang p (s.1.jiffies + elapsed) s.1.dev).2 = true ↔
    p.permFailMaxRetries ≤ lately p s elapsed
  enters : (fwHang p (s.1.jiffies + elapsed) s.1.dev).1.devState = .permFail ↔
    p.permFailMaxRetries ≤ lately p s elapsed

/-- The failures that the last start of the window has dropped, but that are not yet older
than its width, do not make up a number the counted ones fall short of; and those counted
fit into the counter. -/
def Whole (p : Params) (s : State × Window Nat) (elapsed : Nat) : Prop :=
  let w := note p s.1 elapsed s.2
  (w.counted.length + w.carried p.window (s.1.jiffies + elapsed) < p.permFailMaxRetries ∨
    p.permFailMaxRetries ≤ w.counted.length) ∧
  w.counted.length < 2 ^ 32

instance (p : Params) (s : State × Window Nat) (elapsed : Nat) : Decidable (Whole p s elapsed) :=
  inferInstanceAs (Decidable ((_ ∨ _) ∧ _))

/-- The words of the device stand for the window. -/
structure Kept (s : State × Window Nat) : Prop where
  dated : s.2.Dated s.1.jiffies
  start : s.1.dev.permFailWindowStart = s.2.start
  count : s.1.dev.permFailCountInWindow = s.2.counted.length
  small : s.2.counted.length < 2 ^ 32

theorem watchedInitial_kept (jiffies : Nat) : Kept (watchedInitial jiffies) :=
  ⟨Window.opened_dated jiffies, rfl, rfl, Nat.two_pow_pos 32⟩

/-- What a failure leaves in the words, and what it answers. -/
theorem fwHang_words {p : Params} {s : State × Window Nat} (inv : Kept s) (elapsed : Nat) :
    let w := note p s.1 elapsed s.2
    let r := fwHang p (s.1.jiffies + elapsed) s.1.dev
    r.1.permFailWindowStart = w.start ∧
    r.1.permFailCountInWindow = w.counted.length % 2 ^ 32 ∧
    (r.2 = true ↔ p.permFailMaxRetries ≤ w.counted.length % 2 ^ 32) ∧
    (r.1.devState = .permFail ↔ r.2 = true) := by
  have hstart := inv.start
  have hcount := inv.count
  simp only [fwHang, permFailCheck, note, Window.roll, timeAfter, hstart, hcount,
    decide_eq_true_eq]
  by_cases hout : s.2.start + p.window < s.1.jiffies + elapsed
  · simp only [if_pos hout]
    split <;> simp_all
  · simp only [if_neg hout]
    split <;> simp_all

/-- What the check has counted are failures of the last `perm_fail_window_ms`. -/
theorem lately_eq {p : Params} {s : State × Window Nat} (inv : Kept s) (elapsed : Nat) :
    lately p s elapsed = (note p s.1 elapsed s.2).counted.length +
      (note p s.1 elapsed s.2).carried p.window (s.1.jiffies + elapsed) := by
  have dated := inv.dated.later (Nat.le_add_right _ elapsed)
  have hrecent := Window.recent_events (Nat.zero_le p.window) dated
  have hnow : Window.recent p.window (s.1.jiffies + elapsed)
      ((s.1.jiffies + elapsed) :: s.2.events) =
        Window.recent p.window (s.1.jiffies + elapsed) s.2.events + 1 :=
    List.countP_cons_of_pos (decide_eq_true (Nat.le_add_right _ _))
  rw [lately, hnow]
  rw [Window.events_roll] at hrecent
  rw [hrecent]
  exact Nat.add_right_comm _ _ 1

/-- PERM_FAIL is never entered too early. -/
theorem lately_of_returns {p : Params} {s : State × Window Nat} (inv : Kept s) (elapsed : Nat)
    (h : (fwHang p (s.1.jiffies + elapsed) s.1.dev).2 = true) :
    p.permFailMaxRetries ≤ lately p s elapsed := by
  obtain ⟨-, -, hret, -⟩ := fwHang_words (p := p) inv elapsed
  rw [lately_eq inv]
  have := Nat.mod_le (note p s.1 elapsed s.2).counted.length (2 ^ 32)
  exact le_trans (hret.mp h) (le_trans this (Nat.le_add_right _ _))

theorem step_kept {p : Params} (s : State × Window Nat) (elapsed : Nat) (t : State × Window Nat)
    (inv : Kept s) (rule : Whole p s elapsed) (h : watchedStep p s elapsed = some t) : Kept t := by
  obtain ⟨hstep, hnote⟩ := (Machine.watched_eq_some (step p) (note p)).mp h
  obtain ⟨t, w⟩ := t
  obtain ⟨hstart, hcount, -, -⟩ := fwHang_words (p := p) inv elapsed
  cases hstep
  cases hnote
  refine ⟨?_, hstart, hcount.trans (Nat.mod_eq_of_lt rule.2), rule.2⟩
  exact (inv.dated.later (Nat.le_add_right _ elapsed)).roll.count

/-- One failure is judged as by a sliding window exactly when its window is whole. -/
theorem whole_iff_slides {p : Params} (hretries : 1 ≤ p.permFailMaxRetries)
    (hword : p.permFailMaxRetries < 2 ^ 32) {s : State × Window Nat} (inv : Kept s)
    (elapsed : Nat) : Whole p s elapsed ↔ Slides p s elapsed := by
  obtain ⟨-, -, hret, hstate⟩ := fwHang_words (p := p) inv elapsed
  have hlately := lately_eq (p := p) inv elapsed
  have hsound := lately_of_returns (p := p) inv elapsed
  have hgrows : (note p s.1 elapsed s.2).counted.length ≤ 2 ^ 32 := by
    have := inv.small
    simp only [note, Window.counted_count, Window.roll, List.length_cons]
    split
    · exact Nat.one_le_two_pow
    · exact this
  constructor
  · rintro ⟨hmake, hsmall⟩
    have answer : (fwHang p (s.1.jiffies + elapsed) s.1.dev).2 = true ↔
        p.permFailMaxRetries ≤ lately p s elapsed := by
      refine ⟨hsound, fun hlate => hret.mpr ?_⟩
      rw [Nat.mod_eq_of_lt hsmall]
      omega
    exact ⟨answer, hstate.trans answer⟩
  · intro slides
    have answer := hret.symm.trans slides.returns
    have hsmall : (note p s.1 elapsed s.2).counted.length < 2 ^ 32 := by
      by_contra hfull
      -- the counter is back at zero, with more failures than any limit
      have hfull : (note p s.1 elapsed s.2).counted.length = 2 ^ 32 := by omega
      rw [hfull, Nat.mod_self] at answer
      omega
    rw [Nat.mod_eq_of_lt hsmall] at answer
    exact ⟨by omega, hsmall⟩

/-- The defaults, with a thousand ticks a second. -/
def Params.default : Params := ⟨60000, 5, 1000⟩

end DxNpuDriver.Rt.FailureWindow
