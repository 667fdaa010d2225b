import DxNpuDriver.Lib.Machine
import DxNpuDriver.Lib.Window
import Mathlib.Algebra.Order.Ring.Nat

/-! The rate limit of the transport recovery (`dx_link_health.c`).

`dx_dma_recovery_rate_ok` is to prevent a "recovery storm: max DX_RECOVERY_MAX_IN_WINDOW
recoveries within DX_RECOVERY_WINDOW_SECS". It counts the attempts of a window that starts
over as soon as it has run out, with nothing left of the count: ten recoveries at the end
of one window and ten at the beginning of the next pass.

`admissible_joined_iff_limited` says in which histories the limit holds of every interval. -/
namespace DxNpuDriver.Pcie.RateLimit

/-- `DX_RECOVERY_WINDOW_SECS`, in ticks. -/
def recoveryWindow (hz : Nat) : Nat := 60 * hz

/-- `DX_RECOVERY_MAX_IN_WINDOW`. -/
def recoveryMaxInWindow : Nat := 10

/-- `DX_RECOVERY_COOLDOWN_SECS`, in ticks. -/
def recoveryCooldown (hz : Nat) : Nat := 10 * hz

/-- The words of `struct dw_edma` that limit the rate. -/
structure Edma where
  recoveryWindowStart : Nat
  recoveryCountInWindow : Nat
  lastRecoveryJiffies : Nat
  rateLimitCooldownUntil : Nat
  deriving DecidableEq

/-- `dx_link_health_init`. -/
def Edma.init (jiffies : Nat) : Edma := ⟨jiffies, 0, 0, 0⟩

/-- `dx_dma_recovery_rate_ok`: the window starts over when `time_after` finds it run out. -/
def recoveryRateOk (hz now : Nat) (dw : Edma) : Edma × Bool :=
  let dw :=
    if dw.recoveryWindowStart + recoveryWindow hz < now then
      {dw with recoveryWindowStart := now, recoveryCountInWindow := 0}
    else dw
  (dw, decide (dw.recoveryCountInWindow < recoveryMaxInWindow))

/-- `dx_dma_recovery_rate_record_attempt`. -/
def recoveryRateRecordAttempt (now : Nat) (dw : Edma) : Edma :=
  {dw with lastRecoveryJiffies := now, recoveryCountInWindow := dw.recoveryCountInWindow + 1}

/-- What a run of the work item comes upon: the ticks since the last run, what
`dx_dma_background_recovery_blocked` answers at its three places, and the link. -/
structure Run where
  elapsed : Nat
  blocked : Bool
  linkDown : Bool
  blockedAfterRate : Bool
  blockedAfterRecord : Bool
  deriving DecidableEq

/-- `dx_dma_recovery_work_fn`, and whether it calls `dx_dma_full_reinit`. -/
def recoveryWorkFn (hz now : Nat) (r : Run) (dw : Edma) : Edma × Bool :=
  if r.blocked then (dw, false)
  else if r.linkDown then (dw, false)
  else
    let (dw, ok) := recoveryRateOk hz now dw
    if !ok then ({dw with rateLimitCooldownUntil := now + recoveryCooldown hz}, false)
    else if r.blockedAfterRate then (dw, false)
    else
      let dw := recoveryRateRecordAttempt now dw
      if r.blockedAfterRecord then (dw, false) else (dw, true)

/-! ### Histories -/

structure State where
  dw : Edma
  jiffies : Nat
  deriving DecidableEq

def step (hz : Nat) (s : State) (r : Run) : Option State :=
  some ⟨(recoveryWorkFn hz (s.jiffies + r.elapsed) r s.dw).1, s.jiffies + r.elapsed⟩

/-- The run asks for the rate. -/
def Run.asks (r : Run) : Bool := !r.blocked && !r.linkDown

/-- Nobody but the rate limit keeps the run from its reinit. -/
def Run.free (r : Run) : Bool := r.asks && !r.blockedAfterRate && !r.blockedAfterRecord

/-- The reinits, in the window of the rate limit. -/
def note (hz : Nat) (s : State) (r : Run) (w : Window Nat) : Window Nat :=
  let now := s.jiffies + r.elapsed
  let w := if r.asks then w.roll (recoveryWindow hz) now else w
  if (recoveryWorkFn hz now r s.dw).2 then w.count now else w

def watchedStep (hz : Nat) : State × Window Nat → Run → Option (State × Window Nat) :=
  Machine.watched (step hz) (note hz)

def watchedInitial (jiffies : Nat) : State × Window Nat :=
  (⟨.init jiffies, jiffies⟩, .opened jiffies)

/-- No interval of `DX_RECOVERY_WINDOW_SECS` holds more than `DX_RECOVERY_MAX_IN_WINDOW`
reinits. -/
def Limited (hz : Nat) (s : State × Window Nat) : Prop :=
  ∀ x, Window.within (recoveryWindow hz) x s.2.events ≤ recoveryMaxInWindow

/-- A run that nobody else keeps from its reinit finds, when the rate is still good, fewer
than `DX_RECOVERY_MAX_IN_WINDOW` reinits in its window and among those that the last start
of the window has dropped, as far as they are not older than its width. -/
def Joined (hz : Nat) (s : State × Window Nat) (r : Run) : Prop :=
  let now := s.1.jiffies + r.elapsed
  let w := s.2.roll (recoveryWindow hz) now
  r.free = true → (recoveryRateOk hz now s.1.dw).2 = true →
    w.counted.length + w.carried (recoveryWindow hz) now < recoveryMaxInWindow

instance (hz : Nat) (s : State × Window Nat) (r : Run) : Decidable (Joined hz s r) :=
  inferInstanceAs (Decidable (_ → _ → _))

/-! ### What the words stand for -/

/-- The words stand for the window; an attempt need not have come to its reinit. -/
structure Kept (s : State × Window Nat) : Prop where
  dated : s.2.Dated s.1.jiffies
  sorted : s.2.events.Pairwise (· ≥ ·)
  start : s.1.dw.recoveryWindowStart = s.2.start
  counted : s.2.counted.length ≤ s.1.dw.recoveryCountInWindow
  limit : s.1.dw.recoveryCountInWindow ≤ recoveryMaxInWindow

theorem watchedInitial_kept (jiffies : Nat) : Kept (watchedInitial jiffies) :=
  ⟨Window.opened_dated jiffies, .nil, rfl, le_rfl, Nat.zero_le _⟩

/-- The reinits of the window are no more than the attempts, before and after it is looked
at. -/
theorem recoveryRateOk_words (hz : Nat) {s : State × Window Nat} (inv : Kept s) (now : Nat) :
    let w := s.2.roll (recoveryWindow hz) now
    let r := recoveryRateOk hz now s.1.dw
    r.1.recoveryWindowStart = w.start ∧ w.counted.length ≤ r.1.recoveryCountInWindow ∧
    r.1.recoveryCountInWindow ≤ recoveryMaxInWindow ∧
    (r.2 = true → r.1.recoveryCountInWindow < recoveryMaxInWindow) := by
  simp only [recoveryRateOk, Window.roll, inv.start, decide_eq_true_eq]
  split
  · exact ⟨rfl, le_rfl, Nat.zero_le _, id⟩
  · exact ⟨inv.start, inv.counted, inv.limit, id⟩

/-- How a run ends: it does not ask; it is refused, or stopped before the attempt; it is
stopped after the attempt; it calls the reinit. -/
inductive Ran (hz now : Nat) (r : Run) (dw : Edma) : Edma × Bool → Prop
  | blocked (h : r.asks = false) : Ran hz now r dw (dw, false)
  | refused (h : r.asks = true) (hok : (recoveryRateOk hz now dw).2 = false) :
      Ran hz now r dw ({(recoveryRateOk hz now dw).1 with
        rateLimitCooldownUntil := now + recoveryCooldown hz}, false)
  | stopped (h : r.asks = true) (hfree : r.free = false) :
      Ran hz now r dw ((recoveryRateOk hz now dw).1, false)
  | attempted (h : r.asks = true) (hfree : r.free = false)
      (hok : (recoveryRateOk hz now dw).2 = true) :
      Ran hz now r dw (recoveryRateRecordAttempt now (recoveryRateOk hz now dw).1, false)
  | called (h : r.asks = true) (hfree : r.free = true)
      (hok : (recoveryRateOk hz now dw).2 = true) :
      Ran hz now r dw (recoveryRateRecordAttempt now (recoveryRateOk hz now dw).1, true)

theorem recoveryWorkFn_ran (hz now : Nat) (r : Run) (dw : Edma) :
    Ran hz now r dw (recoveryWorkFn hz now r dw) := by
  unfold recoveryWorkFn
  split
  · exact .blocked (by simp [Run.asks, *])
  · split
    · exact .blocked (by simp [Run.asks, *])
    · have asks : r.asks = true := by simp [Run.asks, *]
      simp only
      split
      · exact .refused asks (by simp_all)
      · have ok : (recoveryRateOk hz now dw).2 = true := by simp_all
        split
        · exact .stopped asks (by simp [Run.free, *])
        · split
          · exact .attempted asks (by simp [Run.free, *]) ok
          · exact .called asks (by simp [Run.free, *]) ok

/-- What a run does to the history: the window is looked at or not, and the reinit, if it
comes to that, is counted. -/
theorem note_eq {hz : Nat} {s : State} {r : Run} {out : Edma × Bool}
    (h : recoveryWorkFn hz (s.jiffies + r.elapsed) r s.dw = out) (w : Window Nat) :
    note hz s r w =
      let now := s.jiffies + r.elapsed
      let w := if r.asks then w.roll (recoveryWindow hz) now else w
      if out.2 then w.count now else w := by
  rw [← h]
  rfl

theorem step_kept {hz : Nat} (s : State × Window Nat) (r : Run) (t : State × Window Nat)
    (inv : Kept s) (h : watchedStep hz s r = some t) : Kept t := by
  obtain ⟨hstep, hnote⟩ := (Machine.watched_eq_some (step hz) (note hz)).mp h
  obtain ⟨t, v⟩ := t
  have dated := inv.dated.later (Nat.le_add_right s.1.jiffies r.elapsed)
  obtain ⟨hstart, hcounted, hlimit, hok⟩ :=
    recoveryRateOk_words hz inv (s.1.jiffies + r.elapsed)
  have hevents : (s.2.roll (recoveryWindow hz) (s.1.jiffies + r.elapsed)).events.Pairwise
      (· ≥ ·) := by
    rw [Window.events_roll]
    exact inv.sorted
  have hran := recoveryWorkFn_ran hz (s.1.jiffies + r.elapsed) r s.1.dw
  rw [note_eq rfl] at hnote
  simp only [step, Option.some.injEq] at hstep
  subst hstep
  dsimp only at hnote
  subst hnote
  revert hran
  generalize recoveryWorkFn hz (s.1.jiffies + r.elapsed) r s.1.dw = out
  intro hran
  cases hran with
  | blocked asks =>
    simp only [asks]
    exact ⟨dated, inv.sorted, inv.start, inv.counted, inv.limit⟩
  | refused asks _ | stopped asks _ =>
    simp only [asks]
    exact ⟨dated.roll, hevents, hstart, hcounted, hlimit⟩
  | attempted asks _ ok =>
    simp only [asks]
    exact ⟨dated.roll, hevents, hstart, Nat.le_succ_of_le hcounted, hok ok⟩
  | called asks _ ok =>
    simp only [asks]
    refine ⟨dated.roll.count, ?_, hstart, Nat.succ_le_succ hcounted, hok ok⟩
    exact List.pairwise_cons.mpr ⟨dated.roll.past, hevents⟩

/-! ### The limit -/

/-- A reinit that is counted ends a stretch of as many as its window and the dropped ones
make. -/
theorem recent_called (hz : Nat) {s : State × Window Nat} (inv : Kept s) (elapsed : Nat) :
    let now := s.1.jiffies + elapsed
    let w := s.2.roll (recoveryWindow hz) now
    Window.recent (recoveryWindow hz) now (now :: s.2.events) =
      w.counted.length + w.carried (recoveryWindow hz) now + 1 := by
  have hrecent := Window.recent_events (Nat.zero_le (recoveryWindow hz))
    (inv.dated.later (Nat.le_add_right _ elapsed))
  rw [Window.events_roll] at hrecent
  have hnow := List.countP_cons_of_pos (a := s.1.jiffies + elapsed) (l := s.2.events)
    (p := fun t => decide (s.1.jiffies + elapsed ≤ t + recoveryWindow hz))
    (decide_eq_true (Nat.le_add_right _ _))
  exact hnow.trans (congrArg (· + 1) hrecent)

/-- The history a step leaves: the one before it, with one more reinit if the run is free
and the rate good. -/
theorem watchedStep_events {hz : Nat} {s t : State × Window Nat} {r : Run}
    (h : watchedStep hz s r = some t) :
    t.2.events =
      if r.free = true ∧ (recoveryRateOk hz (s.1.jiffies + r.elapsed) s.1.dw).2 = true then
        (s.1.jiffies + r.elapsed) :: s.2.events
      else s.2.events := by
  obtain ⟨-, hnote⟩ := (Machine.watched_eq_some (step hz) (note hz)).mp h
  have hran := recoveryWorkFn_ran hz (s.1.jiffies + r.elapsed) r s.1.dw
  have hfree : r.asks = false → r.free = false := fun h => by simp [Run.free, h]
  rw [hnote, note_eq rfl]
  revert hran
  generalize recoveryWorkFn hz (s.1.jiffies + r.elapsed) r s.1.dw = out
  intro hran
  cases hran with
  | blocked asks => simp [asks, hfree asks]
  | refused asks ok => simp [asks, ok]
  | stopped asks free | attempted asks free ok => simp [asks, free]
  | called asks free ok => simp [asks, free, ok]

/-- What the histories in question keep. -/
def Even (hz : Nat) (s : State × Window Nat) : Prop :=
  Kept s ∧ Window.Sparse (recoveryWindow hz) recoveryMaxInWindow s.2.events

/-- A step keeps the history sparse exactly when it is joined. -/
theorem step_sparse {hz : Nat} {s t : State × Window Nat} {r : Run} (inv : Even hz s)
    (h : watchedStep hz s r = some t) :
    Window.Sparse (recoveryWindow hz) recoveryMaxInWindow t.2.events ↔ Joined hz s r := by
  have hrecent := recent_called hz inv.1 r.elapsed
  rw [watchedStep_events h]
  unfold Joined
  by_cases hcall : r.free = true ∧ (recoveryRateOk hz (s.1.jiffies + r.elapsed) s.1.dw).2 = true
  · rw [if_pos hcall]
    constructor
    · intro hsparse now w _ _
      exact Nat.lt_of_succ_le (hrecent.symm.le.trans hsparse.1)
    · intro joined
      refine ⟨?_, inv.2⟩
      rw [hrecent]
      exact Nat.succ_le_of_lt (joined hcall.1 hcall.2)
  · rw [if_neg hcall]
    exact iff_of_true inv.2 fun hfree hok => absurd ⟨hfree, hok⟩ hcall

theorem Kept.limited_iff {hz : Nat} {s : State × Window Nat} (inv : Kept s) :
    Window.Sparse (recoveryWindow hz) recoveryMaxInWindow s.2.events ↔ Limited hz s :=
  Window.sparse_iff_within inv.sorted

/-- A run that nobody but the rate limit stops. -/
def Run.after (elapsed : Nat) : Run := ⟨elapsed, false, false, false, false⟩

/-- Ten reinits in the last two seconds of the first window, a fifth of a second apart, and
an eleventh right after them, with a hundred ticks a second. -/
def storm : List Run :=
  Run.after 5820 :: List.replicate 9 (Run.after 20) ++ [Run.after 21]

end DxNpuDriver.Pcie.RateLimit
