import DxNpuDriver.Lib.Program
import DxNpuDriver.Rt.Readiness

/-! The transport of one device (`dx_link_health.c`, `dw-edma-pcie.c`, `dx_sgdma.c`).

`dev_state`, `link_state` and `background_recovery_paused` are plain atomics. The health
worker, the recovery worker, the PCI callbacks and the DMA reset of a recovery command
all write them, mostly without a look at the other two. Each of these functions is a
program of atomic accesses, in the order of the source; a machine runs any number of
them, one access at a time.

What the functions decide on besides (the state of the link, whether a reinit succeeds,
the rate limit, stuck channels) is asked of the environment. -/
namespace DxNpuDriver.Pcie
open Rt.Recovery (Event)
open Rt.Readiness (ResetRet)

/-- `enum dx_dev_state`. -/
inductive DevState where
  | uninit | live | recovering | aerReset | removing
  deriving DecidableEq

/-- `enum dx_link_state`. -/
inductive LinkState where
  | unknown | up | down | recovering | degraded
  deriving DecidableEq

/-- The function that makes a write. -/
inductive Site where
  | quiesceForLinkDown | quiesceChannels | fullReinit | resetDmaChannels | errorResume | remove
  | healthStart | healthWork
  deriving DecidableEq

inductive Op where
  | readDev
  | readLink
  | readPaused
  | readEnabled
  /-- `work_busy` of the recovery work. -/
  | readBusy
  /-- Something outside the words. -/
  | ask
  | setDev (d : DevState) (site : Site)
  | setLink (l : LinkState) (site : Site)
  | setPaused (b : Bool)
  | setEnabled (b : Bool)
  | queueHealth
  | queueRecovery
  /-- `cancel_delayed_work_sync` and `cancel_work_sync` wait for a run to end. -/
  | cancelHealth
  | cancelRecovery
  | lockWr
  | unlockWr
  /-- `dx_pcie_notify_link_event`. -/
  | notify (ev : Event)
  deriving DecidableEq

/-- What an access answers. -/
@[reducible] def Op.Val : Op → Type
  | .readDev => DevState
  | .readLink => LinkState
  | .readPaused | .readEnabled | .readBusy | .ask => Bool
  | _ => Unit

def Op.values : ∀ o : Op, List o.Val
  | .readDev => [.uninit, .live, .recovering, .aerReset, .removing]
  | .readLink => [.unknown, .up, .down, .recovering, .degraded]
  | .readPaused | .readEnabled | .readBusy | .ask => [false, true]
  | .setDev _ _ | .setLink _ _ | .setPaused _ | .setEnabled _ | .queueHealth | .queueRecovery
  | .cancelHealth | .cancelRecovery | .lockWr | .unlockWr | .notify _ => [()]

theorem Op.mem_values : ∀ (o : Op) (v : o.Val), v ∈ o.values := by
  intro o
  cases o <;> intro v <;> cases v <;> simp [Op.values]

/-- The accesses of the transport. -/
abbrev access : Access := ⟨Op, Op.Val, Op.values, Op.mem_values⟩

abbrev Code (α : Type) := Prog access α

def readDev : Code DevState := .call (A := access) .readDev
def readLink : Code LinkState := .call (A := access) .readLink
def readPaused : Code Bool := .call (A := access) .readPaused
def readEnabled : Code Bool := .call (A := access) .readEnabled
def readBusy : Code Bool := .call (A := access) .readBusy
def ask : Code Bool := .call (A := access) .ask
def setDev (d : DevState) (site : Site) : Code Unit := .call (A := access) (.setDev d site)
def setLink (l : LinkState) (site : Site) : Code Unit := .call (A := access) (.setLink l site)
def setPaused (b : Bool) : Code Unit := .call (A := access) (.setPaused b)
def setEnabled (b : Bool) : Code Unit := .call (A := access) (.setEnabled b)
def queueHealth : Code Unit := .call (A := access) .queueHealth
def queueRecovery : Code Unit := .call (A := access) .queueRecovery
def cancelHealth : Code Unit := .call (A := access) .cancelHealth
def cancelRecovery : Code Unit := .call (A := access) .cancelRecovery
def lockWr : Code Unit := .call (A := access) .lockWr
def unlockWr : Code Unit := .call (A := access) .unlockWr
def notify (ev : Event) : Code Unit := .call (A := access) (.notify ev)

/-! ### Quiesce and reinit -/

/-- `dx_dma_quiesce_for_link_down`. -/
def quiesceForLinkDown : Code Unit := do
  setDev .aerReset .quiesceForLinkDown
  setLink .down .quiesceForLinkDown
  notify .down

/-- `dx_dma_quiesce_channels`. -/
def quiesceChannels : Code Unit := do
  setDev .aerReset .quiesceChannels
  notify .down

/-- `dx_dma_full_reinit`; whether it succeeds. -/
def fullReinit : Code Bool := do
  setLink .recovering .fullReinit
  if ← ask then -- `dw_edma_v0_core_edma_restore` fails
    setLink .down .fullReinit
    return false
  if ← ask then -- `dx_pcie_validate_link` fails
    setLink .down .fullReinit
    return false
  setLink (if ← ask then .degraded else .up) .fullReinit
  setDev .live .fullReinit
  notify .up
  return true

/-! ### The workers -/

/-- `dx_dma_background_recovery_blocked`. -/
def backgroundRecoveryBlocked : Code Bool := do
  if (← readDev) = .removing then return true
  if !(← readEnabled) then return true
  readPaused

/-- `dx_dma_recovery_work_fn`. -/
def recoveryWork : Code ResetRet := do
  if ← backgroundRecoveryBlocked then return .ok
  if ← ask then return .ok -- the link is still down
  if ← ask then return .ok -- rate limited
  if ← backgroundRecoveryBlocked then return .ok
  if ← backgroundRecoveryBlocked then return .ok
  let _ ← fullReinit
  return .ok

/-- The switch of `dx_link_health_work_fn`. -/
def healthObserve (prev : LinkState) : Code Unit := do
  if ← ask then -- the link is down
    if prev ≠ .down then
      if ← ask then quiesceForLinkDown -- the threshold is reached
  else
    let degraded ← ask
    if prev = .down then
      if ← ask then return () -- cooling down
      if ← readBusy then return ()
      queueRecovery
    else if degraded ∧ prev ≠ .degraded then setLink .degraded .healthWork
    else
      if ← ask then -- `dx_pcie_ep_config_was_reset`, not cooling down
        if ← readBusy then return ()
        quiesceForLinkDown
        queueRecovery

/-- `dx_link_health_work_fn`. -/
def healthWork : Code ResetRet := do
  if ← backgroundRecoveryBlocked then return .ok
  healthObserve (← readLink)
  if ← backgroundRecoveryBlocked then return .ok
  queueHealth
  return .ok

/-- `dx_link_health_start`. -/
def healthStart : Code Unit := do
  setLink .up .healthStart
  setPaused false
  if ← readEnabled then queueHealth

/-- `dx_link_health_stop`. -/
def healthStop : Code Unit := do
  setPaused true
  cancelHealth
  cancelRecovery

/-- `dx_link_health_set_enabled`. -/
def healthSetEnabled (enable : Bool) : Code ResetRet := do
  if enable then
    setEnabled true
    if (← readDev) = .removing then return .ok
    if ← readPaused then return .ok
    queueHealth
  else
    setEnabled false
    cancelHealth
    cancelRecovery
  return .ok

/-! ### PCI callbacks -/

/-- `dx_dma_pcie_remove`. -/
def remove : Code ResetRet := do
  setDev .removing .remove
  healthStop
  return .ok

/-- `dx_pcie_suspend`, and `dx_dma_pcie_reset_prepare`, which does the same. -/
def suspend : Code ResetRet := do
  setPaused true
  quiesceChannels
  cancelHealth
  cancelRecovery
  return .ok

/-- `dx_pcie_resume`. -/
def resume : Code ResetRet := do
  let ok ← fullReinit
  setPaused false
  if ok then healthStart
  else
    if ← readEnabled then queueHealth
  return .ok

/-- `dx_dma_pcie_error_detected`, for `pci_channel_io_normal` or another error. -/
def errorDetected (normal : Bool) : Code ResetRet := do
  setPaused true
  if normal then quiesceChannels else quiesceForLinkDown
  cancelHealth
  cancelRecovery
  return .ok

/-- `dx_dma_pcie_error_slot_reset`. -/
def errorSlotReset : Code ResetRet := do
  if ← ask then return .ok -- `pci_enable_device` fails
  let _ ← fullReinit
  return .ok

/-- `dx_dma_pcie_error_resume`. -/
def errorResume : Code ResetRet := do
  if (← readDev) ≠ .live then setDev .live .errorResume
  setPaused false
  healthStart
  return .ok

/-- `dx_dma_pcie_reset_done`. -/
def resetDone : Code ResetRet := do
  let _ ← fullReinit
  setPaused false
  healthStart
  return .ok

/-! ### The DMA reset -/

/-- Transport recovery owns the device: the condition `dx_pcie_reset_dma_channels` tests
twice. -/
def transportOwned : Code Bool := do
  if (← readLink) = .down then return true
  if (← readDev) = .aerReset then return true
  readPaused

/-- `dx_pcie_reset_dma_channels`. -/
def resetDmaChannels : Code ResetRet := do
  if (← readDev) = .removing then return .error
  if ← transportOwned then return .again
  lockWr
  if ← transportOwned then
    unlockWr
    return .again
  if ← ask then -- no user and no stuck channel
    unlockWr
    return .ok
  setDev .recovering .resetDmaChannels
  setDev .live .resetDmaChannels
  unlockWr
  if ← ask then return .error
  if ← ask then return .endpointReset
  return .ok

/-! ### The machine -/

/-- The words, the two work items and `wr_lock`. -/
structure Words where
  devState : DevState
  linkState : LinkState
  backgroundRecoveryPaused : Bool
  linkHealthEnabled : Bool
  healthQueued : Bool
  recoveryQueued : Bool
  wrLock : Bool
  deriving DecidableEq

/-- A device that has been probed. -/
def Words.probed (enabled : Bool) : Words := ⟨.live, .up, false, enabled, enabled, false, false⟩

inductive Call where
  | healthWork | recoveryWork
  | healthSetEnabled (enable : Bool)
  | resetDmaChannels
  | remove | suspend | resume
  | errorDetected (normal : Bool)
  | errorSlotReset | errorResume
  | resetPrepare | resetDone
  deriving DecidableEq

def Call.code : Call → Code ResetRet
  | .healthWork => Pcie.healthWork
  | .recoveryWork => Pcie.recoveryWork
  | .healthSetEnabled enable => Pcie.healthSetEnabled enable
  | .resetDmaChannels => Pcie.resetDmaChannels
  | .remove => Pcie.remove
  | .suspend | .resetPrepare => Pcie.suspend
  | .resume => Pcie.resume
  | .errorDetected normal => Pcie.errorDetected normal
  | .errorSlotReset => Pcie.errorSlotReset
  | .errorResume => Pcie.errorResume
  | .resetDone => Pcie.resetDone

/-- A call and what it has still to do. -/
structure Thread where
  call : Call
  prog : Code ResetRet

/-- The next access of the call. -/
def Thread.next (t : Thread) : Option Op := t.prog.head

structure State where
  words : Words
  threads : List Thread

def initial (enabled : Bool) : State := ⟨.probed enabled, []⟩

/-- A run of the work item is under way. -/
def State.running (s : State) (c : Call) : Bool :=
  s.threads.any fun t => t.call == c && !t.prog.done

/-- What an access does, and what it answers; `answer` is what the environment says. It
waits for `wr_lock` and for the runs that are cancelled. -/
def exec (s : State) (answer : Bool) : (o : Op) → Option (o.Val × Words)
  | .readDev => some (s.words.devState, s.words)
  | .readLink => some (s.words.linkState, s.words)
  | .readPaused => some (s.words.backgroundRecoveryPaused, s.words)
  | .readEnabled => some (s.words.linkHealthEnabled, s.words)
  | .readBusy => some (s.words.recoveryQueued || s.running .recoveryWork, s.words)
  | .ask => some (answer, s.words)
  | .setDev d _ => some ((), {s.words with devState := d})
  | .setLink l _ => some ((), {s.words with linkState := l})
  | .setPaused b => some ((), {s.words with backgroundRecoveryPaused := b})
  | .setEnabled b => some ((), {s.words with linkHealthEnabled := b})
  | .queueHealth => some ((), {s.words with healthQueued := true})
  | .queueRecovery => some ((), {s.words with recoveryQueued := true})
  | .cancelHealth =>
    if s.running .healthWork then none else some ((), {s.words with healthQueued := false})
  | .cancelRecovery =>
    if s.running .recoveryWork then none else some ((), {s.words with recoveryQueued := false})
  | .lockWr => if s.words.wrLock then none else some ((), {s.words with wrLock := true})
  | .unlockWr => some ((), {s.words with wrLock := false})
  | .notify _ => some ((), s.words)

inductive Label where
  | start (c : Call)
  | go (i : Nat) (answer : Bool)
  deriving DecidableEq

/-- A work item starts when it is queued and not running; everything else at any time. -/
def startWords (s : State) : Call → Option Words
  | .healthWork =>
    if s.words.healthQueued && !s.running .healthWork then
      some {s.words with healthQueued := false}
    else none
  | .recoveryWork =>
    if s.words.recoveryQueued && !s.running .recoveryWork then
      some {s.words with recoveryQueued := false}
    else none
  | _ => some s.words

def step (s : State) : Label → Option State
  | .start c => (startWords s c).map fun w => ⟨w, s.threads ++ [⟨c, c.code⟩]⟩
  | .go i answer =>
    match s.threads[i]? with
    | none => none
    | some t =>
      match t.prog with
      | .ret _ => none
      | .op o k => (exec s answer o).map fun (v, w) =>
          ⟨w, s.threads.set i ⟨t.call, k v⟩⟩

/-! ### What a step can do -/

/-- A step starts a call or makes one access of a call. -/
inductive Moved (s : State) : Label → State → Prop
  | start (c : Call) (w : Words) (hw : startWords s c = some w) :
      Moved s (.start c) ⟨w, s.threads ++ [⟨c, c.code⟩]⟩
  | go (i : Nat) (answer : Bool) (c : Call) (o : Op) (k : o.Val → Code ResetRet) (v : o.Val)
      (w : Words) (hi : s.threads[i]? = some ⟨c, .op (A := access) o k⟩)
      (hexec : exec s answer o = some (v, w)) :
      Moved s (.go i answer) ⟨w, s.threads.set i ⟨c, k v⟩⟩

theorem step_moved {s t : State} {l : Label} (h : step s l = some t) : Moved s l t := by
  cases l with
  | start c =>
    simp only [step, Option.map_eq_some_iff] at h
    obtain ⟨w, hw, rfl⟩ := h
    exact .start c w hw
  | go i answer =>
    simp only [step] at h
    split at h
    · cases h
    · next t hi =>
      obtain ⟨c, prog⟩ := t
      cases prog with
      | ret r => cases h
      | op o k =>
        simp only [Option.map_eq_some_iff] at h
        obtain ⟨⟨v, w⟩, hexec, rfl⟩ := h
        exact .go i answer c o k v w hi hexec

/-- A call that starts leaves the three words alone. -/
theorem startWords_words {s : State} {c : Call} {w : Words} (h : startWords s c = some w) :
    w.devState = s.words.devState ∧ w.linkState = s.words.linkState ∧
      w.backgroundRecoveryPaused = s.words.backgroundRecoveryPaused := by
  cases c with
  | healthWork | recoveryWork =>
    simp only [startWords] at h
    split at h
    · cases h
      exact ⟨rfl, rfl, rfl⟩
    · cases h
  | _ =>
    cases h
    exact ⟨rfl, rfl, rfl⟩

/-- The three words after an access. -/
def Op.dev (w : Words) : Op → DevState
  | .setDev d _ => d
  | _ => w.devState

def Op.link (w : Words) : Op → LinkState
  | .setLink l _ => l
  | _ => w.linkState

def Op.paused (w : Words) : Op → Bool
  | .setPaused b => b
  | _ => w.backgroundRecoveryPaused

theorem exec_words {s : State} {answer : Bool} {o : Op} {v : o.Val} {w : Words}
    (h : exec s answer o = some (v, w)) :
    w.devState = o.dev s.words ∧ w.linkState = o.link s.words ∧
      w.backgroundRecoveryPaused = o.paused s.words := by
  cases o with
  | cancelHealth | cancelRecovery | lockWr =>
    simp only [exec] at h
    split at h
    · cases h
    · cases h
      exact ⟨rfl, rfl, rfl⟩
  | _ =>
    cases h
    exact ⟨rfl, rfl, rfl⟩

theorem exec_readDev {s : State} {answer : Bool} {v : DevState} {w : Words}
    (h : exec s answer .readDev = some (v, w)) : v = s.words.devState := by
  cases h
  rfl

theorem exec_readLink {s : State} {answer : Bool} {v : LinkState} {w : Words}
    (h : exec s answer .readLink = some (v, w)) : v = s.words.linkState := by
  cases h
  rfl

end DxNpuDriver.Pcie
