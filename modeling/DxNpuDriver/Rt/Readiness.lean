import DxNpuDriver.Lib.Machine
import DxNpuDriver.Rt.Recovery

/-! The readiness worker and those who start it over (`dxrt_drv_recovery.c`,
`dxrt_drv_message.c`), one atomic access at a time.

Four functions share the recovery words of a device without a common lock: the link
event, the firmware-reboot kick, the recovery command and the readiness worker. Any
number of the first three run at once; the worker is a work item and runs once at a
time. A step is one access: it has an `Effect` on the shared words and leads to the next
place of whoever takes it, so what a step can do to the words is said once, in
`Effect.apply`.

The watch beside the machine records what the words do not keep: how often the epoch has
moved since the running worker captured it, and whether the firmware has proved itself
since RECOVERING was last entered. -/
namespace DxNpuDriver.Rt.Readiness
open Recovery (DevState Event)

/-- `last_recovery_reason`. -/
inductive Reason where
  | none | linkFlap | fwTimeout | cpuReset | fwUpdate | fwUpdateNodlmsg
  deriving DecidableEq

/-- The words the four functions share, with the two mutexes and `recovery_ready_work`. -/
structure Shared where
  devState : DevState
  recovering : Bool
  recoveryEpoch : Nat
  recoveryCount : Nat
  recoveryFailCount : Nat
  lastRecoveryReason : Reason
  permFailCountInWindow : Nat
  permFailMaxRetries : Nat
  /-- `recovery_ready_work` is queued. -/
  pending : Bool
  msgLock : Bool
  recoveryMutex : Bool
  deriving DecidableEq

/-- `dxrt_recovery_state_init`, with the module parameter. -/
def Shared.init (maxRetries : Nat) : Shared :=
  ⟨.ready, false, 0, 0, 0, .none, 0, maxRetries, false, false, false⟩

/-- One access to the shared words. -/
inductive Effect where
  | read
  | setState (d : DevState)
  | setReason (r : Reason)
  | setRecovering (b : Bool)
  | incEpoch
  | incCount
  | incFailCount
  /-- The counting of `perm_fail_check`; its window has run out or not. -/
  | countFailure (expired : Bool)
  | cancelWork
  | scheduleWork
  | lockMsg
  | unlockMsg
  | lockRecovery
  | unlockRecovery
  deriving DecidableEq

/-- The count `perm_fail_check` compares. -/
def failures (m : Shared) (expired : Bool) : Nat :=
  ((if expired then 0 else m.permFailCountInWindow) + 1) % 2 ^ 32

/-- What an access leaves; a mutex that is taken makes it wait. -/
def Effect.apply (m : Shared) : Effect → Option Shared
  | .read => some m
  | .setState d => some {m with devState := d}
  | .setReason r => some {m with lastRecoveryReason := r}
  | .setRecovering b => some {m with recovering := b}
  | .incEpoch => some {m with recoveryEpoch := (m.recoveryEpoch + 1) % 2 ^ 32}
  | .incCount => some {m with recoveryCount := (m.recoveryCount + 1) % 2 ^ 32}
  | .incFailCount => some {m with recoveryFailCount := (m.recoveryFailCount + 1) % 2 ^ 32}
  | .countFailure expired => some {m with permFailCountInWindow := failures m expired}
  | .cancelWork => some {m with pending := false}
  | .scheduleWork => some {m with pending := true}
  | .lockMsg => if m.msgLock then none else some {m with msgLock := true}
  | .unlockMsg => some {m with msgLock := false}
  | .lockRecovery => if m.recoveryMutex then none else some {m with recoveryMutex := true}
  | .unlockRecovery => some {m with recoveryMutex := false}

/-! ### Link events and kicks -/

/-- Where `dxrt_link_event_notify` stands. -/
inductive Notify where
  | read (ev : Event)
  | downState | downReason | downFlag | downEpoch | downCancel
  | upState | upSchedule
  | returned
  deriving DecidableEq

/-- `dxrt_link_event_notify`. -/
def linkEventNotify (m : Shared) : Notify → Option (Effect × Notify)
  | .read ev =>
    some (.read,
      if m.devState = .permFail then .returned
      else match ev with
        | .down => .downState
        | .up => .upState)
  | .downState => some (.setState .recovering, .downReason)
  | .downReason => some (.setReason .linkFlap, .downFlag)
  | .downFlag => some (.setRecovering true, .downEpoch)
  | .downEpoch => some (.incEpoch, .downCancel)
  | .downCancel => some (.cancelWork, .returned)
  | .upState => some (.setState .transportOk, .upSchedule)
  | .upSchedule => some (.scheduleWork, .returned)
  | .returned => none

/-- Who kicks: `dxrt_kick_cpu_reset_recovery`, `dxrt_kick_fw_update_recovery` and
`dxrt_kick_fw_update_recovery_nodlmsg`. -/
inductive Reboot where
  | cpuReset | fwUpdate | fwUpdateNodlmsg
  deriving DecidableEq

def Reboot.reason : Reboot → Reason
  | .cpuReset => .cpuReset
  | .fwUpdate => .fwUpdate
  | .fwUpdateNodlmsg => .fwUpdateNodlmsg

/-- Where `dxrt_kick_fw_reboot_recovery` stands; the two firmware updates call it with
`msg_lock` held. -/
inductive Kick where
  | lock | read | state | reason | flag | epoch | cancel | transportOk | schedule | unlock
  | returned
  deriving DecidableEq

/-- `dxrt_kick_fw_reboot_recovery`. -/
def kickFwRebootRecovery (m : Shared) (r : Reboot) : Kick → Option (Effect × Kick)
  | .lock => some (if r = .cpuReset then .read else .lockMsg, .read)
  | .read => some (.read, if m.devState = .permFail then .unlock else .state)
  | .state => some (.setState .recovering, .reason)
  | .reason => some (.setReason r.reason, .flag)
  | .flag => some (.setRecovering true, .epoch)
  | .epoch => some (.incEpoch, .cancel)
  | .cancel => some (.cancelWork, .transportOk)
  | .transportOk => some (.setState .transportOk, .schedule)
  | .schedule => some (.scheduleWork, .unlock)
  | .unlock => some (if r = .cpuReset then .read else .unlockMsg, .returned)
  | .returned => none

/-! ### The recovery command -/

/-- What `dx_pcie_reset_dma_channels` returns: `-EAGAIN`, another error, 0, or 1 after an
endpoint reset. -/
inductive ResetRet where
  | again | error | ok | endpointReset
  deriving DecidableEq

/-- Where `dxrt_recovery_device` stands, with `dxrt_wait_fw_reboot_complete` in it. From
`clearFlag` on the place knows whether `ret` is 0. -/
inductive Command where
  | gate | lock | recheck
  | state | reason | flag | epoch
  | resetDma
  /-- The two phases of the wait for the mailbox. -/
  | reboot
  | transportOk | cancel | schedule | flush
  | readFinal
  | clearFlag (ok : Bool)
  | readState (ok : Bool)
  | writeState (ok : Bool)
  | unlock
  | returned
  deriving DecidableEq

/-- `dxrt_recovery_device`, with the result of the DMA reset and whether the firmware came
back. -/
def recoveryDevice (m : Shared) (reset : ResetRet) (ready : Bool) :
    Command → Option (Effect × Command)
  | .gate => some (.read, if m.devState.inTransition then .returned else .lock)
  | .lock => some (.lockRecovery, .recheck)
  | .recheck => some (.read, if m.devState.inTransition then .unlock else .state)
  | .state => some (.setState .recovering, .reason)
  | .reason => some (.setReason .fwTimeout, .flag)
  | .flag => some (.setRecovering true, .epoch)
  | .epoch => some (.incEpoch, .resetDma)
  | .resetDma =>
    some (.read,
      match reset with
      -- the link-event bridge drives the rest
      | .again => .unlock
      | .error => .clearFlag false
      | .endpointReset => .clearFlag true
      | .ok => .reboot)
  | .reboot => some (.read, if ready then .transportOk else .clearFlag false)
  | .transportOk => some (.setState .transportOk, .cancel)
  | .cancel => some (.cancelWork, .schedule)
  | .schedule => some (.scheduleWork, .flush)
  -- the run it waits for is over, whichever that is
  | .flush => some (.read, .readFinal)
  | .readFinal => some (.read, .clearFlag (decide (m.devState = .ready)))
  | .clearFlag ok => some (.setRecovering false, .readState ok)
  | .readState ok => some (.read, if m.devState.inTransition then .writeState ok else .unlock)
  | .writeState ok => some (.setState (if ok then .ready else .waitingUser), .unlock)
  | .unlock => some (.unlockRecovery, .returned)
  | .returned => none

/-! ### The readiness worker -/

/-- The checks of epoch and state that a run makes: at its start; in the loop of
`dxrt_wait_fw_reboot_legacy_settle`; in the two loops of
`dxrt_wait_fw_reboot_mailbox_cycle`; after the passive wait; in `fw_ping_probe` at its
entry, under `msg_lock` and in its polling loop; after the probe, with its result; and
before it publishes READY. -/
inductive Check where
  | start | settle | drop | back | mailbox | entry | locked | poll
  | pinged (ok : Bool)
  | last
  deriving DecidableEq

/-- Where a run stands. `startEpoch` is what it captured. -/
inductive Worker where
  | idle
  | readPermFail
  | capture
  | checkEpoch (startEpoch : Nat) (c : Check)
  | checkState (startEpoch : Nat) (c : Check)
  /-- Check `c` has passed. -/
  | passed (startEpoch : Nat) (c : Check)
  | readReason (startEpoch : Nat)
  | lockMsg (startEpoch : Nat)
  | unlockMsg (startEpoch : Nat) (ok : Bool)
  | incCount (startEpoch : Nat)
  | clearFlag (startEpoch : Nat)
  | writeReady (startEpoch : Nat)
  | incFailCount (startEpoch : Nat)
  | writeHang (startEpoch : Nat)
  | hangFlag (startEpoch : Nat)
  | permFailCount (startEpoch : Nat)
  | permFailWrite (startEpoch : Nat)
  deriving DecidableEq

/-- `ack` as the polling loop of `fw_ping_probe` reads it. -/
inductive Ack where
  | none | one | allOnes
  deriving DecidableEq

/-- What the worker finds outside the shared words: whether `dev->dl` and `dev->msg` are
mapped, whether the mailbox is ready, whether the deadline (or the failure window) has
run out, the ack, and whether the reply is the PONG it wants. -/
structure Env where
  dl : Bool
  msg : Bool
  ready : Bool
  expired : Bool
  ack : Ack
  pong : Bool
  deriving DecidableEq

/-- `fw_ping_probe` begins. -/
def pingProbe (e : Nat) (env : Env) : Worker :=
  if env.msg then .checkEpoch e .entry else .checkEpoch e (.pinged false)

/-- A check has failed: `fw_ping_probe` returns `-EAGAIN` to a caller that checks again,
every other place ends the run. -/
def gaveUp (e : Nat) : Check → Worker
  | .entry => .checkEpoch e (.pinged false)
  | .locked | .poll => .unlockMsg e false
  | _ => .idle

/-- What follows a check that has passed. -/
def afterCheck (e : Nat) (env : Env) : Check → Worker
  | .start => if env.dl then .readReason e else pingProbe e env
  | .settle => if env.expired then .checkEpoch e .last else .checkEpoch e .settle
  | .drop =>
    if !env.ready then .checkEpoch e .back
    else if env.expired then .writeHang e
    else .checkEpoch e .drop
  | .back =>
    if env.ready then pingProbe e env
    else if env.expired then .writeHang e
    else .checkEpoch e .back
  | .mailbox => if env.ready then pingProbe e env else .writeHang e
  | .entry => .lockMsg e
  | .locked => if env.expired then .unlockMsg e false else .checkEpoch e .poll
  | .poll =>
    match env.ack with
    | .allOnes => .unlockMsg e false
    | .one => .unlockMsg e env.pong
    | .none => if env.expired then .unlockMsg e false else .checkEpoch e .poll
  | .pinged ok => if ok then .checkEpoch e .last else .incFailCount e
  | .last => .incCount e

/-- Which wait the reason asks for. -/
def waitFor (e : Nat) : Reason → Worker
  | .fwUpdateNodlmsg => .checkEpoch e .settle
  | .cpuReset | .fwUpdate => .checkEpoch e .drop
  | _ => .checkEpoch e .mailbox

/-- `dxrt_recovery_ready_work_fn`, with its waits, `fw_ping_probe` and
`perm_fail_check`. -/
def recoveryReadyWorkFn (m : Shared) (env : Env) : Worker → Option (Effect × Worker)
  | .idle => none
  | .readPermFail => some (.read, if m.devState = .permFail then .idle else .capture)
  | .capture => some (.read, .checkEpoch m.recoveryEpoch .start)
  | .checkEpoch e c => some (.read, if m.recoveryEpoch = e then .checkState e c else gaveUp e c)
  | .checkState e c =>
    some (.read, if m.devState = .transportOk then .passed e c else gaveUp e c)
  | .passed e c => some (.read, afterCheck e env c)
  | .readReason e => some (.read, waitFor e m.lastRecoveryReason)
  | .lockMsg e => some (.lockMsg, .checkEpoch e .locked)
  | .unlockMsg e ok => some (.unlockMsg, .checkEpoch e (.pinged ok))
  | .incCount e => some (.incCount, .clearFlag e)
  | .clearFlag e => some (.setRecovering false, .writeReady e)
  | .writeReady _ => some (.setState .ready, .idle)
  | .incFailCount e => some (.incFailCount, .writeHang e)
  | .writeHang e => some (.setState .fwHang, .hangFlag e)
  | .hangFlag e => some (.setRecovering false, .permFailCount e)
  | .permFailCount e =>
    some (.countFailure env.expired,
      if m.permFailMaxRetries ≤ failures m env.expired then .permFailWrite e else .idle)
  | .permFailWrite _ => some (.setState .permFail, .idle)

/-! ### The machine -/

/-- A call of one of the three functions that run in their caller's thread. -/
inductive Caller where
  | notify (p : Notify)
  | kick (r : Reboot) (p : Kick)
  | command (p : Command)
  deriving DecidableEq

structure State where
  shared : Shared
  worker : Worker
  callers : List Caller
  deriving DecidableEq

def initial (maxRetries : Nat) : State := ⟨.init maxRetries, .idle, []⟩

inductive Label where
  /-- A link event is delivered, a firmware reboot is kicked, a recovery command comes in. -/
  | event (ev : Event)
  | reboot (r : Reboot)
  | recover
  /-- Caller `i` goes on; a command with what the DMA reset and the reboot give. -/
  | caller (i : Nat) (reset : ResetRet) (ready : Bool)
  /-- The work item starts a queued run, and goes on. -/
  | workerRun
  | worker (env : Env)
  deriving DecidableEq

/-- The call a label starts. -/
def Label.call : Label → Option Caller
  | .event ev => some (.notify (.read ev))
  | .reboot r => some (.kick r .lock)
  | .recover => some (.command .gate)
  | _ => none

/-- The next access of a caller. -/
def callerStep (m : Shared) (reset : ResetRet) (ready : Bool) : Caller → Option (Effect × Caller)
  | .notify p => (linkEventNotify m p).map fun (e, q) => (e, .notify q)
  | .kick r p => (kickFwRebootRecovery m r p).map fun (e, q) => (e, .kick r q)
  | .command p => (recoveryDevice m reset ready p).map fun (e, q) => (e, .command q)

/-- The access the label makes. -/
def effect (s : State) : Label → Option Effect
  | .caller i reset ready =>
    s.callers[i]?.bind fun c => (callerStep s.shared reset ready c).map Prod.fst
  | .worker env => (recoveryReadyWorkFn s.shared env s.worker).map Prod.fst
  | _ => some .read

def step (s : State) : Label → Option State
  | .event ev => some {s with callers := s.callers ++ [.notify (.read ev)]}
  | .reboot r => some {s with callers := s.callers ++ [.kick r .lock]}
  | .recover => some {s with callers := s.callers ++ [.command .gate]}
  | .caller i reset ready => do
    let c ← s.callers[i]?
    let (e, d) ← callerStep s.shared reset ready c
    let m ← e.apply s.shared
    some {s with shared := m, callers := s.callers.set i d}
  | .workerRun =>
    match s.worker with
    | .idle =>
      if s.shared.pending then
        some {s with shared := {s.shared with pending := false}, worker := .readPermFail}
      else none
    | _ => none
  | .worker env => do
    let (e, w) ← recoveryReadyWorkFn s.shared env s.worker
    let m ← e.apply s.shared
    some {s with shared := m, worker := w}

/-- Whether the label is a step of `dxrt_recovery_device`. -/
def ofCommand (s : State) : Label → Bool
  | .caller i _ _ => match s.callers[i]? with
    | some (.command _) => true
    | _ => false
  | _ => false

/-! ### The watch -/

/-- Between its write of RECOVERING and its increment of the epoch. -/
def Caller.opened : Caller → Bool
  | .notify .downReason | .notify .downFlag | .notify .downEpoch => true
  | .kick _ .reason | .kick _ .flag | .kick _ .epoch => true
  | .command .reason | .command .flag | .command .epoch => true
  | _ => false

/-- What the words do not keep. -/
structure Watch where
  /-- The increments of the epoch since the running worker captured it. -/
  bumps : Nat
  /-- The epoch has moved since the worker last read it. -/
  late : Bool
  /-- Since then RECOVERING has not been written, and nobody was between that write and
  the increment that goes with it. -/
  calm : Bool
  /-- RECOVERING has been entered. -/
  entered : Bool
  /-- The firmware has proved itself since then. -/
  proved : Bool
  deriving DecidableEq

def Watch.start : Watch := ⟨0, false, true, false, false⟩

/-- What a step adds to the watch. The firmware has proved itself when `fw_ping_probe`
returns 0 and, for the reason FW_UPDATE_NODLMSG, when the settle window has elapsed. -/
def note (s : State) (l : Label) (g : Watch) : Watch :=
  match l with
  | .worker env =>
    match s.worker with
    | .capture => {g with bumps := 0, late := false}
    | .checkEpoch _ _ => {g with late := false, calm := s.callers.all fun c => !c.opened}
    | .unlockMsg _ true => {g with proved := true}
    | .passed _ .settle =>
      if env.expired ∧ s.shared.lastRecoveryReason = .fwUpdateNodlmsg then {g with proved := true}
      else g
    | _ => g
  | .caller _ _ _ =>
    match effect s l with
    | some .incEpoch => {g with bumps := g.bumps + 1, late := true}
    | some (.setState .recovering) => {g with calm := false, entered := true, proved := false}
    | _ => g
  | _ => g

/-- The machine with its watch. -/
def watchedStep : State × Watch → Label → Option (State × Watch) := Machine.watched step note

def watchedInitial (n : Nat) : State × Watch := (initial n, .start)

/-! ### Parts of runs -/

/-- Caller `i` makes `k` accesses; a command finds the DMA reset and the reboot done. -/
def calls (i k : Nat) : List Label := List.replicate k (.caller i .ok true)

/-- The worker starts and makes `k` accesses. -/
def works (env : Env) (k : Nat) : List Label := .workerRun :: List.replicate k (.worker env)

/-- The firmware answers; no deadline runs out. -/
def answering : Env := ⟨true, true, true, false, .one, true⟩

/-- The mailbox does not become ready, and the failure window is still open. -/
def silent : Env := ⟨true, true, false, false, .none, false⟩

/-! ### What a step can do -/

/-- `dev_state` after an access. -/
def Effect.devState (m : Shared) : Effect → DevState
  | .setState d => d
  | _ => m.devState

/-- `recovery_epoch` after an access. -/
def Effect.epoch (m : Shared) : Effect → Nat
  | .incEpoch => (m.recoveryEpoch + 1) % 2 ^ 32
  | _ => m.recoveryEpoch

/-- `last_recovery_reason` after an access. -/
def Effect.reason (m : Shared) : Effect → Reason
  | .setReason r => r
  | _ => m.lastRecoveryReason

theorem Effect.apply_words {m n : Shared} {e : Effect} (h : e.apply m = some n) :
    n.devState = e.devState m ∧ n.recoveryEpoch = e.epoch m ∧ n.lastRecoveryReason = e.reason m := by
  cases e with
  | lockMsg | lockRecovery =>
    simp only [Effect.apply] at h
    split at h
    · cases h
    · cases h
      exact ⟨rfl, rfl, rfl⟩
  | _ =>
    cases h
    exact ⟨rfl, rfl, rfl⟩

/-- A step starts a call, moves a caller, starts a run of the worker or moves the worker. -/
inductive Moved (s : State) : Label → State → Prop
  | call (l : Label) (c : Caller) (hl : l.call = some c) :
      Moved s l {s with callers := s.callers ++ [c]}
  | caller (i : Nat) (reset : ResetRet) (ready : Bool) (c d : Caller) (e : Effect) (m : Shared)
      (hi : s.callers[i]? = some c) (hc : callerStep s.shared reset ready c = some (e, d))
      (he : effect s (.caller i reset ready) = some e) (hm : e.apply s.shared = some m) :
      Moved s (.caller i reset ready) {s with shared := m, callers := s.callers.set i d}
  | run (hidle : s.worker = .idle) :
      Moved s .workerRun {s with shared := {s.shared with pending := false}, worker := .readPermFail}
  | worker (env : Env) (e : Effect) (w : Worker) (m : Shared)
      (hw : recoveryReadyWorkFn s.shared env s.worker = some (e, w))
      (he : effect s (.worker env) = some e) (hm : e.apply s.shared = some m) :
      Moved s (.worker env) {s with shared := m, worker := w}

theorem step_moved {s t : State} {l : Label} (h : step s l = some t) : Moved s l t := by
  cases l with
  | event ev | reboot r | recover =>
    cases h
    exact .call _ _ rfl
  | caller i reset ready =>
    simp only [step, Option.bind_eq_bind, Option.bind_eq_some_iff] at h
    obtain ⟨c, hi, ⟨e, d⟩, hc, m, hm, ht⟩ := h
    cases ht
    exact .caller i reset ready c d e m hi hc (by simp [effect, hi, hc]) hm
  | workerRun =>
    simp only [step] at h
    split at h
    · split at h
      · cases h
        exact .run ‹_›
      · cases h
    · cases h
  | worker env =>
    simp only [step, Option.bind_eq_bind, Option.bind_eq_some_iff] at h
    obtain ⟨⟨e, w⟩, hw, m, hm, ht⟩ := h
    cases ht
    exact .worker env e w m hw (by simp [effect, hw]) hm

/-- The watch takes no note of a call that starts. -/
theorem note_call {s : State} {l : Label} {c : Caller} (hl : l.call = some c) (g : Watch) :
    note s l g = g := by
  cases l with
  | event _ | reboot _ | recover => rfl
  | _ => cases hl

/-- A predicate that holds at the first place of each call holds of a call that starts. -/
theorem Label.call_start {p : Caller → Prop} {l : Label} {c : Caller} (hl : l.call = some c)
    (event : ∀ ev, p (.notify (.read ev))) (reboot : ∀ r, p (.kick r .lock))
    (recover : p (.command .gate)) : p c := by
  cases l with
  | event ev =>
    cases hl
    exact event ev
  | reboot r =>
    cases hl
    exact reboot r
  | recover =>
    cases hl
    exact recover
  | _ => cases hl

end DxNpuDriver.Rt.Readiness
