import DxNpuDriver.Lib.Machine
import DxNpuDriver.Lib.WaitQueue
import DxNpuDriver.Rt.Readiness
import DxNpuDriver.Rt.Response
import Mathlib.Data.List.Range
import Mathlib.Logic.Function.Basic

/-! Who sleeps in the runtime driver and who wakes them (`dxrt_drv_message.c`,
`dxrt_drv_recovery.c`, `dxrt_drv_cdev.c`, `dx_message.c`, `dx_cdev_events.c`).

A command that asks for a response sleeps on the `response_wq` of its channel, one that
asks for an event on `event_wq`; a response or an event, a stage of a recovery and the
closing of the file wake them. An event that is gone when it is taken is waited for on the
queue of the event interrupt. The words they read are atomics that the other side writes
one after the other, without a lock that both take, so a step is one access.

A function that wakes is the list of its accesses. It is entered at any time, any number of
times: the checks with which `dxrt_link_event_notify` and the readiness worker keep
themselves out only leave fewer runs. -/
namespace DxNpuDriver.Rt.Waiters
open WaitQueue (Wait)
open Recovery (DevState)
open Readiness (Reason)
open Response (Kind Queue dequeueResponse clearResponseQueue)
open Errno ( EIO)

/-- `DX_PCIE_RESP_NUM`. -/
def dxPcieRespNum : Nat := 3

/-- `MAX_PCIE_CH_NUM`, which is the last channel of `response_wq`. -/
def maxPcieChNum : Nat := 3

/-! ### Words -/

inductive Wq where
  | response (ch : Nat)
  | event
  /-- `events_wq` of the event interrupt. -/
  | irq
  deriving DecidableEq

/-- What the conditions read; `eventsIrq` is whether `events_irq` is set. -/
structure Words (ρ : Type) where
  devState : DevState
  recovering : Bool
  responsePending : Nat → Nat
  responses : Nat → Queue ρ
  events : Nat
  eventsIrq : Bool
  terminating : Nat → Bool

/-- `DX_EVENT_QUEUE_SIZE`. -/
def dxEventQueueSize : Nat := 32

variable {ρ : Type}

inductive Test where
  | pending (ch : Nat)
  | recovering
  | notRecovering
  | devStateErrno
  | terminating (file : Nat)
  | eventPending
  | irq
  deriving DecidableEq

/-- `dxrt_dev_state_errno`. -/
def dxrtDevStateErrno : DevState → Option Errno
  | .ready => none
  | .recovering | .transportOk => some .ENODATA
  | .fwHang | .waitingUser | .permFail => some EIO

def Words.test (m : Words ρ) : Test → Bool
  | .pending ch => 0 < m.responsePending ch
  | .recovering => m.recovering
  | .notRecovering => !m.recovering
  | .devStateErrno => (dxrtDevStateErrno m.devState).isSome
  | .terminating file => m.terminating file
  | .eventPending => 0 < m.events
  | .irq => m.eventsIrq

/-! ### Those who wake -/

/-- One access, or one locked section. -/
inductive Access (ρ : Type) where
  | setState (d : DevState)
  | setRecovering (b : Bool)
  | clearResponses (ch : Nat)
  | clearPending (ch : Nat)
  | clearEvents
  /-- `dx_pcie_enqueue_response` with the increment of `dxrt_response_notify`. -/
  | enqueueResponse (ch : Nat) (response : ρ)
  /-- The section of the three functions that queue an event. -/
  | enqueueEvent
  /-- `dx_pcie_interrupt_event_wakeup` and the end of `user_irq_events`, each with its
  wake-up. -/
  | raiseIrq
  | setTerminating (file : Nat)
  | wakeResponse (ch : Nat)
  | wakeEvent

def Access.write (m : Words ρ) : Access ρ → Words ρ
  | .setState d => {m with devState := d}
  | .setRecovering b => {m with recovering := b}
  | .clearResponses ch =>
    {m with responses := Function.update m.responses ch (clearResponseQueue (m.responses ch))}
  | .clearPending ch => {m with responsePending := Function.update m.responsePending ch 0}
  | .clearEvents => {m with events := 0}
  | .enqueueResponse ch response =>
    {m with
      responses :=
        Function.update m.responses ch (Response.enqueueResponse (m.responses ch) response)
      responsePending := Function.update m.responsePending ch (m.responsePending ch + 1)}
  | .enqueueEvent => if m.events < dxEventQueueSize then {m with events := m.events + 1} else m
  | .raiseIrq => {m with eventsIrq := true}
  | .setTerminating file => {m with terminating := Function.update m.terminating file true}
  | .wakeResponse _ | .wakeEvent => m

/-- The queue that the access wakes. -/
def Access.wakes (m : Words ρ) : Access ρ → Option Wq
  | .wakeResponse ch => some (.response ch)
  | .wakeEvent => some .event
  | .raiseIrq => if m.eventsIrq then none else some .irq
  | _ => none

/-- `dxrt_clear_all_pending`. -/
def dxrtClearAllPending : List (Access ρ) :=
  (List.range (maxPcieChNum + 1)).flatMap fun ch => [.clearPending ch, .wakeResponse ch]

/-- The loop over `response_wq`, and `event_wq`. -/
def wakeAll : List (Access ρ) :=
  (List.range (maxPcieChNum + 1)).map .wakeResponse ++ [.wakeEvent]

/-- `dx_pcie_clear_response_queue`. -/
def dxPcieClearResponseQueue : List (Access ρ) :=
  (List.range dxPcieRespNum).map .clearResponses

/-- `dx_pcie_enqueue_event_response`, with `dxrt_event_notify`; an error of the driver
raises the interrupt too. `dx_pcie_enqueue_abort_event` is the same with an error. -/
def dxPcieEnqueueEventResponse (error : Bool) : List (Access ρ) :=
  [.enqueueEvent] ++ (if error then [.raiseIrq] else []) ++ [.wakeEvent]

def dxPcieEnqueueRecoveryEvent : List (Access ρ) := [.enqueueEvent, .raiseIrq, .wakeEvent]

inductive Subcode where
  | started | done | fwHang | permFail
  deriving DecidableEq

/-- `emit_recovery_event`. -/
def emitRecoveryEvent (sub : Subcode) (reason : Reason) : List (Access ρ) :=
  if reason = .fwUpdate ∧ (sub = .started ∨ sub = .done) then [] else dxPcieEnqueueRecoveryEvent

/-- How `dxrt_recovery_device` ends: with what its last look finds `dev_state` in no
transition, or with the state it writes. -/
inductive Finish where
  | leave | ready | waitingUser
  deriving DecidableEq

/-- Where `dx_pcie_reset_dma_channels` leads a recovery command. -/
inductive Reset where
  /-- `-EAGAIN`: the command returns at once. -/
  | refused
  /-- It goes on; `reboot` when `dxrt_wait_fw_reboot_complete` sees the firmware again. -/
  | goes (reboot : Bool) (finish : Finish)
  deriving DecidableEq

/-- A function that wakes, with what decides its way. -/
inductive Call (ρ : Type) where
  | enqueueResponse (ch : Nat) (response : ρ)
  | enqueueEventResponse (error : Bool)
  | userIrqEvents
  | terminateEvent
  | deviceInit
  | linkDown
  | linkUp
  | kick (reason : Reason)
  | workerReady (reason : Reason)
  | workerHang (reason : Reason) (permFail : Bool)
  | recovery (reset : Reset)
  /-- `dxrt_dev_flush` by the owner; `single` is `nr_irqs == 1`. -/
  | flush (file : Nat) (single : Bool)

/-- What a DOWN and a kick begin with. -/
def beginRecovery (reason : Reason) : List (Access ρ) :=
  [.setState .recovering, .setRecovering true] ++ dxPcieClearResponseQueue ++ [.clearEvents] ++
    dxrtClearAllPending ++ wakeAll ++ emitRecoveryEvent .started reason

def Finish.accesses : Finish → List (Access ρ)
  | .leave => []
  | .ready => [.setState .ready]
  | .waitingUser => [.setState .waitingUser]

/-- `dxrt_recovery_device`. -/
def dxrtRecoveryDevice : Reset → List (Access ρ)
  | .refused => [.setState .recovering, .setRecovering true]
  | .goes reboot finish =>
    [.setState .recovering, .setRecovering true] ++ dxPcieClearResponseQueue ++ [.clearEvents] ++
      dxrtClearAllPending ++ wakeAll ++ (if reboot then [.setState .transportOk] else []) ++
      [.setRecovering false] ++ finish.accesses ++ wakeAll

/-- `dxrt_wakeup_waiters`. With several vectors `dx_pcie_interrupt_wakeup` raises the
interrupts of the channels, which nobody here waits for. -/
def dxrtWakeupWaiters (file : Nat) (single : Bool) : List (Access ρ) :=
  [.setTerminating file] ++ wakeAll ++
    (if single then List.replicate (maxPcieChNum + 1) .raiseIrq else []) ++ [.raiseIrq]

def Call.accesses : Call ρ → List (Access ρ)
  | .enqueueResponse ch response => [.enqueueResponse ch response, .wakeResponse ch]
  | .enqueueEventResponse error => dxPcieEnqueueEventResponse error
  | .userIrqEvents => dxPcieEnqueueEventResponse false ++ [.raiseIrq]
  | .terminateEvent => [.raiseIrq]
  | .deviceInit => dxPcieClearResponseQueue ++ dxPcieClearResponseQueue
  | .linkDown => beginRecovery .linkFlap
  | .linkUp => [.setState .transportOk]
  | .kick reason => beginRecovery reason ++ [.setState .transportOk]
  | .workerReady reason =>
    [.setRecovering false, .setState .ready] ++ wakeAll ++ emitRecoveryEvent .done reason
  | .workerHang reason permFail =>
    [.setState .fwHang, .setRecovering false] ++ dxrtClearAllPending ++ wakeAll ++
      emitRecoveryEvent .fwHang reason ++
      (if permFail then .setState .permFail :: emitRecoveryEvent .permFail reason else [])
  | .recovery reset => dxrtRecoveryDevice reset
  | .flush file single => dxrtWakeupWaiters file single

/-! ### Those who wait -/

inductive Command where
  | response (kind : Kind) (ch : Nat)
  /-- `dxrt_handle_event`. -/
  | event
  | eventV2
  deriving DecidableEq

inductive Ret (ρ : Type) where
  | err (e : Errno)
  | response (response : ρ)
  /-- With an event, or with the zeros that stand for none. -/
  | event (found : Bool)
  deriving DecidableEq

/-- A place of a command outside its waits; those up to `decrement` are of the functions
that wait for a response. -/
inductive Place (ρ : Type) where
  /-- `message_handler_general`, which lets the event commands pass in every state. -/
  | gate
  | enter
  | retry
  | probe
  | woken
  | devState
  | again
  | dequeue
  | decrement (got : Option ρ)
  | eventEnter
  | recovering
  | recovered
  | eventWoken
  | recheck
  | eventDequeue
  | clearIrq
  | eventAgain

/-- At a place; in a wait with the place behind it; returned. -/
inductive Pc (ρ : Type) where
  | stands (p : Place ρ)
  | waits (w : Wait Wq Test) (after : Place ρ)
  | ret (r : Ret ρ)

structure Handler (ρ : Type) where
  command : Command
  file : Nat
  signal : Bool
  pc : Pc ρ

/-- The condition of `dxrt_npu_run_response_v1`, `dxrt_npu_run_response_v2` and
`dxrt_read_output`, in the order of each. -/
def responseTests (kind : Kind) (ch file : Nat) : List Test :=
  match kind with
  | .runResponseV1 => [.pending ch, .recovering, .terminating file, .devStateErrno]
  | .runResponseV2 | .readOutput => [.pending ch, .recovering, .devStateErrno, .terminating file]

def recoveryTests (file : Nat) : List Test := [.notRecovering, .terminating file]

def eventTests (file : Nat) : List Test := [.eventPending, .recovering, .terminating file]

namespace Handler

def waitResponse (h : Handler ρ) (kind : Kind) (ch : Nat) : Pc ρ :=
  .waits (.start (.response ch) (responseTests kind ch h.file) h.signal) .woken

def waitEvent (h : Handler ρ) : Pc ρ :=
  .waits (.start .event (eventTests h.file) h.signal) .eventWoken

/-- The places of the functions that wait for a response. -/
def responsePlace (m : Words ρ) (h : Handler ρ) (kind : Kind) (ch : Nat) :
    Place ρ → Option (Words ρ × Pc ρ)
  | .gate => some (m,
      match dxrtDevStateErrno m.devState with
      | some e => .ret (.err e)
      | none => .stands .enter)
  | .enter => some (m, if ch ≥ dxPcieRespNum then .ret (.err .EINVAL)
      else if m.terminating h.file then .ret (.err .ECANCELED) else .stands .retry)
  | .retry => some (m,
      match dxrtDevStateErrno m.devState with
      | some e => .ret (.err e)
      | none =>
        match kind with
        | .runResponseV1 => .stands .probe
        | .runResponseV2 | .readOutput => h.waitResponse kind ch)
  | .probe => some (m,
      if m.responsePending ch = 0 then h.waitResponse kind ch else .stands .again)
  | .woken => some (m, if m.terminating h.file then .ret (.err .ECANCELED) else .stands .devState)
  | .devState => some (m,
      match dxrtDevStateErrno m.devState with
      | some e => .ret (.err e)
      | none =>
        match kind with
        | .runResponseV1 => .stands .again
        | .runResponseV2 | .readOutput => .stands .dequeue)
  | .again => some (m, if m.terminating h.file then .ret (.err .ECANCELED) else .stands .dequeue)
  | .dequeue =>
    let r := dequeueResponse (m.responses ch)
    some ({m with responses := Function.update m.responses ch r.1}, .stands (.decrement r.2))
  | .decrement got =>
    -- `atomic_dec_if_positive`, whether or not there was a response
    some ({m with responsePending :=
        Function.update m.responsePending ch (m.responsePending ch - 1)},
      match got with
      | some response => .ret (.response response)
      | none => .stands .retry)
  | _ => none

/-- The places of `dxrt_handle_event_v2`, and of the dequeue it shares with
`dxrt_handle_event`. -/
def eventPlace (m : Words ρ) (h : Handler ρ) : Place ρ → Option (Words ρ × Pc ρ)
  | .eventEnter =>
    some (m, if m.terminating h.file then .ret (.err .ECANCELED) else .stands .recovering)
  | .recovering => some (m, if m.recovering then
        .waits (.start .event (recoveryTests h.file) h.signal) .recovered
      else h.waitEvent)
  | .recovered => some (m, if m.terminating h.file then .ret (.err .ECANCELED) else h.waitEvent)
  | .eventWoken =>
    some (m, if m.terminating h.file then .ret (.err .ECANCELED) else .stands .recheck)
  | .recheck => some (m, if m.recovering then .stands .recovering else .stands .eventDequeue)
  | .eventDequeue => some (
      if 0 < m.events then ({m with events := m.events - 1}, .ret (.event true))
      else (m, .waits (.start .irq [.irq] h.signal) .clearIrq))
  | .clearIrq => some ({m with eventsIrq := false}, .stands .eventAgain)
  | .eventAgain => some (
      if 0 < m.events then ({m with events := m.events - 1}, .ret (.event true))
      else (m, .ret (.event false)))
  | _ => none

def place (m : Words ρ) (h : Handler ρ) (p : Place ρ) : Option (Words ρ × Pc ρ) :=
  match h.command with
  | .response kind ch => responsePlace m h kind ch p
  | .event | .eventV2 => eventPlace m h p

/-- A signal ends the wait; `dx_pcie_interrupt_event` does not look how its own ended. -/
def interrupted : Place ρ → Pc ρ
  | .clearIrq => .stands .clearIrq
  | _ => .ret (.err .ERESTARTSYS)

def step (m : Words ρ) (h : Handler ρ) : Option (Words ρ × Pc ρ) :=
  match h.pc with
  | .stands p => h.place m p
  | .waits w after => (w.next m.test).map fun
    | .wait v => (m, .waits v after)
    | .done => (m, .stands after)
    | .restart => (m, interrupted after)
  | .ret _ => none

def wake (q : Wq) (h : Handler ρ) : Handler ρ :=
  match h.pc with
  | .waits w after => {h with pc := .waits (w.wake q) after}
  | _ => h

def interrupt (h : Handler ρ) : Handler ρ :=
  match h.pc with
  | .waits w after => {h with signal := true, pc := .waits w.interrupt after}
  | _ => {h with signal := true}

def asleep (h : Handler ρ) : Bool :=
  match h.pc with
  | .waits w _ => w.stage = .asleep
  | _ => false

end Handler

def Command.enter : Command → Place ρ
  | .response _ _ => .gate
  | .event => .eventDequeue
  | .eventV2 => .eventEnter

/-! ### Steps -/

/-- A call and the accesses it has still to make. -/
structure Thread (ρ : Type) where
  call : Call ρ
  rest : List (Access ρ)

structure State (ρ : Type) where
  words : Words ρ
  threads : List (Thread ρ)
  handlers : List (Handler ρ)

/-- `dxrt_device_init_early` and `dxrt_recovery_state_init`. -/
def initial : State ρ :=
  ⟨⟨.ready, false, fun _ => 0, fun _ => ⟨0, []⟩, 0, false, fun _ => false⟩, [], []⟩

inductive Label (ρ : Type) where
  | call (c : Call ρ)
  | thread (i : Nat)
  | ioctl (command : Command) (file : Nat)
  | handler (i : Nat)
  | signal (i : Nat)

/-- Access `a`, whose thread goes on with `rest`. -/
def access (s : State ρ) (i : Nat) (c : Call ρ) (a : Access ρ) (rest : List (Access ρ)) :
    State ρ where
  words := a.write s.words
  threads := s.threads.set i ⟨c, rest⟩
  handlers :=
    match a.wakes s.words with
    | some q => s.handlers.map (Handler.wake q)
    | none => s.handlers

def step (s : State ρ) : Label ρ → Option (State ρ)
  | .call c => some {s with threads := s.threads ++ [⟨c, c.accesses⟩]}
  | .thread i =>
    match s.threads[i]? with
    | some ⟨c, a :: rest⟩ => some (access s i c a rest)
    | _ => none
  | .ioctl command file =>
    some {s with handlers := s.handlers ++ [⟨command, file, false, .stands command.enter⟩]}
  | .handler i =>
    s.handlers[i]?.bind fun h => (h.step s.words).map fun (m, pc) =>
      {s with words := m, handlers := s.handlers.set i {h with pc := pc}}
  | .signal i =>
    s.handlers[i]?.map fun h => {s with handlers := s.handlers.set i h.interrupt}

end DxNpuDriver.Rt.Waiters
