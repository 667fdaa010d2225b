import DxNpuDriver.Lib.Machine
import Mathlib.Data.List.Basic
import Mathlib.Tactic.Common

/-! The device state and its three writers (`dxrt_drv_recovery.c`, `dxrt_drv_message.c`).

`dev_state` is written by the link events, by the readiness worker and by the
recovery command, each with plain sets guarded by earlier reads. The worker checks the
state and then writes READY; the command writes TRANSPORT_OK without looking, and at
its end READY over any RECOVERING it finds, its own or that of a DOWN event.

`ordered_run_alive` says when READY still means a live link: if no DOWN lands while the
command or the worker acts on what it has read, and no command passes the transport
check before the UP of a returning link has been delivered. -/
namespace DxNpuDriver.Rt.Recovery

/-- `dxrt_dev_state_t`. -/
inductive DevState where
  | ready | recovering | transportOk | fwHang | waitingUser | permFail
  deriving DecidableEq

inductive Event where
  | down | up
  deriving DecidableEq

/-- The transport, which delivers one event at a time: where
`dxrt_link_event_notify` stands. -/
inductive Notify where
  | idle
  /-- `dev_state` is compared with PERM_FAIL. -/
  | read (ev : Event)
  | write (ev : Event)
  /-- The rest of a DOWN: `recovering`, `recovery_epoch`, `cancel_delayed_work`. -/
  | downFlag | downEpoch | downCancel
  | upSchedule
  deriving DecidableEq

/-- The checks of `dxrt_recovery_ready_work_fn`: at its start, after the wait for the
mailbox, after the PING, and before it writes READY. -/
inductive Check where
  | first | mailbox | ping | last
  deriving DecidableEq

inductive Worker where
  | idle
  | readPermFail
  | readEpoch
  | checkEpoch (startEpoch : Nat) (c : Check)
  | checkState (startEpoch : Nat) (c : Check)
  /-- Between two checks. -/
  | probe (startEpoch : Nat) (c : Check)
  | clearFlag
  | writeReady
  | writeHang
  | hangFlag
  | permFailCheck
  deriving DecidableEq

/-- `dxrt_recovery_device`, with `dxrt_wait_fw_reboot_complete` in it. The last three
places know whether `ret` is 0. -/
inductive Command where
  | gate
  | lock
  | recheck
  | writeRecovering
  | setFlag
  | bumpEpoch
  /-- `dx_pcie_reset_dma_channels`. -/
  | resetDma
  /-- The two phases of the wait for the mailbox. -/
  | reboot
  | writeTransportOk
  | schedule
  | flush
  | readFinal
  | clearFlag (ok : Bool)
  | readState (ok : Bool)
  | writeState (ok : Bool)
  | unlock
  | returned
  deriving DecidableEq

structure State where
  devState : DevState
  recovering : Bool
  recoveryEpoch : Nat
  /-- What the transport check of `dx_pcie_reset_dma_channels` sees. -/
  linkDown : Bool
  lastEvent : Option Event
  notify : Notify
  /-- `recovery_ready_work` is pending, and where its run stands. -/
  pending : Bool
  worker : Worker
  recoveryMutex : Bool
  commands : List Command
  deriving DecidableEq

def initial : State := ⟨.ready, false, 0, false, none, .idle, false, .idle, false, []⟩

/-- How `dx_pcie_reset_dma_channels` returns past its transport check. -/
inductive Reset where
  | failed | done | busReset
  deriving DecidableEq

inductive Label where
  /-- The link goes or comes back, and the transport begins to deliver the event. -/
  | link (ev : Event)
  | notify
  /-- The worker starts a pending run. -/
  | workerRun
  /-- The worker goes on: to which check its probe leads, or that it failed; and whether a
  failure is the last that is allowed. -/
  | worker (next : Option Check) (permFail : Bool)
  | command
  /-- Command `i` goes on, with the result of the DMA reset and of the reboot. -/
  | commandStep (i : Nat) (reset : Reset) (ready : Bool)
  deriving DecidableEq

/-! ### Link events -/

/-- `dxrt_link_event_notify`. -/
def notifyStep (s : State) : Option State :=
  match s.notify with
  | .idle => none
  | .read ev =>
    if s.devState = .permFail then some {s with notify := .idle, lastEvent := some ev}
    else some {s with notify := .write ev}
  | .write .down =>
    some {s with devState := .recovering, lastEvent := some .down, notify := .downFlag}
  | .downFlag => some {s with recovering := true, notify := .downEpoch}
  | .downEpoch =>
    some {s with recoveryEpoch := (s.recoveryEpoch + 1) % 2 ^ 32, notify := .downCancel}
  | .downCancel => some {s with pending := false, notify := .idle}
  | .write .up =>
    some {s with devState := .transportOk, lastEvent := some .up, notify := .upSchedule}
  | .upSchedule => some {s with pending := true, notify := .idle}

/-! ### The readiness worker -/

/-- Where a probe may lead from a check that has passed. -/
def leads : Check → Check → Bool
  | .first, .mailbox | .first, .ping | .first, .last | .mailbox, .ping | .ping, .last => true
  | _, _ => false

/-- `dxrt_recovery_ready_work_fn`. -/
def workerStep (s : State) (next : Option Check) (permFail : Bool) : Option State :=
  match s.worker with
  | .idle => none
  | .readPermFail =>
    some {s with worker := if s.devState = .permFail then .idle else .readEpoch}
  | .readEpoch => some {s with worker := .checkEpoch s.recoveryEpoch .first}
  | .checkEpoch e c =>
    some {s with worker := if s.recoveryEpoch = e then .checkState e c else .idle}
  | .checkState e c =>
    some {s with worker :=
      if s.devState ≠ .transportOk then .idle
      else if c = .last then .clearFlag
      else .probe e c}
  | .probe e c =>
    match next with
    | none => some {s with worker := .writeHang}
    | some c' => if leads c c' then some {s with worker := .checkEpoch e c'} else none
  | .clearFlag => some {s with recovering := false, worker := .writeReady}
  | .writeReady => some {s with devState := .ready, worker := .idle}
  | .writeHang => some {s with devState := .fwHang, worker := .hangFlag}
  | .hangFlag => some {s with recovering := false, worker := .permFailCheck}
  | .permFailCheck =>
    some {s with devState := if permFail then .permFail else s.devState, worker := .idle}

/-! ### The recovery command -/

/-- RECOVERING or TRANSPORT_OK. -/
def DevState.inTransition (d : DevState) : Bool := d = .recovering ∨ d = .transportOk

/-- One step of command `i`, which stands at `c`. -/
def commandStep (s : State) (i : Nat) (c : Command) (reset : Reset) (ready : Bool) :
    Option State :=
  let goTo (s : State) (c : Command) : Option State := some {s with commands := s.commands.set i c}
  match c with
  | .gate => goTo s (if s.devState.inTransition then .returned else .lock)
  | .lock => if s.recoveryMutex then none else goTo {s with recoveryMutex := true} .recheck
  | .recheck => goTo s (if s.devState.inTransition then .unlock else .writeRecovering)
  | .writeRecovering => goTo {s with devState := .recovering} .setFlag
  | .setFlag => goTo {s with recovering := true} .bumpEpoch
  | .bumpEpoch => goTo {s with recoveryEpoch := (s.recoveryEpoch + 1) % 2 ^ 32} .resetDma
  | .resetDma =>
    -- `-EAGAIN`: the link-event bridge drives the rest
    if s.linkDown then goTo s .unlock
    else
      match reset with
      | .failed => goTo s (.clearFlag false)
      | .busReset => goTo s (.clearFlag true)
      | .done => goTo s .reboot
  | .reboot => goTo s (if ready then .writeTransportOk else .clearFlag false)
  | .writeTransportOk => goTo {s with devState := .transportOk} .schedule
  | .schedule => goTo {s with pending := true} .flush
  -- the run it waits for is over, whichever that is
  | .flush => goTo s .readFinal
  | .readFinal => goTo s (.clearFlag (decide (s.devState = .ready)))
  | .clearFlag ok => goTo {s with recovering := false} (.readState ok)
  | .readState ok => goTo s (if s.devState.inTransition then .writeState ok else .unlock)
  | .writeState ok =>
    goTo {s with devState := if ok then .ready else .waitingUser} .unlock
  | .unlock => goTo {s with recoveryMutex := false} .returned
  | .returned => none

def step (s : State) : Label → Option State
  | .link ev =>
    match s.notify with
    | .idle => some {s with linkDown := decide (ev = .down), notify := .read ev}
    | _ => none
  | .notify => notifyStep s
  | .workerRun =>
    match s.worker with
    | .idle => if s.pending then some {s with pending := false, worker := .readPermFail} else none
    | _ => none
  | .worker next permFail => workerStep s next permFail
  | .command => some {s with commands := s.commands ++ [.gate]}
  | .commandStep i reset ready =>
    match s.commands[i]? with
    | some c => commandStep s i c reset ready
    | none => none

/-- Nobody is in the middle of its steps. -/
def Quiescent (s : State) : Prop :=
  s.notify = .idle ∧ s.worker = .idle ∧ ∀ c ∈ s.commands, c = .returned

/-- READY means that the last link event is not DOWN. -/
def Alive (s : State) : Prop :=
  Quiescent s → s.devState = .ready → s.lastEvent ≠ some .down

/-! ### Runs -/

/-- The command writes TRANSPORT_OK or READY without a further look at what a DOWN would
have left. -/
def Command.committed : Command → Bool
  | .reboot | .writeTransportOk | .clearFlag true | .readState true | .writeState true => true
  | _ => false

/-- The worker has made its last check. -/
def Worker.committed : Worker → Bool
  | .clearFlag | .writeReady => true
  | _ => false

/-- The step makes DOWN the last event. -/
def lands (s : State) : Bool :=
  s.notify = .write .down ∨ (s.notify = .read .down ∧ s.devState = .permFail)

/-- A DOWN lands only while neither the worker nor a command is committed, and a command
passes the transport check only when the last event is not DOWN. -/
def Ordered (s : State) : Label → Prop
  | .notify => lands s = true →
      s.worker.committed = false ∧ ∀ c ∈ s.commands, c.committed = false
  | .commandStep i _ _ =>
    s.commands[i]? = some .resetDma → s.linkDown = false → s.lastEvent ≠ some .down
  | _ => True

instance (s : State) (l : Label) : Decidable (Ordered s l) :=
  match l with
  | .notify => inferInstanceAs (Decidable (_ → _ ∧ ∀ c ∈ _, _))
  | .commandStep _ _ _ => inferInstanceAs (Decidable (_ → _ → _))
  | .link _ | .workerRun | .worker _ _ | .command => isTrue trivial

/-- What ordered steps keep. -/
structure Guarded (s : State) : Prop where
  state : s.devState = .ready ∨ s.devState = .transportOk → s.lastEvent ≠ some .down
  worker : s.worker.committed = true → s.lastEvent ≠ some .down
  command : ∀ c ∈ s.commands, c.committed = true → s.lastEvent ≠ some .down

theorem initial_guarded : Guarded initial where
  state := by decide
  worker := by decide
  command := by decide

/-- On a link that is not down nothing is owed. -/
theorem Guarded.of_live {s : State} (h : s.lastEvent ≠ some .down) : Guarded s :=
  ⟨fun _ => h, fun _ => h, fun _ _ _ => h⟩

/-- A DOWN has landed where nobody was committed, and the state it leaves is neither of the
two that mean a live link. -/
theorem Guarded.of_landed {s : State} (hstate : ¬(s.devState = .ready ∨ s.devState = .transportOk))
    (hworker : s.worker.committed = false) (hcommands : ∀ c ∈ s.commands, c.committed = false) :
    Guarded s where
  state live := absurd live hstate
  worker hc := by simp [hworker] at hc
  command c hc committed := by simp [hcommands c hc] at committed

theorem notifyStep_guarded {s t : State} (inv : Guarded s) (rule : Ordered s .notify)
    (h : notifyStep s = some t) : Guarded t := by
  simp only [notifyStep] at h
  split at h
  case h_1 => cases h
  case h_2 ev hread =>
    split at h
    case isTrue hperm =>
      cases h
      cases ev with
      | down =>
        obtain ⟨hworker, hcommands⟩ := rule (by simp [lands, hread, hperm])
        exact .of_landed (by simp [hperm]) hworker hcommands
      | up => exact .of_live (by rintro ⟨⟩)
    case isFalse =>
      cases h
      exact ⟨inv.state, inv.worker, inv.command⟩
  case h_3 hwrite =>
    cases h
    obtain ⟨hworker, hcommands⟩ := rule (by simp [lands, hwrite])
    exact .of_landed (by simp) hworker hcommands
  case h_7 =>
    cases h
    exact .of_live (by rintro ⟨⟩)
  all_goals
    cases h
    exact ⟨inv.state, inv.worker, inv.command⟩

/-- A step of the worker alone: what it has to show of its own place and of the state it
writes. -/
theorem Guarded.worker_moved {s : State} (inv : Guarded s) {d : DevState} {f : Bool} {w : Worker}
    (hd : d = .ready ∨ d = .transportOk → s.lastEvent ≠ some .down)
    (hw : w.committed = true → s.lastEvent ≠ some .down) :
    Guarded {s with devState := d, recovering := f, worker := w} :=
  ⟨hd, hw, inv.command⟩

theorem workerStep_guarded {s t : State} {next : Option Check} {permFail : Bool}
    (inv : Guarded s) (h : workerStep s next permFail = some t) : Guarded t := by
  simp only [workerStep] at h
  split at h
  case h_1 => cases h
  case h_2 =>
    cases h
    refine inv.worker_moved inv.state fun committed => ?_
    split at committed <;> cases committed
  case h_3 =>
    cases h
    exact inv.worker_moved inv.state (by rintro ⟨⟩)
  case h_4 =>
    cases h
    refine inv.worker_moved inv.state fun committed => ?_
    split at committed <;> cases committed
  case h_5 =>
    cases h
    refine inv.worker_moved inv.state fun committed => ?_
    split at committed
    · cases committed
    · -- the check has seen TRANSPORT_OK, which no DOWN leaves behind
      exact inv.state (.inr (not_not.mp ‹_›))
  case h_6 =>
    split at h
    · cases h
      exact inv.worker_moved inv.state (by rintro ⟨⟩)
    · split at h
      · cases h
        exact inv.worker_moved inv.state (by rintro ⟨⟩)
      · cases h
  case h_7 hw =>
    cases h
    exact inv.worker_moved inv.state fun _ => inv.worker (by rw [hw]; rfl)
  case h_8 hw =>
    cases h
    exact inv.worker_moved (fun _ => inv.worker (by rw [hw]; rfl)) (by rintro ⟨⟩)
  case h_9 =>
    cases h
    exact inv.worker_moved (by simp) (by rintro ⟨⟩)
  case h_10 =>
    cases h
    exact inv.worker_moved inv.state (by rintro ⟨⟩)
  case h_11 =>
    cases h
    refine inv.worker_moved (fun live => ?_) (by rintro ⟨⟩)
    split at live
    · simp at live
    · exact inv.state live

/-- A step of command `i` alone. -/
theorem Guarded.command_moved {s : State} (inv : Guarded s) {i : Nat} {d : DevState} {f : Bool}
    {e : Nat} {p m : Bool} {c : Command}
    (hd : d = .ready ∨ d = .transportOk → s.lastEvent ≠ some .down)
    (hc : c.committed = true → s.lastEvent ≠ some .down) :
    Guarded {s with devState := d, recovering := f, recoveryEpoch := e, pending := p,
                    recoveryMutex := m, commands := s.commands.set i c} where
  state := hd
  worker := inv.worker
  command b hb committed := by
    rcases List.mem_or_eq_of_mem_set hb with hb | rfl
    · exact inv.command b hb committed
    · exact hc committed

theorem commandStep_guarded {s t : State} {i : Nat} {c : Command} {reset : Reset} {ready : Bool}
    (inv : Guarded s) (hi : s.commands[i]? = some c) (rule : Ordered s (.commandStep i reset ready))
    (h : commandStep s i c reset ready = some t) : Guarded t := by
  have committed : c.committed = true → s.lastEvent ≠ some .down :=
    inv.command c (List.mem_of_getElem? hi)
  cases c with
  | gate =>
    cases h
    refine inv.command_moved inv.state fun hc => ?_
    split at hc <;> cases hc
  | lock =>
    simp only [commandStep] at h
    split at h
    · cases h
    · cases h
      exact inv.command_moved inv.state (by rintro ⟨⟩)
  | recheck =>
    cases h
    refine inv.command_moved inv.state fun hc => ?_
    split at hc <;> cases hc
  | writeRecovering =>
    cases h
    exact inv.command_moved (by simp) (by rintro ⟨⟩)
  | setFlag | bumpEpoch | schedule | flush | unlock =>
    cases h
    exact inv.command_moved inv.state (by rintro ⟨⟩)
  | resetDma =>
    simp only [commandStep] at h
    split at h
    · cases h
      exact inv.command_moved inv.state (by rintro ⟨⟩)
    · have live := rule hi (Bool.eq_false_iff.mpr ‹_›)
      cases reset <;> cases h <;> exact inv.command_moved inv.state fun _ => live
  | reboot =>
    cases h
    exact inv.command_moved inv.state fun _ => committed rfl
  | writeTransportOk =>
    cases h
    exact inv.command_moved (fun _ => committed rfl) (by rintro ⟨⟩)
  | readFinal =>
    cases h
    refine inv.command_moved inv.state fun hc => inv.state ?_
    by_cases hready : s.devState = .ready
    · exact .inl hready
    · simp [hready, Command.committed] at hc
  | clearFlag ok =>
    cases h
    refine inv.command_moved inv.state fun hc => committed ?_
    cases ok <;> simp_all [Command.committed]
  | readState ok =>
    cases h
    refine inv.command_moved inv.state fun hc => committed ?_
    cases ok <;> split at hc <;> simp_all [Command.committed]
  | writeState ok =>
    cases h
    refine inv.command_moved (fun live => committed ?_) (by rintro ⟨⟩)
    cases ok <;> simp_all [Command.committed]
  | returned => cases h

theorem step_guarded (s : State) (l : Label) (t : State) (inv : Guarded s) (rule : Ordered s l)
    (h : step s l = some t) : Guarded t := by
  cases l with
  | link ev =>
    simp only [step] at h
    split at h
    · cases h
      exact ⟨inv.state, inv.worker, inv.command⟩
    · cases h
  | notify => exact notifyStep_guarded inv rule h
  | workerRun =>
    simp only [step] at h
    split at h
    · split at h
      · cases h
        exact ⟨inv.state, (by rintro ⟨⟩), inv.command⟩
      · cases h
    · cases h
  | worker next permFail => exact workerStep_guarded inv h
  | command =>
    cases h
    refine ⟨inv.state, inv.worker, fun c hc committed => ?_⟩
    rcases List.mem_append.mp hc with hc | hc
    · exact inv.command c hc committed
    · rw [List.mem_singleton.mp hc] at committed
      cases committed
  | commandStep i reset ready =>
    simp only [step] at h
    split at h
    · exact commandStep_guarded inv ‹_› rule h
    · cases h

/-- **READY means a live link.** In every ordered run of any number of commands, of link
events and of the worker, the state is READY at rest only if the last event is not DOWN. -/
theorem ordered_run_alive {s : State} {ls : List Label}
    (rule : Machine.Admissible step Ordered initial ls) (h : Machine.run step initial ls = some s) :
    Alive s := by
  intro _ hready
  have inv := Machine.invariant_of_admissible step step_guarded initial_guarded rule h
  exact inv.state (.inl hready)

/-- The link goes and comes back. -/
def flap : List Label :=
  .link .down :: List.replicate 5 .notify ++ .link .up :: List.replicate 3 .notify

/-- The worker finds the firmware ready at its four checks. -/
def readyRun : List Label :=
  .workerRun :: List.replicate 4 (.worker none false) ++
    ([.mailbox, .ping, .last].flatMap fun c =>
      List.replicate 3 (.worker (some c) false)) ++ List.replicate 2 (.worker none false)

/-- Command 0 with a bus reset, up to the return of `dx_pcie_reset_dma_channels`. -/
def resetRun : List Label := .command :: List.replicate 7 (.commandStep 0 .busReset true)

/-- Command 0 from there to its return. -/
def finishRun : List Label := List.replicate 4 (.commandStep 0 .busReset true)

/-- A flap, the recovery from it and a recovery command end in READY, and the run is
ordered. -/
theorem alive_after_flap :
    ∃ s, Machine.run step initial (flap ++ readyRun ++ resetRun ++ finishRun) = some s ∧
      Quiescent s ∧ s.devState = .ready ∧ s.lastEvent = some .up ∧ Alive s :=
  have ordered : Machine.Admissible step Ordered initial
      (flap ++ readyRun ++ resetRun ++ finishRun) := by decide
  ⟨_, rfl, ⟨rfl, rfl, by decide⟩, rfl, rfl, ordered_run_alive ordered rfl⟩

/-- A DOWN that lands after the bus reset of a running command: its RECOVERING is taken for
the command's own and becomes READY. -/
theorem ready_on_dead_link :
    ¬ ∀ ls s, Machine.run step initial ls = some s → Alive s := by
  intro h
  have alive := h (resetRun ++ (.link .down :: List.replicate 5 .notify) ++ finishRun) _ rfl
  exact alive ⟨rfl, rfl, by decide⟩ rfl rfl

end DxNpuDriver.Rt.Recovery
