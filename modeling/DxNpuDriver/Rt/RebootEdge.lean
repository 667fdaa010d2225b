import DxNpuDriver.Rt.Readiness

/-! The edge of MAILBOX_READY that a firmware reboot has to show (`dxrt_drv_recovery.c`).

A CPU reset and a firmware update leave the link up, and the firmware acknowledges before
it clears its readiness: a MAILBOX_READY that is set may be that of the old image. A run
of the readiness worker for one of these reasons therefore has to see it cleared and then
set again before it sends the PING. Whatever the two deadlines do, and whoever changes
`dev_state` and `recovery_epoch` in the meantime, a run that has not seen that ends in
FW_HANG or PERM_FAIL, or without having written a state (`edge_before_ping`); and it ends
soon after the deadline (`wait_ends`). -/
namespace DxNpuDriver.Rt.Readiness
open Recovery (DevState)

/-- One turn of a loop of `dxrt_wait_fw_reboot_mailbox_cycle`, as it has read the device. -/
structure Poll where
  epoch : Nat
  devState : DevState
  ready : Bool
  deriving DecidableEq

/-- What is kept of the running worker. -/
structure Trace where
  /-- `start_epoch`. -/
  startEpoch : Nat
  /-- The run has DLMSG mapped, and a CPU reset or a firmware update for its reason. -/
  rebooting : Bool
  /-- What the turn that is under way has read. -/
  epoch : Nat
  devState : DevState
  /-- The turns, the last one first. -/
  polls : List Poll
  /-- The states the run has written. -/
  written : List DevState
  deriving DecidableEq

def Trace.start : Trace := ⟨0, false, 0, .ready, [], []⟩

def Reason.reboots : Reason → Bool
  | .cpuReset | .fwUpdate => true
  | _ => false

/-- What a step adds to the trace. -/
def trace (s : State) (l : Label) (g : Trace) : Trace :=
  match l with
  | .workerRun => .start
  | .worker env =>
    match s.worker with
    | .capture => {g with startEpoch := s.shared.recoveryEpoch}
    | .readReason _ => {g with rebooting := s.shared.lastRecoveryReason.reboots}
    | .checkEpoch _ _ => {g with epoch := s.shared.recoveryEpoch}
    | .checkState _ _ => {g with devState := s.shared.devState}
    | .passed _ .drop | .passed _ .back =>
      {g with polls := ⟨g.epoch, g.devState, env.ready⟩ :: g.polls}
    | .writeReady _ => {g with written := .ready :: g.written}
    | .writeHang _ => {g with written := .fwHang :: g.written}
    | .permFailWrite _ => {g with written := .permFail :: g.written}
    | _ => g
  | _ => g

/-- A call that starts is not the worker's. -/
theorem trace_call {l : Label} {c : Caller} (hl : l.call = some c) (s : State) (g : Trace) :
    trace s l g = g := by
  cases l with
  | event | reboot | recover => rfl
  | _ => cases hl

def tracedStep : State × Trace → Label → Option (State × Trace) := Machine.watched step trace

def tracedInitial (n : Nat) : State × Trace := (initial n, .start)

/-- The turn has found the epoch of the run, and TRANSPORT_OK. -/
def Trace.steady (g : Trace) (p : Poll) : Prop :=
  p.epoch = g.startEpoch ∧ p.devState = .transportOk

/-- MAILBOX_READY was cleared at one turn and set at a later one, and every turn up to
these was steady. -/
structure Trace.Edge (g : Trace) : Prop where
  seen : ∃ last between drop before, g.polls = last :: between ++ drop :: before ∧
    drop.ready = false ∧ last.ready = true
  steady : ∀ p ∈ g.polls, g.steady p

/-- The run is in its PING, or past it on the way to READY. -/
def Worker.pinging : Worker → Bool
  | .checkEpoch _ c | .checkState _ c | .passed _ c =>
    match c with
    | .entry | .locked | .poll | .pinged _ | .last => true
    | _ => false
  | .lockMsg _ | .unlockMsg _ _ | .incCount _ | .clearFlag _ | .writeReady _
  | .incFailCount _ => true
  | _ => false

/-- The deadline of the loop that the worker is in has passed. -/
def Late (s : State × Trace) : Label → Prop
  | .worker env =>
    match s.1.worker with
    | .passed _ .drop | .passed _ .back => env.expired = true
    | _ => True
  | _ => True

def Label.ofWorker : Label → Bool
  | .worker _ => true
  | _ => false

/-- Once its deadlines have passed, ten accesses of the worker bring the run to its end, or
it has its edge. -/
def Ends (s : State × Trace) : Prop :=
  ∀ rest t, Machine.run tracedStep s rest = some t → Machine.Admissible tracedStep Late s rest →
    10 ≤ rest.countP Label.ofWorker →
    ∃ before after u, rest = before ++ after ∧ Machine.run tracedStep s before = some u ∧
      (u.1.worker = .idle ∨ u.2.Edge)

/-- What a run for a reboot comes to: it goes on to the PING only over an edge; without one
it writes no state but FW_HANG and PERM_FAIL, and it ends. -/
structure Judged (s : State × Trace) : Prop where
  ping : s.2.rebooting = true → s.1.worker.pinging = true → s.2.Edge
  other : s.2.rebooting = true → ¬ s.2.Edge → ∀ d ∈ s.2.written, d = .fwHang ∨ d = .permFail
  ends : s.2.rebooting = true → Ends s

/-! ### The invariant, by place -/

/-- The run has not asked for its reason. -/
def Trace.Early (g : Trace) : Prop := g.rebooting = false ∧ g.polls = [] ∧ g.written = []

/-- The run waits, and every turn so far was steady. -/
structure Trace.Waiting (g : Trace) (e : Nat) : Prop where
  startEpoch : g.startEpoch = e
  steady : ∀ p ∈ g.polls, g.steady p
  written : g.written = []

/-- MAILBOX_READY has been seen cleared. -/
def Trace.Dropped (g : Trace) : Prop := ∃ p ∈ g.polls, p.ready = false

/-- Without an edge, a run for a reboot has written no state but FW_HANG and PERM_FAIL. -/
def Trace.Closed (g : Trace) : Prop :=
  g.rebooting = true → ¬ g.Edge → ∀ d ∈ g.written, d = .fwHang ∨ d = .permFail

/-- What the place of the worker says of its trace. -/
def Tracked (g : Trace) : Worker → Prop
  | .idle | .writeHang _ | .hangFlag _ | .permFailCount _ | .permFailWrite _ => g.Closed
  | .readPermFail | .capture => g.Early
  | .checkEpoch e .start | .checkState e .start | .passed e .start | .readReason e =>
    g.Early ∧ g.startEpoch = e
  | .checkEpoch e .drop => g.Waiting e
  | .checkState e .drop => g.Waiting e ∧ g.epoch = e
  | .passed e .drop => g.Waiting e ∧ g.epoch = e ∧ g.devState = .transportOk
  | .checkEpoch e .back => g.Waiting e ∧ g.Dropped
  | .checkState e .back => g.Waiting e ∧ g.Dropped ∧ g.epoch = e
  | .passed e .back => g.Waiting e ∧ g.Dropped ∧ g.epoch = e ∧ g.devState = .transportOk
  | _ => g.rebooting = true → g.Edge

theorem tracedInitial_tracked (n : Nat) :
    Tracked (tracedInitial n).2 (tracedInitial n).1.worker := by
  rintro ⟨⟩

/-- An edge is a matter of the turns. -/
theorem Trace.Edge.congr {g h : Trace} (edge : g.Edge) (hpolls : h.polls = g.polls)
    (hstart : h.startEpoch = g.startEpoch) : h.Edge := by
  refine ⟨by rw [hpolls]; exact edge.seen, fun p hp => ?_⟩
  rw [hpolls] at hp
  unfold Trace.steady
  rw [hstart]
  exact edge.steady p hp

theorem Trace.Waiting.congr {g h : Trace} {e : Nat} (waiting : g.Waiting e)
    (hpolls : h.polls = g.polls) (hstart : h.startEpoch = g.startEpoch)
    (hwritten : h.written = g.written) : h.Waiting e := by
  refine ⟨hstart.trans waiting.startEpoch, fun p hp => ?_, hwritten.trans waiting.written⟩
  rw [hpolls] at hp
  unfold Trace.steady
  rw [hstart]
  exact waiting.steady p hp

theorem Trace.Early.closed {g : Trace} (early : g.Early) : g.Closed := by
  intro h
  simp [early.1] at h

theorem Trace.Waiting.closed {g : Trace} {e : Nat} (waiting : g.Waiting e) : g.Closed := by
  intro _ _ d hd
  rw [waiting.written] at hd
  cases hd

theorem Trace.closed_of_edge {g : Trace} (h : g.rebooting = true → g.Edge) : g.Closed :=
  fun hr hnot => absurd (h hr) hnot

/-- FW_HANG and PERM_FAIL leave the trace closed. -/
theorem Trace.Closed.write {g : Trace} (h : g.Closed) {d : DevState}
    (hd : d = .fwHang ∨ d = .permFail) : ({g with written := d :: g.written} : Trace).Closed := by
  intro hr hnot
  refine List.forall_mem_cons.mpr ⟨hd, h hr fun edge => hnot ?_⟩
  exact edge.congr rfl rfl

/-- A turn that has found the epoch and the state leaves the run waiting. -/
theorem Trace.Waiting.turn {g : Trace} {e : Nat} (waiting : g.Waiting e) (hepoch : g.epoch = e)
    (hstate : g.devState = .transportOk) (ready : Bool) :
    ({g with polls := ⟨g.epoch, g.devState, ready⟩ :: g.polls} : Trace).Waiting e where
  startEpoch := waiting.startEpoch
  steady := List.forall_mem_cons.mpr
    ⟨⟨hepoch.trans waiting.startEpoch.symm, hstate⟩, waiting.steady⟩
  written := waiting.written

/-- MAILBOX_READY is set again: the edge. -/
theorem Trace.Waiting.edge {g : Trace} {e : Nat} (waiting : g.Waiting e) (dropped : g.Dropped)
    (hepoch : g.epoch = e) (hstate : g.devState = .transportOk) :
    ({g with polls := ⟨g.epoch, g.devState, true⟩ :: g.polls} : Trace).Edge := by
  obtain ⟨drop, hdrop, hready⟩ := dropped
  obtain ⟨between, before, hsplit⟩ := List.append_of_mem hdrop
  refine ⟨⟨⟨g.epoch, g.devState, true⟩, between, drop, before, ?_, hready, rfl⟩, (waiting.turn hepoch hstate true).steady⟩
  exact congrArg (⟨g.epoch, g.devState, true⟩ :: ·) hsplit

/-! ### Steps -/

theorem pingProbe_tracked {g : Trace} (h : g.rebooting = true → g.Edge) (x : Nat) (env : Env) :
    Tracked g (pingProbe x env) := by
  unfold pingProbe
  split
  · exact h
  · exact h

/-- A check that fails ends the run, or the PING. -/
theorem gaveUp_tracked {g : Trace} {x : Nat} {c : Check} (closed : g.Closed)
    (h : (Worker.checkEpoch x c).pinging = true → g.rebooting = true → g.Edge) :
    Tracked g (gaveUp x c) := by
  cases c with
  | entry | locked | poll => exact h rfl
  | _ => exact closed

/-- Every place leaves the trace closed if the run ends there. -/
theorem Tracked.closed {g : Trace} {w : Worker} (h : Tracked g w) : g.Closed := by
  cases w with
  | checkEpoch x c | checkState x c | passed x c =>
    cases c with
    | start => exact h.1.closed
    | drop | back =>
      first
      | exact Trace.Waiting.closed h
      | exact h.1.closed
    | _ => exact Trace.closed_of_edge h
  | readPermFail | capture => exact Trace.Early.closed h
  | readReason x => exact h.1.closed
  | idle | writeHang _ | hangFlag _ | permFailCount _ | permFailWrite _ => exact h
  | _ => exact Trace.closed_of_edge h

/-- A check reads the epoch. -/
theorem checkEpoch_tracked {g : Trace} {x n : Nat} {c : Check}
    (h : Tracked g (.checkEpoch x c)) :
    Tracked {g with epoch := n} (if n = x then .checkState x c else gaveUp x c) := by
  have closed : ({g with epoch := n} : Trace).Closed :=
    fun hr hnot => h.closed hr fun edge => hnot (edge.congr rfl rfl)
  split
  · rename_i hepoch
    cases c with
    | start => exact h
    | drop => exact ⟨Trace.Waiting.congr h rfl rfl rfl, hepoch⟩
    | back => exact ⟨Trace.Waiting.congr h.1 rfl rfl rfl, h.2, hepoch⟩
    | _ => exact fun hr => (h hr).congr rfl rfl
  · refine gaveUp_tracked closed fun hping hr => ?_
    cases c with
    | start | settle | drop | back | mailbox => cases hping
    | _ => exact (h hr).congr rfl rfl

/-- A check reads the state. -/
theorem checkState_tracked {g : Trace} {x : Nat} {d : DevState} {c : Check}
    (h : Tracked g (.checkState x c)) :
    Tracked {g with devState := d} (if d = .transportOk then .passed x c else gaveUp x c) := by
  have closed : ({g with devState := d} : Trace).Closed :=
    fun hr hnot => h.closed hr fun edge => hnot (edge.congr rfl rfl)
  split
  · rename_i hstate
    cases c with
    | start => exact h
    | drop => exact ⟨Trace.Waiting.congr h.1 rfl rfl rfl, h.2, hstate⟩
    | back => exact ⟨Trace.Waiting.congr h.1 rfl rfl rfl, h.2.1, h.2.2, hstate⟩
    | _ => exact fun hr => (h hr).congr rfl rfl
  · refine gaveUp_tracked closed fun hping hr => ?_
    cases c with
    | start | settle | drop | back | mailbox => cases hping
    | _ => exact (h hr).congr rfl rfl

/-- What follows a check that has passed: the loops go on, time out or have their edge. -/
theorem afterCheck_tracked {s : State} {g : Trace} {x : Nat} {env : Env} {c : Check}
    (hx : s.worker = .passed x c) (h : Tracked g (.passed x c)) :
    Tracked (trace s (.worker env) g) (afterCheck x env c) := by
  cases c with
  | start =>
    simp only [trace, hx, afterCheck]
    split
    · exact h
    · exact pingProbe_tracked (fun hr => by simp [h.1.1] at hr) x env
  | drop =>
    obtain ⟨waiting, hepoch, hstate⟩ := h
    have next := waiting.turn hepoch hstate env.ready
    simp only [trace, hx, afterCheck]
    split
    · rename_i hready
      refine ⟨next, _, List.mem_cons_self, ?_⟩
      simpa using hready
    · split
      · exact next.closed
      · exact next
  | back =>
    obtain ⟨waiting, dropped, hepoch, hstate⟩ := h
    have next := waiting.turn hepoch hstate env.ready
    simp only [trace, hx, afterCheck]
    split
    · rename_i hready
      rw [hready]
      exact pingProbe_tracked (fun _ => waiting.edge dropped hepoch hstate) x env
    · split
      · exact next.closed
      · obtain ⟨drop, hdrop, hnot⟩ := dropped
        exact ⟨next, drop, List.mem_cons_of_mem _ hdrop, hnot⟩
  | settle =>
    simp only [trace, hx, afterCheck]
    split
    · exact h
    · exact h
  | mailbox =>
    simp only [trace, hx, afterCheck]
    split
    · exact pingProbe_tracked h x env
    · exact Trace.closed_of_edge h
  | entry =>
    simp only [trace, hx, afterCheck]
    exact h
  | locked =>
    simp only [trace, hx, afterCheck]
    split
    · exact h
    · exact h
  | poll =>
    simp only [trace, hx, afterCheck]
    split
    · exact h
    · exact h
    · split
      · exact h
      · exact h
  | pinged ok =>
    simp only [trace, hx, afterCheck]
    split
    · exact h
    · exact h
  | last =>
    simp only [trace, hx, afterCheck]
    exact h

theorem worker_tracked {s : State} {g : Trace} {env : Env} {e : Effect} {v : Worker}
    (inv : Tracked g s.worker) (hw : recoveryReadyWorkFn s.shared env s.worker = some (e, v)) :
    Tracked (trace s (.worker env) g) v := by
  obtain ⟨m, worker, callers⟩ := s
  cases worker with
  | idle => cases hw
  | passed x c =>
    cases hw
    exact afterCheck_tracked rfl inv
  | checkEpoch x c =>
    cases hw
    exact checkEpoch_tracked inv
  | checkState x c =>
    cases hw
    exact checkState_tracked inv
  | readPermFail =>
    cases hw
    simp only [trace]
    split
    · exact Trace.Early.closed inv
    · exact inv
  | capture =>
    cases hw
    exact ⟨inv, rfl⟩
  | readReason x =>
    cases hw
    obtain ⟨⟨-, hpolls, hwritten⟩, hstart⟩ := inv
    have waiting : ({g with rebooting := m.lastRecoveryReason.reboots} : Trace).Waiting x :=
      ⟨hstart, by simp [hpolls], hwritten⟩
    simp only [trace]
    cases hreason : m.lastRecoveryReason with
    | cpuReset | fwUpdate =>
      rw [hreason] at waiting
      exact waiting
    | _ => rintro ⟨⟩
  | permFailCount x =>
    cases hw
    simp only [trace]
    split
    · exact inv
    · exact inv
  | writeHang x =>
    cases hw
    exact Trace.Closed.write inv (.inl rfl)
  | permFailWrite x =>
    cases hw
    exact Trace.Closed.write inv (.inr rfl)
  | writeReady x =>
    cases hw
    exact Trace.closed_of_edge fun hr => (inv hr).congr rfl rfl
  | incFailCount x =>
    cases hw
    exact Trace.closed_of_edge inv
  | lockMsg x | unlockMsg x ok | incCount x | clearFlag x | hangFlag x =>
    cases hw
    exact inv

theorem step_tracked (s : State × Trace) (l : Label) (t : State × Trace)
    (inv : Tracked s.2 s.1.worker) (h : tracedStep s l = some t) : Tracked t.2 t.1.worker := by
  obtain ⟨s, g⟩ := s
  obtain ⟨t, g'⟩ := t
  obtain ⟨hstep, rfl⟩ : step s l = some t ∧ g' = trace s l g :=
    (Machine.watched_eq_some step trace).mp h
  cases step_moved hstep with
  | call l c hl =>
    rw [trace_call hl]
    exact inv
  | caller => exact inv
  | run => exact ⟨rfl, rfl, rfl⟩
  | worker env e w m hw => exact worker_tracked inv hw

theorem Tracked.edge_of_pinging {s : State × Trace} (h : Tracked s.2 s.1.worker)
    (hr : s.2.rebooting = true) (hping : s.1.worker.pinging = true) : s.2.Edge := by
  revert h hping
  cases s.1.worker with
  | checkEpoch x c | checkState x c | passed x c =>
    cases c with
    | start | settle | drop | back | mailbox => rintro _ ⟨⟩
    | _ => exact fun h _ => h hr
  | lockMsg _ | unlockMsg _ _ | incCount _ | clearFlag _ | writeReady _ | incFailCount _ =>
    exact fun h _ => h hr
  | _ => rintro _ ⟨⟩

/-! ### The end of the wait -/

/-- The accesses that are left to a run whose deadlines have passed, unless it comes to its
PING. -/
def Worker.left : Worker → Option Nat
  | .idle => some 0
  | .permFailWrite _ => some 1
  | .permFailCount _ => some 2
  | .hangFlag _ => some 3
  | .writeHang _ => some 4
  | .passed _ .back => some 5
  | .checkState _ .back => some 6
  | .checkEpoch _ .back => some 7
  | .passed _ .drop => some 8
  | .checkState _ .drop => some 9
  | .checkEpoch _ .drop => some 10
  | _ => none

theorem Worker.idle_of_left {w : Worker} (h : w.left = some 0) : w = .idle := by
  cases w with
  | idle => rfl
  | checkEpoch x c | checkState x c | passed x c =>
    cases c with
    | drop | back => cases h
    | _ => cases h
  | _ => cases h

theorem ofWorker_call {l : Label} {c : Caller} (hl : l.call = some c) : l.ofWorker = false := by
  cases l with
  | event | reboot | recover => rfl
  | _ => cases hl

theorem pingProbe_pinging (x : Nat) (env : Env) : (pingProbe x env).pinging = true := by
  unfold pingProbe
  split <;> rfl

/-- An access of the wait leads to the PING, or leaves fewer. -/
theorem worker_left {s : State × Trace} {env : Env} {e : Effect} {v : Worker} {k : Nat}
    (hw : recoveryReadyWorkFn s.1.shared env s.1.worker = some (e, v))
    (late : Late s (.worker env)) (hk : s.1.worker.left = some k) :
    v.pinging = true ∨ ∃ j < k, v.left = some j := by
  obtain ⟨⟨m, worker, callers⟩, g⟩ := s
  cases worker with
  | passed x c =>
    cases c with
    | drop =>
      have expired : env.expired = true := late
      cases hw
      cases hk
      simp only [afterCheck, expired]
      split
      · exact .inr ⟨7, by decide, rfl⟩
      · exact .inr ⟨4, by decide, rfl⟩
    | back =>
      have expired : env.expired = true := late
      cases hw
      cases hk
      simp only [afterCheck, expired]
      split
      · exact .inl (pingProbe_pinging x env)
      · exact .inr ⟨4, by decide, rfl⟩
    | _ => cases hk
  | checkEpoch x c | checkState x c =>
    cases hw
    cases c with
    | drop | back =>
      cases hk
      split
      · exact .inr ⟨_, by decide, rfl⟩
      · exact .inr ⟨0, by decide, rfl⟩
    | _ => cases hk
  | permFailCount x =>
    cases hw
    cases hk
    split
    · exact .inr ⟨1, by decide, rfl⟩
    · exact .inr ⟨0, by decide, rfl⟩
  | permFailWrite x | hangFlag x | writeHang x =>
    cases hw
    cases hk
    exact .inr ⟨_, by decide, rfl⟩
  | idle => cases hw
  | _ => cases hk

/-- The reason was asked for before the wait. -/
theorem rebooting_of_left {s : State} {g : Trace} {k : Nat} (env : Env)
    (hr : g.rebooting = true) (hk : s.worker.left = some k) :
    (trace s (.worker env) g).rebooting = true := by
  obtain ⟨m, worker, callers⟩ := s
  cases worker with
  | readReason x => cases hk
  | passed x c =>
    cases c with
    | _ => exact hr
  | _ => exact hr

/-- A run for a reboot has its edge, or few accesses left. -/
theorem Tracked.edge_or_left {s : State × Trace} (h : Tracked s.2 s.1.worker)
    (hr : s.2.rebooting = true) : s.2.Edge ∨ ∃ k ≤ 10, s.1.worker.left = some k := by
  revert h
  cases s.1.worker with
  | checkEpoch x c | checkState x c | passed x c =>
    cases c with
    | start =>
      intro h
      simp [h.1.1] at hr
    | drop | back => exact fun _ => .inr ⟨_, by decide, rfl⟩
    | _ => exact fun h => .inl (h hr)
  | readPermFail | capture =>
    intro h
    simp [h.1] at hr
  | readReason x =>
    intro h
    simp [h.1.1] at hr
  | idle | writeHang _ | hangFlag _ | permFailCount _ | permFailWrite _ =>
    exact fun _ => .inr ⟨_, by decide, rfl⟩
  | _ => exact fun h => .inl (h hr)

/-- The rest of a run, by induction on what happens: a step of somebody else leaves the
worker where it is. -/
theorem ends_of_left {rest : List Label} {s t : State × Trace} {k : Nat}
    (inv : Tracked s.2 s.1.worker) (hr : s.2.rebooting = true) (hk : s.1.worker.left = some k)
    (hrun : Machine.run tracedStep s rest = some t)
    (late : Machine.Admissible tracedStep Late s rest) (hcount : k ≤ rest.countP Label.ofWorker) :
    ∃ before after u, rest = before ++ after ∧ Machine.run tracedStep s before = some u ∧
      (u.1.worker = .idle ∨ u.2.Edge) := by
  induction rest generalizing s k with
  | nil =>
    have hzero : k = 0 := Nat.le_zero.mp hcount
    exact ⟨[], [], s, rfl, rfl, .inl (Worker.idle_of_left (hzero ▸ hk))⟩
  | cons l rest ih =>
    obtain ⟨u, hu, hrest⟩ := (Machine.run_cons tracedStep).mp hrun
    have goOn : (∃ before after v, rest = before ++ after ∧
        Machine.run tracedStep u before = some v ∧ (v.1.worker = .idle ∨ v.2.Edge)) →
        ∃ before after v, l :: rest = before ++ after ∧
          Machine.run tracedStep s before = some v ∧ (v.1.worker = .idle ∨ v.2.Edge) := by
      rintro ⟨before, after, v, rfl, hbefore, hv⟩
      exact ⟨l :: before, after, v, rfl, (Machine.run_cons tracedStep).mpr ⟨u, hu, hbefore⟩, hv⟩
    have invU := step_tracked s l u inv hu
    have lateU := late.tail tracedStep hu
    obtain ⟨s, g⟩ := s
    obtain ⟨u, g'⟩ := u
    obtain ⟨hstep, rfl⟩ : step s l = some u ∧ g' = trace s l g :=
      (Machine.watched_eq_some step trace).mp hu
    cases step_moved hstep with
    | run hidle => exact ⟨[], .workerRun :: rest, (s, g), rfl, rfl, .inl hidle⟩
    | call l c hl =>
      rw [List.countP_cons_of_neg (by simp [ofWorker_call hl])] at hcount
      exact goOn (ih invU (by rw [trace_call hl]; exact hr) hk hrest lateU hcount)
    | caller i reset ready c d e m hi hc he hm =>
      rw [List.countP_cons_of_neg (by simp [Label.ofWorker])] at hcount
      exact goOn (ih invU hr hk hrest lateU hcount)
    | worker env e w m hw he hm =>
      rw [List.countP_cons_of_pos rfl] at hcount
      have hr' := rebooting_of_left env hr hk
      rcases worker_left hw late.1 hk with hping | ⟨j, hj, hleft⟩
      · exact goOn ⟨[], rest, _, rfl, rfl, .inr (Tracked.edge_of_pinging invU hr' hping)⟩
      · exact goOn (ih invU hr' hleft hrest lateU (by omega))

theorem Tracked.judged {s : State × Trace} (h : Tracked s.2 s.1.worker) : Judged s := by
  refine ⟨h.edge_of_pinging, h.closed, fun hr rest t hrun late hcount => ?_⟩
  rcases h.edge_or_left hr with edge | ⟨k, hk, hleft⟩
  · exact ⟨[], rest, s, rfl, rfl, .inr edge⟩
  · exact ends_of_left h hr hleft hrun late (Nat.le_trans hk hcount)

/-- **A reboot is taken over an edge only.** In every run, a readiness worker whose reason is
a CPU reset or a firmware update, with DLMSG mapped, is in its PING or past it only if it
has seen MAILBOX_READY cleared and at a later turn set, with its epoch and TRANSPORT_OK at
every turn; a run that has not writes no state but FW_HANG and PERM_FAIL, and ends. -/
theorem edge_before_ping {n : Nat} {ls : List Label} {s : State × Trace}
    (h : Machine.run tracedStep (tracedInitial n) ls = some s) : Judged s :=
  Tracked.judged (Machine.invariant tracedStep step_tracked (tracedInitial_tracked n) h)

/-- The mailbox is not ready yet. -/
def dropped : Env := {answering with ready := false}

/-- The firmware is updated; the worker sees the mailbox go and come back, and sends its
PING. -/
def updateRun : List Label :=
  .reboot .fwUpdate :: calls 0 10 ++ works answering 6 ++ List.replicate 4 (.worker dropped) ++
    List.replicate 3 (.worker answering)

theorem update_sees_edge :
    (Machine.run tracedStep (tracedInitial 5) updateRun).map (fun s => s.1.worker.pinging) =
      some true ∧
    ∀ s, Machine.run tracedStep (tracedInitial 5) updateRun = some s → s.2.Edge := by
  have hping : (Machine.run tracedStep (tracedInitial 5) updateRun).map
      (fun s => s.1.worker.pinging && s.2.rebooting) = some true := by decide
  refine ⟨by decide, fun s h => ?_⟩
  rw [h] at hping
  simp only [Option.map_some, Option.some.injEq, Bool.and_eq_true] at hping
  exact (edge_before_ping h).ping hping.2 hping.1

end DxNpuDriver.Rt.Readiness
