import DxNpuDriver.Kernel
import Mathlib.Algebra.Ring.Nat
import Mathlib.Tactic.Common

/-! A DMA channel as software sees it (`dw-edma-core.c`).

The channel has three state words, `configured`, `request` and `status`, and two of
the lists of its virtual channel, `submitted` and `issued`. The functions below are
the driver's own, each one `vc.lock` section; what they read from the hardware is an
argument. A descriptor is known by the transfer that made it and by how many chunks
it still has; the content of the chunks is the subject of other modules. -/
namespace DxNpuDriver.Edma.Channel

/-- `enum dw_edma_request`. -/
inductive Request where
  | none | stop | pause
  deriving DecidableEq, Repr

/-- The values of the enumeration, which `dw_edma_device_terminate_all` compares. -/
def Request.value : Request → Nat
  | .none => 0
  | .stop => 1
  | .pause => 2

/-- `enum dw_edma_status`. -/
inductive Status where
  | idle | pause | busy
  deriving DecidableEq, Repr

/-- What `dw_edma_v0_core_ch_status` makes of the two CS bits. -/
inductive DmaStatus where
  | complete | inProgress | error
  deriving DecidableEq

/-- `dw_edma_v0_core_ch_status`. -/
def chStatus (cs : Fin 4) : DmaStatus :=
  match cs with
  | 0 | 3 => .complete
  | 1 => .inProgress
  | 2 => .error

/-- A descriptor: its transfer, `chunks_alloc`, `lazy_mode`, and whether a Done has been
deferred to the worker that launches its next chunk. -/
structure Desc where
  owner : Nat
  chunks : Nat
  lazyMode : Bool
  handoff : Bool
  deriving DecidableEq, Repr

/-- `struct dw_edma_chan`, with `shutting_down` of its device. `completed` is
`desc_completed`, `cookies` are the transfers whose cookie is complete, and `starts`
counts the calls of `dw_edma_start_transfer`. -/
structure Chan where
  configured : Bool
  request : Request
  status : Status
  shuttingDown : Bool
  hwErr : Bool
  aborted : Bool
  xferStarted : Bool
  pendingLaunch : Option Nat
  submitted : List Desc
  issued : List Desc
  completed : List Nat
  cookies : List Nat
  starts : Nat
  deriving DecidableEq, Repr

/-- A channel after `dw_edma_channel_setup`. -/
def fresh : Chan :=
  ⟨false, .none, .idle, false, false, false, false, none, [], [], [], [], 0⟩

/-! ### Starting -/

/-- `list_del` and `vchan_cookie_complete` of the head `d` of the issued list. -/
def cookieComplete (c : Chan) (d : Desc) (rest : List Desc) : Chan :=
  {c with issued := rest, completed := c.completed ++ [d.owner], cookies := d.owner :: c.cookies}

/-- `dw_edma_start_transfer`. -/
def startTransfer (c : Chan) : Chan :=
  let c := {c with starts := c.starts + 1}
  if c.shuttingDown then {c with hwErr := true, status := .idle}
  else
    match c.issued with
    | [] => c
    | d :: rest =>
      -- a head without a chunk (or with an empty one) is completed by force
      if d.chunks = 0 then {cookieComplete c d rest with aborted := true, status := .idle}
      else {c with pendingLaunch := some d.owner}

/-- `dw_edma_device_config`. -/
def deviceConfig (c : Chan) : Chan :=
  {c with configured := true, aborted := false, xferStarted := false}

/-- `dmaengine_submit` of a prepared descriptor. -/
def submit (c : Chan) (d : Desc) : Chan := {c with submitted := c.submitted ++ [d]}

/-- `vchan_issue_pending`: the submitted list goes to the end of the issued one. -/
def vchanIssuePending (c : Chan) : Chan × Bool :=
  let c := {c with issued := c.issued ++ c.submitted, submitted := []}
  (c, !c.issued.isEmpty)

/-- `dw_edma_device_issue_pending`. The lists are touched only past the three tests. -/
def deviceIssuePending (c : Chan) : Chan :=
  if !c.shuttingDown ∧ c.configured ∧ c.request = .none ∧ c.status = .idle then
    let r := vchanIssuePending c
    if r.2 then startTransfer {r.1 with status := .busy} else r.1
  else c

/-- `dw_edma_device_pause`. -/
def devicePause (c : Chan) : Chan × Ret :=
  if !c.configured then (c, .err .EPERM)
  else if c.status ≠ .busy then (c, .err .EPERM)
  else if c.request ≠ .none then (c, .err .EPERM)
  else ({c with request := .pause}, .ok)

/-- `dw_edma_device_resume`. -/
def deviceResume (c : Chan) : Chan × Ret :=
  if !c.configured then (c, .err .EPERM)
  else if c.status ≠ .pause then (c, .err .EPERM)
  else if c.request ≠ .none then (c, .err .EPERM)
  else (startTransfer {c with status := .busy}, .ok)

/-! ### Workers -/

/-- The last section of `dw_edma_launch_work_fn`; `ready` is that the preparation went
well and that `dw_edma_shadow_launch_allowed`. -/
def launchWork (c : Chan) (ready : Bool) : Chan :=
  match c.pendingLaunch with
  | none => c
  | some owner =>
    let c := {c with pendingLaunch := none}
    if !ready ∨ c.aborted ∨ c.hwErr ∨ c.request = .stop ∨ c.status ≠ .busy then c
    else if (c.issued.head?.map (·.owner)) = some owner then {c with xferStarted := true}
    else {c with hwErr := true}

/-- The last section of `dw_edma_lazy_refill_work`, or with `shadow` that of
`dw_edma_shadow_build_work`, for a descriptor with a deferred Done; `ready` is that the
next chunk could be prepared. Only the first completes the descriptor on a stop. -/
def handoffWork (c : Chan) (shadow ready : Bool) : Chan :=
  match c.issued with
  | [] => c
  | d :: rest =>
    if !d.handoff then c
    else
      let c := {c with issued := {d with handoff := false} :: rest}
      if !ready then {c with hwErr := true}
      else if c.request = .stop ∧ !shadow then
        {cookieComplete c d rest with request := .none, status := .idle}
      else if c.request ≠ .none ∨ c.aborted ∨ c.hwErr then c
      else {c with status := .busy, xferStarted := true}

/-! ### Interrupts -/

/-- What `dw_edma_defer_lazy_done_locked` finds for a lazy descriptor: work for one of
its workers, a worker it cannot queue, no more SG entries, or a state it does not
expect. -/
inductive LazyDone where
  | handoff | noWorker | final | unexpected
  deriving DecidableEq

/-- `dw_edma_defer_lazy_done_locked`: whether the Done is consumed, the descriptor, and
what is added to `hw_err` and `aborted`. -/
def deferLazyDone (request : Request) (d : Desc) (l : LazyDone) : Bool × Desc × Bool × Bool :=
  if !d.lazyMode then (false, d, false, false)
  else if request = .stop then (false, {d with lazyMode := false}, false, false)
  else
    match l with
    | .handoff => (true, {d with handoff := true}, false, false)
    | .noWorker => (true, {d with lazyMode := false}, true, false)
    | .final => (false, d, false, false)
    | .unexpected => (false, {d with lazyMode := false}, false, true)

/-- The `switch` of `dw_edma_complete_done_locked`, for the head `d`. -/
def doneByRequest (c : Chan) (d : Desc) (rest : List Desc) : Chan :=
  match c.request with
  | .none =>
    if d.chunks ≠ 0 then startTransfer {c with status := .busy}
    else {cookieComplete c d rest with status := .idle}
  | .stop => {cookieComplete c d rest with request := .none, status := .idle}
  | .pause => {c with request := .none, status := .pause}

/-- `dw_edma_complete_done_locked`. -/
def completeDone (c : Chan) (l : LazyDone) : Chan :=
  let c := {c with xferStarted := false}
  match c.issued with
  | [] => c
  | d :: rest =>
    if d.chunks = 0 then doneByRequest c d rest
    else
      let r := deferLazyDone c.request d l
      let c := {c with hwErr := c.hwErr || r.2.2.1, aborted := c.aborted || r.2.2.2}
      if r.1 then {c with issued := r.2.1 :: rest}
      else
        -- the first chunk is the one that is done
        let d := {r.2.1 with chunks := r.2.1.chunks - 1}
        doneByRequest {c with issued := d :: rest} d rest

/-- `dw_edma_done_interrupt`, past the acknowledge. -/
def doneInterrupt (c : Chan) (l : LazyDone) : Chan :=
  if c.xferStarted then completeDone c l else c

/-- `dw_edma_abort_interrupt`. -/
def abortInterrupt (c : Chan) : Chan :=
  let c := {c with aborted := true}
  let c :=
    match c.issued with
    | [] => c
    | d :: rest => cookieComplete c d rest
  {c with request := .none, status := .idle}

/-! ### Stopping -/

/-- What `dw_edma_device_terminate_all` reads: the status, the raw status of the IDLE and
STOP branches, and whether a soft reset helped. -/
structure TerminateReads where
  cs : Fin 4
  csRaw : Fin 4
  softReset : Bool
  deriving DecidableEq

/-- A channel that runs, and a reset that helps. -/
def TerminateReads.running : TerminateReads := ⟨1, 1, true⟩

/-- `vchan_synchronize` and `vchan_get_all_descriptors`. -/
def drain (c : Chan) : Chan := {c with submitted := [], issued := [], completed := []}

/-- `dw_edma_device_terminate_all`. -/
def deviceTerminateAll (c : Chan) (r : TerminateReads) : Chan × Ret :=
  let c := {c with pendingLaunch := none}
  if !c.configured then (c, .ok)
  else if c.status = .pause then (drain {c with status := .idle, configured := false}, .ok)
  else if c.status = .idle then (drain {c with configured := false}, .ok)
  else if chStatus r.cs = .complete then
    -- the "false BUSY" branch: the request stays
    (drain {c with status := .idle, configured := false}, .ok)
  else if c.request.value > Request.pause.value then (c, .err .EPERM)
  else if c.request = .stop then
    let c := {c with hwErr := c.hwErr || (decide (r.csRaw = 2) && !r.softReset)}
    (drain {c with request := .none, status := .idle, configured := false}, .ok)
  else ({c with request := .stop}, .ok)

/-- Everything a terminate call can do. -/
theorem terminate_cases (c : Chan) (r : TerminateReads) :
    (c.configured = false ∧
      (deviceTerminateAll c r).1 = {c with pendingLaunch := none}) ∨
    (c.configured = true ∧ (c.status ≠ .busy ∨ chStatus r.cs = .complete) ∧
      (deviceTerminateAll c r).1 =
        drain {c with pendingLaunch := none, status := .idle, configured := false}) ∨
    (c.configured = true ∧ c.status = .busy ∧ chStatus r.cs ≠ .complete ∧ c.request = .stop ∧
      ∃ e, (deviceTerminateAll c r).1 = drain {c with
        pendingLaunch := none, hwErr := e, request := .none, status := .idle,
        configured := false}) ∨
    (c.configured = true ∧ c.status = .busy ∧ chStatus r.cs ≠ .complete ∧ c.request ≠ .stop ∧
      (deviceTerminateAll c r).1 = {c with pendingLaunch := none, request := .stop}) := by
  have hvalue : ¬ c.request.value > Request.pause.value := by
    cases c.request <;> decide
  cases hconf : c.configured with
  | false => exact .inl ⟨rfl, by simp [deviceTerminateAll, hconf]⟩
  | true =>
    cases hstatus : c.status with
    | pause =>
      exact .inr (.inl ⟨rfl, .inl (by simp), by simp [deviceTerminateAll, hconf, hstatus]⟩)
    | idle =>
      exact .inr (.inl ⟨rfl, .inl (by simp), by simp [deviceTerminateAll, hconf, hstatus, drain]⟩)
    | busy =>
      by_cases hcs : chStatus r.cs = .complete
      · exact .inr (.inl ⟨rfl, .inr hcs, by simp [deviceTerminateAll, hconf, hstatus, hcs]⟩)
      · by_cases hstop : c.request = .stop
        · refine .inr (.inr (.inl ⟨rfl, rfl, hcs, hstop,
            c.hwErr || (decide (r.csRaw = 2) && !r.softReset), ?_⟩))
          simp [deviceTerminateAll, hconf, hstatus, hcs, hstop, Request.value]
        · refine .inr (.inr (.inr ⟨rfl, rfl, hcs, hstop, ?_⟩))
          simp [deviceTerminateAll, hconf, hstatus, hcs, hstop, hvalue]

/-- The loop over the channels in `edma_reprogram_hw`, and again in
`dx_dma_full_reinit`. -/
def resetSw (c : Chan) : Chan := {c with hwErr := false, aborted := false, status := .idle}

/-- How far `dx_dma_full_reinit` gets: the registers cannot be reached, the restore or
the link validation fails after `edma_reprogram_hw`, or all is well. -/
inductive Reinit where
  | dead | invalid | live
  deriving DecidableEq

/-- `dx_dma_full_reinit`, for one channel. -/
def fullReinit (c : Chan) : Reinit → Chan
  | .dead => c
  | .invalid => resetSw c
  | .live => resetSw (resetSw c)

end DxNpuDriver.Edma.Channel
