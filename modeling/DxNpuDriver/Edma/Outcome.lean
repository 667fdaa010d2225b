import DxNpuDriver.Edma.Channel
import DxNpuDriver.Lib.Program
import Mathlib.Data.Fintype.Fin

/-! What a transfer reports (`dw_edma_sg_process` and its callers).

The result of a transfer is a field of a zeroed record, `cb->result`, that every exit sets
or leaves. An exit that leaves it makes a success of a transfer that never ran; there is
one, a `dma_map_sg` that maps nothing (`zero_iff_happened`). The field is a `char`, which
is unsigned on some machines and in newer kernels: there an error comes back as a small
positive number, which a caller that compares it with its count can take for the whole of
it (`count_iff`). -/
namespace DxNpuDriver.Edma.Outcome

def EIO : Int := 5
def EBUSY : Int := 16
def ENODEV : Int := 19
def EINVAL : Int := 22
def ETIMEDOUT : Int := 110
def ERESTARTSYS : Int := 512

/-- `enum dma_status`. -/
inductive DmaStatus where
  | complete | inProgress | paused | error
  deriving DecidableEq

/-- What a `wait_event_timeout` returns: `-ERESTARTSYS`, 0, or the time that is left. -/
inductive WaitEnd where
  | signal | elapsed | remaining
  deriving DecidableEq

/-- What the functions below read and do. -/
inductive Op where
  /-- `dw_edma_run_chan_lock` finds the lock of the channel. -/
  | chanLock
  | tryAcquire
  /-- `dma_map_sg` maps something. -/
  | mapSg
  | startEpoch
  /-- `dev_state` is `DX_DEV_LIVE`. -/
  | live
  | prep
  /-- `done`, `hw_err` and `aborted` are set to false. -/
  | resetFlags
  /-- `dmaengine_submit` gives a cookie. -/
  | submit
  | issuePending
  /-- The deadline has passed, after it was moved for progress. -/
  | expired
  | wait (interruptible : Bool)
  | done
  | hwErr
  /-- `recovery_epoch` is not `start_epoch`. -/
  | epochChanged
  | aborted
  | clearAborted
  /-- `dma_async_is_tx_complete`. -/
  | txStatus
  | taskletHiSchedule
  | taskletKill
  | chStatusRaw
  | terminateAll
  | enqueueEvent
  | unmapSg
  | releaseOwnership
  | unpublish
  | sgFreeTable
  /-- `char_sgdma_map_user_buf_to_sgl`, and the error it returns. -/
  | mapUserBuf
  | unmapUserBuf
  /-- The channel of the transfer is allocated. -/
  | dmaChan
  /-- `info->done`. -/
  | infoDone
  deriving DecidableEq

/-- `MAX_ERRNO`. -/
def maxErrno : Nat := 4095

@[reducible] def Op.Val : Op → Type
  | .chanLock | .tryAcquire | .mapSg | .live | .prep | .submit | .expired | .done | .hwErr
  | .epochChanged | .aborted | .dmaChan | .infoDone => Bool
  | .wait _ => WaitEnd
  | .txStatus => DmaStatus
  | .chStatusRaw => Fin 4
  | .mapUserBuf => Option (Fin maxErrno)
  | .startEpoch | .resetFlags | .issuePending | .clearAborted | .taskletHiSchedule | .taskletKill
  | .terminateAll | .enqueueEvent | .unmapSg | .releaseOwnership | .unpublish | .sgFreeTable
  | .unmapUserBuf => Unit

def Op.values : ∀ o : Op, List o.Val
  | .chanLock | .tryAcquire | .mapSg | .live | .prep | .submit | .expired | .done | .hwErr
  | .epochChanged | .aborted | .dmaChan | .infoDone => [false, true]
  | .wait _ => [.signal, .elapsed, .remaining]
  | .txStatus => [.complete, .inProgress, .paused, .error]
  | .chStatusRaw => List.finRange 4
  | .mapUserBuf => none :: (List.finRange maxErrno).map some
  | .startEpoch | .resetFlags | .issuePending | .clearAborted | .taskletHiSchedule | .taskletKill
  | .terminateAll | .enqueueEvent | .unmapSg | .releaseOwnership | .unpublish | .sgFreeTable
  | .unmapUserBuf => [()]

theorem Op.mem_values : ∀ (o : Op) (v : o.Val), v ∈ o.values := by
  intro o
  cases o with
  | chStatusRaw => exact List.mem_finRange
  | mapUserBuf =>
    intro v
    cases v with
    | none => exact List.mem_cons_self
    | some e => exact List.mem_cons_of_mem _ (List.mem_map_of_mem (List.mem_finRange e))
  | _ => intro v; cases v <;> simp [Op.values]

abbrev access : Access := ⟨Op, Op.Val, Op.values, Op.mem_values⟩

abbrev Code (α : Type) := Prog access α

def chanLock : Code Bool := .call (A := access) .chanLock
def tryAcquire : Code Bool := .call (A := access) .tryAcquire
def mapSg : Code Bool := .call (A := access) .mapSg
def startEpoch : Code Unit := .call (A := access) .startEpoch
def live : Code Bool := .call (A := access) .live
def prep : Code Bool := .call (A := access) .prep
def resetFlags : Code Unit := .call (A := access) .resetFlags
def submit : Code Bool := .call (A := access) .submit
def issuePending : Code Unit := .call (A := access) .issuePending
def expired : Code Bool := .call (A := access) .expired
def wait (interruptible : Bool) : Code WaitEnd := .call (A := access) (.wait interruptible)
def done : Code Bool := .call (A := access) .done
def hwErr : Code Bool := .call (A := access) .hwErr
def epochChanged : Code Bool := .call (A := access) .epochChanged
def aborted : Code Bool := .call (A := access) .aborted
def clearAborted : Code Unit := .call (A := access) .clearAborted
def txStatus : Code DmaStatus := .call (A := access) .txStatus
def taskletHiSchedule : Code Unit := .call (A := access) .taskletHiSchedule
def taskletKill : Code Unit := .call (A := access) .taskletKill
def chStatusRaw : Code (Fin 4) := .call (A := access) .chStatusRaw
def terminateAll : Code Unit := .call (A := access) .terminateAll
def enqueueEvent : Code Unit := .call (A := access) .enqueueEvent
def unmapSg : Code Unit := .call (A := access) .unmapSg
def releaseOwnership : Code Unit := .call (A := access) .releaseOwnership
def unpublish : Code Unit := .call (A := access) .unpublish
def sgFreeTable : Code Unit := .call (A := access) .sgFreeTable
def mapUserBuf : Code (Option (Fin maxErrno)) := .call (A := access) .mapUserBuf
def unmapUserBuf : Code Unit := .call (A := access) .unmapUserBuf
def dmaChan : Code Bool := .call (A := access) .dmaChan
def infoDone : Code Bool := .call (A := access) .infoDone

/-! ### Waiting -/

/-- `done->done || hw_err`. -/
def finished : Code Bool := do
  if ← done then return true
  hwErr

/-- `recovery_epoch != start_epoch || hw_err`. -/
def disturbed : Code Bool := do
  if ← epochChanged then return true
  hwErr

/-- What `dw_edma_wait_done` returns: `-ERESTARTSYS`, 0, or more. -/
inductive WaitRet where
  | signal | nothing | progress
  deriving DecidableEq

/-- `dw_edma_wait_done`, or `none` while it still waits. -/
def waitDone (interruptible : Bool) : Nat → Code (Option WaitRet)
  | 0 => return none
  | fuel + 1 => do
    if ← expired then return some .nothing
    let ret ← wait interruptible
    if interruptible ∧ ret = .signal then return some .signal
    if ← finished then return some .progress
    if ← epochChanged then return some .nothing
    waitDone interruptible fuel

/-- `dw_edma_check_done`. -/
def checkDone : Code Int := do
  if ← disturbed then return - EIO
  return if ← done then 0 else 1

/-- `dw_edma_rewait_done`. -/
def rewaitDone (interruptible : Bool) : Code Int := do
  let _ ← wait interruptible
  checkDone

/-- `dw_edma_try_late_callback_recovery`. -/
def tryLateCallbackRecovery : Code Int := do
  if (← txStatus) ≠ .complete then return 1
  taskletHiSchedule
  let rc ← rewaitDone false
  if rc ≤ 0 then return rc
  taskletKill
  let rc ← checkDone
  if rc ≤ 0 then return rc
  return - EIO

/-- `dw_edma_grace_rewait`, with the `cs` it leaves. -/
def graceRewait (cs : Fin 4) : Code (Int × Fin 4) := do
  let rc ← rewaitDone true
  if rc ≤ 0 then return (rc, cs)
  return (1, ← chStatusRaw)

/-- `dw_edma_recover_cs2_error`. -/
def recoverCs2Error (cs : Fin 4) : Code Int := do
  if cs.val ≠ 2 then return 1
  terminateAll
  terminateAll
  let cs ← chStatusRaw
  if cs.val = 0 ∨ cs.val = 3 then return - EIO
  enqueueEvent
  return - EIO

/-- `dw_edma_stuck_graceful_then_force`. -/
def stuckGracefulThenForce : Code Int := do
  terminateAll
  let rc ← rewaitDone false
  if rc ≤ 0 then return if rc = 0 then - EIO else rc
  let _ ← chStatusRaw
  terminateAll
  enqueueEvent
  return -ETIMEDOUT

/-- `dw_edma_handle_wait_timeout`. -/
def handleWaitTimeout : Code Int := do
  let rc ← tryLateCallbackRecovery
  if rc ≠ 1 then return rc
  let cs ← chStatusRaw
  let (rc, cs) ← graceRewait cs
  if rc ≠ 1 then return rc
  let rc ← recoverCs2Error cs
  if rc ≠ 1 then return rc
  stuckGracefulThenForce

/-- `DX_POST_SIGNAL_DRAIN_MAX_STALLS`. -/
def maxStalls : Nat := 2

/-- The loop after a signal, past `stalls` windows without progress: whether it gives up, or
`none` while it still waits. -/
def signalDrain (stalls : Nat) : Nat → Code (Option Bool)
  | 0 => return none
  | fuel + 1 => do
    if ← finished then return some false
    if ← epochChanged then return some false
    match ← waitDone false fuel with
    | none => return none
    | some ret =>
      if ← finished then return some false
      if ← epochChanged then return some false
      if ret = .progress then signalDrain 0 fuel
      else if maxStalls ≤ stalls + 1 then return some true
      else signalDrain (stalls + 1) fuel

/-! ### The transfer -/

section Transfer
variable (signed : Bool)

/-- What a `char` makes of an error, on a machine whose `char` is signed or is not. -/
def toChar (err : Int) : Int := if signed then err.bmod 256 else err % 256

/-- `enum dw_edma_fail_action`. -/
inductive FailAction where
  | noHwTouch | terminateOnce | terminateTwice

/-- `dw_edma_finalize_failed_transfer`: the `cb->result` it leaves. -/
def finalizeFailed (err : Int) (action : FailAction) : Code Int := do
  match action with
  | .terminateTwice =>
    terminateAll
    terminateAll
  | .terminateOnce => terminateAll
  | .noHwTouch => pure ()
  return toChar signed (if err = 0 then - EIO else err)

/-- From the label `err_alloc_descs` on: the return value, and `cb->result`. -/
def errAllocDescs (owned : Bool) (result : Int) : Code (Option (Int × Int)) := do
  if owned then releaseOwnership
  unpublish
  sgFreeTable
  return some (result, result)

/-- From the label `err_stats` on; `failed` is that one of the counters is not zero. -/
def errStats (preMapped failed : Bool) (result : Int) : Code (Option (Int × Int)) := do
  if !preMapped then unmapSg
  errAllocDescs true (if failed ∧ result = 0 then toChar signed (- EIO) else result)

/-- From the final completion checks on. -/
def finalChecks (preMapped failed : Bool) (result : Int) : Code (Option (Int × Int)) := do
  if ← disturbed then errStats signed preMapped failed (toChar signed (- EIO))
  else if result ≠ 0 then errStats signed preMapped failed result
  else
    let status ← txStatus
    if ← aborted then
      clearAborted
      errStats signed preMapped failed (← finalizeFailed signed (- EIO) .terminateTwice)
    else if status ≠ .complete then
      errStats signed preMapped true (← finalizeFailed signed (- EIO) .terminateOnce)
    else errStats signed preMapped failed 0

/-- From the end of the wait on, with what it returned. -/
def awaited (preMapped : Bool) (fuel : Nat) (ret : WaitRet) : Code (Option (Int × Int)) := do
  if ← epochChanged then errStats signed preMapped false (toChar signed (- EIO))
  else if ← hwErr then
    finalChecks signed preMapped false (← finalizeFailed signed (- EIO) .terminateTwice)
  else if ret = .signal then
    match ← signalDrain 0 fuel with
    | none => return none
    | some true => errStats signed preMapped false (← finalizeFailed signed (- EIO) .terminateTwice)
    | some false =>
      if ← disturbed then errStats signed preMapped false (toChar signed (- EIO))
      else finalChecks signed preMapped false 0
  else if !(← done) then
    let rc ← handleWaitTimeout
    if rc ≠ 0 then finalChecks signed preMapped true (← finalizeFailed signed rc .noHwTouch)
    else finalChecks signed preMapped false 0
  else finalChecks signed preMapped false 0

/-- From the admission gate on. -/
def admitted (preMapped : Bool) (fuel : Nat) : Code (Option (Int × Int)) := do
  startEpoch
  if !(← live) then errStats signed preMapped false (toChar signed (- EIO))
  else if !(← prep) then errStats signed preMapped true 0
  else
    resetFlags
    if !(← submit) then errStats signed preMapped true 0
    else
      issuePending
      match ← waitDone true fuel with
      | none => return none
      | some ret => awaited signed preMapped fuel ret

/-- The ownership of the channel is taken. -/
def acquire : Code Bool := do
  if !(← chanLock) then return false
  tryAcquire

/-- `dw_edma_sg_process`: its return value and `cb->result`, or `none` while it still waits.
A mapping that fails leaves `cb->result` as it was. -/
def sgProcess (preMapped chan : Bool) (fuel : Nat) : Code (Option (Int × Int)) := do
  if !chan then return some (-1, 0)
  else if !(← acquire) then errAllocDescs false (toChar signed (-EBUSY))
  else if preMapped then admitted signed preMapped fuel
  else if !(← mapSg) then errAllocDescs true 0
  else admitted signed preMapped fuel

/-! ### Its callers -/

def maxDevNum : Int := 64

/-- `dw_edma_run`. -/
def run (preMapped chan : Bool) (devN : Int) (fuel : Nat) : Code (Option (Int × Int)) := do
  if devN < 0 ∨ maxDevNum ≤ devN then return some (-EINVAL, 0)
  else if !(← infoDone) then return some (-EBUSY, 0)
  else sgProcess signed preMapped chan fuel

/-- What a caller makes of it: a `ssize_t` of 64 bits. -/
def checkResult (count : Nat) (r : Int × Int) : Int :=
  if r.1 = 0 then if r.2 ≠ 0 then -ERESTARTSYS else (count : Int).bmod (2 ^ 64) else r.1

/-- What the callers read of a device. -/
structure Dw where
  idx : Int
  wrChCnt : Nat

/-- `DX_H2C_DATA_CH_CNT`. -/
def h2cDataChCnt : Nat := 2

/-- `dx_sgdma_write_user` and `dx_sgdma_read_user`, with the number of their channels. -/
def userTransfer (channels : Dw → Nat) (fuel : Nat) (dw : Option Dw) (count : Nat) (npuId : Int) :
    Code (Option Int) := do
  match dw with
  | none => return some 0
  | some dw =>
    if npuId < 0 ∨ (channels dw : Int) ≤ npuId then return some (-EINVAL)
    else
      match ← mapUserBuf with
      | some e => return some (-(e + 1 : Nat))
      | none =>
        if !(← dmaChan) then
          unmapUserBuf
          return some (-ENODEV)
        else
          let r ← run signed false (← dmaChan) dw.idx fuel
          unmapUserBuf
          return r.map (checkResult count)

/-- `dx_sgdma_write_user`. -/
def writeUser (fuel : Nat) (dw : Option Dw) (count : Nat) (npuId : Int) : Code (Option Int) :=
  userTransfer signed (fun _ => h2cDataChCnt) fuel dw count npuId

/-- `dx_sgdma_read_user`. -/
def readUser (fuel : Nat) (dw : Option Dw) (count : Nat) (npuId : Int) : Code (Option Int) :=
  userTransfer signed Dw.wrChCnt fuel dw count npuId

/-- `dx_sgdma_write_kernel`: its buffer is mapped, and whether its table could be allocated
is not looked at. -/
def writeKernel (fuel : Nat) (dw : Option Dw) (count : Nat) (npuId : Int) : Code (Option Int) := do
  match dw with
  | none => return some 0
  | some dw =>
    if npuId < 0 ∨ (h2cDataChCnt : Int) ≤ npuId then return some (-EINVAL)
    else if !(← dmaChan) then return some (-ENODEV)
    else
      let r ← run signed true (← dmaChan) dw.idx fuel
      return r.map (checkResult count)

end Transfer

/-! ### Whether it happened -/

/-- What is on record of a path: what was submitted and issued, and what the last read of
each word saw. -/
structure Seen where
  unmapped : Bool
  submitted : Bool
  issued : Bool
  complete : Bool
  aborted : Bool
  hwErr : Bool
  epochChanged : Bool

def unseen : Seen := ⟨false, false, false, false, false, false, false⟩

def track (s : Seen) : (o : Op) → o.Val → Seen
  | .mapSg, v => {s with unmapped := !v}
  | .startEpoch, _ => {s with epochChanged := false}
  | .resetFlags, _ => {s with hwErr := false, aborted := false}
  | .submit, v => {s with submitted := v}
  | .issuePending, _ => {s with issued := s.submitted}
  | .txStatus, v => {s with complete := v = .complete}
  | .aborted, v => {s with aborted := v}
  | .clearAborted, _ => {s with aborted := false}
  | .hwErr, v => {s with hwErr := v}
  | .epochChanged, v => {s with epochChanged := v}
  | _, _ => s

/-- A descriptor of the transfer was issued and its cookie is complete, and nothing speaks
against it. -/
def Happened (s : Seen) : Prop :=
  s.submitted = true ∧ s.issued = true ∧ s.complete = true ∧ s.aborted = false ∧
    s.hwErr = false ∧ s.epochChanged = false

instance (s : Seen) : Decidable (Happened s) := inferInstanceAs (Decidable (_ ∧ _))

/-- Nothing was mapped, submitted or issued in between. -/
structure Kept (s t : Seen) : Prop where
  unmapped : t.unmapped = s.unmapped
  submitted : t.submitted = s.submitted
  issued : t.issued = s.issued

theorem Kept.refl (s : Seen) : Kept s s := ⟨rfl, rfl, rfl⟩

theorem Kept.trans {s t u : Seen} (h : Kept s t) (k : Kept t u) : Kept s u :=
  ⟨k.unmapped.trans h.unmapped, k.submitted.trans h.submitted, k.issued.trans h.issued⟩

/-- The code maps, submits and issues nothing, and returns what meets `good`. -/
def Yields {α : Type} (p : Code α) (good : α → Prop) : Prop :=
  ∀ s post, (∀ a t, Kept s t → good a → post a t) → p.wp track post s

section Yields
variable {α β : Type} {p : Code α} {good : α → Prop}

theorem yields_pure {a : α} (h : good a) : Yields (pure a) good :=
  fun s _ post => post a s (Kept.refl s) h

theorem Yields.bind {f : α → Code β} {fine : β → Prop} (h : Yields p good)
    (k : ∀ a, good a → Yields (f a) fine) : Yields (p >>= f) fine := by
  intro s post hpost
  rw [Prog.wp_bind]
  refine h s _ fun a t hst ha => ?_
  exact k a ha t post fun b u htu hb => hpost b u (hst.trans htu) hb

theorem yields_ite {c : Prop} [Decidable c] {q : Code α} (h : c → Yields p good)
    (k : ¬ c → Yields q good) : Yields (if c then p else q) good := by
  split
  case isTrue hc => exact h hc
  case isFalse hc => exact k hc

theorem Yields.mono {fine : α → Prop} (h : Yields p good) (k : ∀ a, good a → fine a) :
    Yields p fine :=
  fun s post hpost => h s post fun a t hst ha => hpost a t hst (k a ha)

/-- The accesses other than the mapping, the submit and the issue. -/
def quiet : Op → Bool
  | .mapSg | .submit | .issuePending => false
  | _ => true

theorem yields_call {o : Op} (ho : quiet o = true) :
    Yields (Prog.call (A := access) o) fun _ => True := by
  intro s post hpost v
  refine hpost v _ ?_ trivial
  cases o with
  | mapSg | submit | issuePending => cases ho
  | _ => exact ⟨rfl, rfl, rfl⟩

end Yields

theorem yields_finished : Yields finished fun _ => True := by
  refine (yields_call rfl : Yields done _).bind fun b _ => ?_
  exact yields_ite (fun _ => yields_pure trivial) fun _ => (yields_call rfl : Yields hwErr _)

theorem yields_disturbed : Yields disturbed fun _ => True := by
  refine (yields_call rfl : Yields epochChanged _).bind fun b _ => ?_
  exact yields_ite (fun _ => yields_pure trivial) fun _ => (yields_call rfl : Yields hwErr _)

theorem yields_waitDone (interruptible : Bool) (fuel : Nat) :
    Yields (waitDone interruptible fuel) fun _ => True := by
  induction fuel with
  | zero => exact yields_pure trivial
  | succ fuel ih =>
    refine (yields_call rfl : Yields expired _).bind fun b _ => ?_
    refine yields_ite (fun _ => yields_pure trivial) fun _ => ?_
    refine (yields_call rfl : Yields (wait interruptible) _).bind fun ret _ => ?_
    refine yields_ite (fun _ => yields_pure trivial) fun _ => ?_
    refine yields_finished.bind fun b _ => ?_
    refine yields_ite (fun _ => yields_pure trivial) fun _ => ?_
    refine (yields_call rfl : Yields epochChanged _).bind fun b _ => ?_
    exact yields_ite (fun _ => yields_pure trivial) fun _ => ih

theorem yields_checkDone : Yields checkDone fun rc => rc = 0 ∨ rc = - EIO ∨ rc = 1 := by
  refine yields_disturbed.bind fun b _ => ?_
  refine yields_ite (fun _ => yields_pure (.inr (.inl rfl))) fun _ => ?_
  refine (yields_call rfl : Yields done _).bind fun b _ => yields_pure ?_
  cases b with
  | false => exact .inr (.inr rfl)
  | true => exact .inl rfl

theorem yields_rewaitDone (interruptible : Bool) :
    Yields (rewaitDone interruptible) fun rc => rc = 0 ∨ rc = - EIO ∨ rc = 1 :=
  (yields_call rfl : Yields (wait interruptible) _).bind fun _ _ => yields_checkDone

/-- What a stage returns that does not fall through. -/
def Resolved (rc : Int) : Prop := rc = 0 ∨ rc = - EIO ∨ rc = -ETIMEDOUT

theorem resolved_of_nonpos {rc : Int} (h : rc = 0 ∨ rc = - EIO ∨ rc = 1) (hrc : rc ≤ 0) :
    Resolved rc := by
  obtain rfl | rfl | rfl := h
  · exact .inl rfl
  · exact .inr (.inl rfl)
  · exact absurd hrc (by decide)

theorem yields_tryLateCallbackRecovery :
    Yields tryLateCallbackRecovery fun rc => rc = 1 ∨ Resolved rc := by
  refine (yields_call rfl : Yields txStatus _).bind fun status _ => ?_
  refine yields_ite (fun _ => yields_pure (.inl rfl)) fun _ => ?_
  refine (yields_call rfl : Yields taskletHiSchedule _).bind fun _ _ => ?_
  refine (yields_rewaitDone false).bind fun rc hrc => ?_
  refine yields_ite (fun hle => yields_pure (.inr (resolved_of_nonpos hrc hle))) fun _ => ?_
  refine (yields_call rfl : Yields taskletKill _).bind fun _ _ => ?_
  refine yields_checkDone.bind fun rc hrc => ?_
  refine yields_ite (fun hle => yields_pure (.inr (resolved_of_nonpos hrc hle))) fun _ => ?_
  exact yields_pure (.inr (.inr (.inl rfl)))

theorem yields_graceRewait (cs : Fin 4) :
    Yields (graceRewait cs) fun r => r.1 = 1 ∨ Resolved r.1 := by
  refine (yields_rewaitDone true).bind fun rc hrc => ?_
  refine yields_ite (fun hle => yields_pure (.inr (resolved_of_nonpos hrc hle))) fun _ => ?_
  exact (yields_call rfl : Yields chStatusRaw _).bind fun cs _ => yields_pure (.inl rfl)

theorem yields_recoverCs2Error (cs : Fin 4) :
    Yields (recoverCs2Error cs) fun rc => rc = 1 ∨ Resolved rc := by
  refine yields_ite (fun _ => yields_pure (.inl rfl)) fun _ => ?_
  refine (yields_call rfl : Yields terminateAll _).bind fun _ _ => ?_
  refine (yields_call rfl : Yields terminateAll _).bind fun _ _ => ?_
  refine (yields_call rfl : Yields chStatusRaw _).bind fun cs _ => ?_
  refine yields_ite (fun _ => yields_pure (.inr (.inr (.inl rfl)))) fun _ => ?_
  exact (yields_call rfl : Yields enqueueEvent _).bind fun _ _ => yields_pure (.inr (.inr (.inl rfl)))

theorem yields_stuckGracefulThenForce : Yields stuckGracefulThenForce Resolved := by
  refine (yields_call rfl : Yields terminateAll _).bind fun _ _ => ?_
  refine (yields_rewaitDone false).bind fun rc hrc => ?_
  refine yields_ite (fun hle => yields_pure ?_) fun _ => ?_
  · split
    · exact .inr (.inl rfl)
    · exact resolved_of_nonpos hrc hle
  · refine (yields_call rfl : Yields chStatusRaw _).bind fun _ _ => ?_
    refine (yields_call rfl : Yields terminateAll _).bind fun _ _ => ?_
    refine (yields_call rfl : Yields enqueueEvent _).bind fun _ _ => ?_
    exact yields_pure (.inr (.inr rfl))

/-- Stage 4 always resolves. -/
theorem yields_handleWaitTimeout : Yields handleWaitTimeout Resolved := by
  have stage : ∀ {rc : Int}, rc = 1 ∨ Resolved rc → rc ≠ 1 → Resolved rc :=
    fun h hrc => h.resolve_left hrc
  refine yields_tryLateCallbackRecovery.bind fun rc hrc => ?_
  refine yields_ite (fun hne => yields_pure (stage hrc hne)) fun _ => ?_
  refine (yields_call rfl : Yields chStatusRaw _).bind fun cs _ => ?_
  refine (yields_graceRewait cs).bind fun r hr => ?_
  refine yields_ite (fun hne => yields_pure (stage hr hne)) fun _ => ?_
  refine (yields_recoverCs2Error r.2).bind fun rc hrc => ?_
  exact yields_ite (fun hne => yields_pure (stage hrc hne)) fun _ => yields_stuckGracefulThenForce

theorem yields_signalDrain (stalls fuel : Nat) : Yields (signalDrain stalls fuel) fun _ => True := by
  induction fuel generalizing stalls with
  | zero => exact yields_pure trivial
  | succ fuel ih =>
    refine yields_finished.bind fun b _ => ?_
    refine yields_ite (fun _ => yields_pure trivial) fun _ => ?_
    refine (yields_call rfl : Yields epochChanged _).bind fun b _ => ?_
    refine yields_ite (fun _ => yields_pure trivial) fun _ => ?_
    refine (yields_waitDone false fuel).bind fun ret _ => ?_
    cases ret with
    | none => exact yields_pure trivial
    | some ret =>
      refine yields_finished.bind fun b _ => ?_
      refine yields_ite (fun _ => yields_pure trivial) fun _ => ?_
      refine (yields_call rfl : Yields epochChanged _).bind fun b _ => ?_
      refine yields_ite (fun _ => yields_pure trivial) fun _ => ?_
      refine yields_ite (fun _ => ih 0) fun _ => ?_
      exact yields_ite (fun _ => yields_pure trivial) fun _ => ih (stalls + 1)

/-! ### The exits -/

section Exits
variable (signed : Bool)

/-- An error as the `char` gives it back. -/
def Failure (r : Int) : Prop :=
  r = toChar signed (- EIO) ∨ r = toChar signed (-EBUSY) ∨ r = toChar signed (-ETIMEDOUT)

theorem Failure.ne_zero {signed : Bool} {r : Int} (h : Failure signed r) : r ≠ 0 := by
  obtain rfl | rfl | rfl := h <;> cases signed <;> decide

theorem yields_finalizeFailed {err : Int} (action : FailAction) (herr : Resolved err) :
    Yields (finalizeFailed signed err action) (Failure signed) := by
  have hresult : Yields (pure (toChar signed (if err = 0 then - EIO else err)) : Code Int)
      (Failure signed) := by
    refine yields_pure ?_
    obtain rfl | rfl | rfl := herr
    · exact .inl rfl
    · exact .inl rfl
    · exact .inr (.inr rfl)
  cases action with
  | terminateTwice =>
    refine (yields_call rfl : Yields terminateAll _).bind fun _ _ => ?_
    exact (yields_call rfl : Yields terminateAll _).bind fun _ _ => hresult
  | terminateOnce => exact (yields_call rfl : Yields terminateAll _).bind fun _ _ => hresult
  | noHwTouch => exact hresult

/-- How a transfer ends, or that it still waits. -/
inductive Ends : Option (Int × Int) → Seen → Prop
  | waiting {t} : t.unmapped = false → Ends none t
  | happened {t} : t.unmapped = false → Happened t → Ends (some (0, 0)) t
  | failed {t e result} : t.unmapped = false → Failure signed e ∨ e < 0 →
    Ends (some (e, result)) t
  | unmapped {t} : t.unmapped = true → t.submitted = false → Ends (some (0, 0)) t

variable {signed} {s : Seen} {post : Option (Int × Int) → Seen → Prop}

/-- The clean-up is not on the record. -/
theorem wp_errAllocDescs {owned : Bool} {result : Int} (h : post (some (result, result)) s) :
    (errAllocDescs owned result).wp track post s := by
  cases owned with
  | true => exact fun _ _ _ => h
  | false => exact fun _ _ => h

theorem wp_errStats {preMapped failed : Bool} {result : Int}
    (h : ∀ r, r = (if failed ∧ result = 0 then toChar signed (- EIO) else result) →
      post (some (r, r)) s) :
    (errStats signed preMapped failed result).wp track post s := by
  have hrest : (errAllocDescs true (if failed ∧ result = 0 then toChar signed (- EIO)
      else result)).wp track post s := wp_errAllocDescs (h _ rfl)
  cases preMapped with
  | true => exact hrest
  | false => exact fun _ => hrest

/-- An exit with an error fails. -/
theorem wp_errStats_failure {preMapped failed : Bool} {result : Int}
    (hs : s.unmapped = false) (hresult : Failure signed result)
    (hpost : ∀ r t, Ends signed r t → post r t) :
    (errStats signed preMapped failed result).wp track post s := by
  refine wp_errStats fun r hr => hpost _ _ ?_
  rw [if_neg fun h => hresult.ne_zero h.2] at hr
  exact hr ▸ .failed hs (.inl hresult)

/-- An exit with a counter fails, whatever the result. -/
theorem wp_errStats_counted {preMapped : Bool} (hs : s.unmapped = false)
    (hpost : ∀ r t, Ends signed r t → post r t) :
    (errStats signed preMapped true 0).wp track post s := by
  refine wp_errStats fun r hr => hpost _ _ ?_
  rw [if_pos ⟨rfl, rfl⟩] at hr
  exact hr ▸ .failed hs (.inl (.inl rfl))

/-- Past the issue. -/
structure Issued (s : Seen) : Prop where
  unmapped : s.unmapped = false
  submitted : s.submitted = true
  issued : s.issued = true

theorem Issued.kept {t : Seen} (h : Issued s) (k : Kept s t) : Issued t :=
  ⟨k.unmapped.trans h.unmapped, k.submitted.trans h.submitted, k.issued.trans h.issued⟩

/-- The last checks let a success through only if it happened. -/
theorem wp_finalChecks {preMapped failed : Bool} {result : Int} (hs : Issued s)
    (hresult : result = 0 ∧ failed = false ∨ Failure signed result)
    (hpost : ∀ r t, Ends signed r t → post r t) :
    (finalChecks signed preMapped failed result).wp track post s := by
  have bad : ∀ {t : Seen} {failed : Bool}, Kept s t →
      (errStats signed preMapped failed (toChar signed (- EIO))).wp track post t :=
    fun k => wp_errStats_failure (hs.kept k).unmapped (.inl rfl) hpost
  have aborts : ∀ {t : Seen} {failed : Bool} (action : FailAction), Kept s t →
      (finalizeFailed signed (- EIO) action >>= errStats signed preMapped failed).wp track post t := by
    intro t failed action k
    rw [Prog.wp_bind]
    refine yields_finalizeFailed signed action (.inr (.inl rfl)) t _ fun r u htu hr => ?_
    exact wp_errStats_failure (hs.kept (k.trans htu)).unmapped hr hpost
  intro epoch
  cases epoch with
  | true => exact bad ⟨rfl, rfl, rfl⟩
  | false =>
    intro err
    cases err with
    | true => exact bad ⟨rfl, rfl, rfl⟩
    | false =>
      obtain ⟨rfl, rfl⟩ | hresult := hresult
      · intro status abort
        cases abort with
        | true => exact fun _ => aborts .terminateTwice ⟨rfl, rfl, rfl⟩
        | false =>
          cases status with
          | complete =>
            refine wp_errStats fun r hr => hpost _ _ ?_
            rw [if_neg (by decide)] at hr
            subst hr
            exact .happened hs.unmapped ⟨hs.submitted, hs.issued, rfl, rfl, rfl, rfl⟩
          | inProgress => exact aborts .terminateOnce ⟨rfl, rfl, rfl⟩
          | paused => exact aborts .terminateOnce ⟨rfl, rfl, rfl⟩
          | error => exact aborts .terminateOnce ⟨rfl, rfl, rfl⟩
      · show Prog.wp track (if result ≠ 0 then errStats signed preMapped failed result else _) post _
        rw [if_pos hresult.ne_zero]
        exact wp_errStats_failure hs.unmapped hresult hpost

theorem wp_finalizeThen {preMapped failed : Bool} {err : Int} (action : FailAction) (hs : Issued s)
    (herr : Resolved err) (hpost : ∀ r t, Ends signed r t → post r t) :
    (finalizeFailed signed err action >>= finalChecks signed preMapped failed).wp track post s := by
  rw [Prog.wp_bind]
  refine yields_finalizeFailed signed action herr s _ fun r t hst hr => ?_
  exact wp_finalChecks (hs.kept hst) (.inr hr) hpost

/-- However the wait ended. -/
theorem wp_awaited {preMapped : Bool} {fuel : Nat} {ret : WaitRet} (hs : Issued s)
    (hpost : ∀ r t, Ends signed r t → post r t) :
    (awaited signed preMapped fuel ret).wp track post s := by
  have bad : ∀ {t : Seen}, Kept s t →
      (errStats signed preMapped false (toChar signed (- EIO))).wp track post t :=
    fun k => wp_errStats_failure (hs.kept k).unmapped (.inl rfl) hpost
  intro epoch
  cases epoch with
  | true => exact bad ⟨rfl, rfl, rfl⟩
  | false =>
    intro err
    cases err with
    | true =>
      exact wp_finalizeThen .terminateTwice ⟨hs.unmapped, hs.submitted, hs.issued⟩ (.inr (.inl rfl)) hpost
    | false =>
      by_cases hret : ret = .signal
      · subst hret
        show Prog.wp track (signalDrain 0 fuel >>= _) post _
        rw [Prog.wp_bind]
        refine yields_signalDrain 0 fuel _ _ fun stop t hst _ => ?_
        have ht : Issued t := hs.kept ⟨hst.unmapped, hst.submitted, hst.issued⟩
        cases stop with
        | none => exact hpost _ _ (.waiting ht.unmapped)
        | some stop =>
          cases stop with
          | true =>
            show Prog.wp track (finalizeFailed signed (- EIO) .terminateTwice >>= _) post t
            rw [Prog.wp_bind]
            refine yields_finalizeFailed signed .terminateTwice (.inr (.inl rfl)) t _ fun r u htu hr => ?_
            exact wp_errStats_failure (ht.kept htu).unmapped hr hpost
          | false =>
            show Prog.wp track (disturbed >>= _) post t
            rw [Prog.wp_bind]
            refine yields_disturbed t _ fun b u htu _ => ?_
            cases b with
            | true => exact wp_errStats_failure (ht.kept htu).unmapped (.inl rfl) hpost
            | false => exact wp_finalChecks (ht.kept htu) (.inl ⟨rfl, rfl⟩) hpost
      · show Prog.wp (A := access) track (if ret = .signal then _ else _) post _
        rw [if_neg hret]
        intro finish
        cases finish with
        | true => exact wp_finalChecks ⟨hs.unmapped, hs.submitted, hs.issued⟩ (.inl ⟨rfl, rfl⟩) hpost
        | false =>
          show Prog.wp track (handleWaitTimeout >>= _) post _
          rw [Prog.wp_bind]
          refine yields_handleWaitTimeout _ _ fun rc t hst hrc => ?_
          have ht : Issued t := hs.kept ⟨hst.unmapped, hst.submitted, hst.issued⟩
          rw [Prog.wp_ite]
          split
          · exact wp_finalizeThen .noHwTouch ht hrc hpost
          · exact wp_finalChecks ht (.inl ⟨rfl, rfl⟩) hpost

theorem wp_admitted {preMapped : Bool} {fuel : Nat} (hs : s.unmapped = false)
    (hpost : ∀ r t, Ends signed r t → post r t) :
    (admitted signed preMapped fuel).wp track post s := by
  intro _ isLive
  cases isLive with
  | false => exact wp_errStats_failure hs (.inl rfl) hpost
  | true =>
    intro prepared
    cases prepared with
    | false => exact wp_errStats_counted hs hpost
    | true =>
      intro _ cookie
      cases cookie with
      | false => exact wp_errStats_counted hs hpost
      | true =>
        intro _
        show Prog.wp track (waitDone true fuel >>= _) post _
        rw [Prog.wp_bind]
        refine yields_waitDone true fuel _ _ fun ret t hst _ => ?_
        have ht : Issued t := ⟨hst.unmapped.trans hs, hst.submitted, hst.issued⟩
        cases ret with
        | none => exact hpost _ _ (.waiting ht.unmapped)
        | some ret => exact wp_awaited ht hpost

/-- Every exit of `dw_edma_sg_process`. -/
theorem wp_sgProcess {preMapped chan : Bool} {fuel : Nat} (hs : s.unmapped = false)
    (hsub : s.submitted = false) (hpost : ∀ r t, Ends signed r t → post r t) :
    (sgProcess signed preMapped chan fuel).wp track post s := by
  have hbusy : (errAllocDescs false (toChar signed (-EBUSY))).wp track post s :=
    wp_errAllocDescs (hpost _ _ (.failed hs (.inl (.inr (.inl rfl)))))
  cases chan with
  | false => exact hpost _ _ (.failed hs (.inr (by decide)))
  | true =>
    intro lock
    cases lock with
    | false => exact hbusy
    | true =>
      intro owned
      cases owned with
      | false => exact hbusy
      | true =>
        cases preMapped with
        | true => exact wp_admitted hs hpost
        | false =>
          intro mapped
          cases mapped with
          | false =>
            show (errAllocDescs true 0).wp track post {s with unmapped := true}
            exact wp_errAllocDescs (hpost _ _ (.unmapped rfl hsub))
          | true => exact wp_admitted rfl hpost

theorem wp_run {preMapped chan : Bool} {devN : Int} {fuel : Nat} (hs : s.unmapped = false)
    (hsub : s.submitted = false) (hpost : ∀ r t, Ends signed r t → post r t) :
    (run signed preMapped chan devN fuel).wp track post s := by
  unfold run
  rw [Prog.wp_ite]
  split
  · exact hpost _ _ (.failed hs (.inr (by decide)))
  · intro free
    cases free with
    | false => exact hpost _ _ (.failed hs (.inr (by decide)))
    | true => exact wp_sgProcess hs hsub hpost

end Exits

/-- A transfer returns 0 exactly if its descriptor was issued, its cookie is complete and
nothing has disturbed it, but for the one whose mapping fails. -/
theorem zero_iff_happened (signed preMapped chan : Bool) (fuel : Nat) :
    (sgProcess signed preMapped chan fuel).wp track
      (fun r t => ((∃ result, r = some (0, result)) → Happened t) ↔ t.unmapped = false) unseen := by
  refine wp_sgProcess rfl rfl fun r t ends => ?_
  cases ends with
  | waiting h => exact iff_of_true (by rintro ⟨_, ⟨⟩⟩) h
  | happened h happened => exact iff_of_true (fun _ => happened) h
  | failed h hfail =>
    refine iff_of_true ?_ h
    rintro ⟨result, hr⟩
    obtain ⟨rfl, -⟩ := Prod.mk.inj (Option.some.inj hr)
    obtain hfail | hneg := hfail
    · exact absurd rfl hfail.ne_zero
    · exact absurd hneg (by decide)
  | unmapped h hsub =>
    refine iff_of_false (fun happened => ?_) (by simp [h])
    have submitted := (happened ⟨0, rfl⟩).1
    rw [hsub] at submitted
    cases submitted

/-! ### What the callers report -/

inductive Caller where
  | writeUser | writeKernel | readUser

/-- Its code. -/
def Caller.code (signed : Bool) : Caller → Nat → Option Dw → Nat → Int → Code (Option Int)
  | .writeUser => Outcome.writeUser signed
  | .writeKernel => Outcome.writeKernel signed
  | .readUser => Outcome.readUser signed

/-- How many channels it has. -/
def Caller.channels : Caller → Dw → Nat
  | .writeUser | .writeKernel => fun _ => h2cDataChCnt
  | .readUser => Dw.wrChCnt

/-- A call whose count no failure can be taken for: the count is not 0 where there is no
device, nor, where a transfer is tried and `char` is unsigned, what is left of `-EIO`,
`-EBUSY` or `-ETIMEDOUT`. -/
def Unmistakable (signed : Bool) (c : Caller) (dw : Option Dw) (count : Nat) (npuId : Int) : Prop :=
  match dw with
  | none => count ≠ 0
  | some dw => 0 ≤ npuId → npuId < c.channels dw → 0 ≤ dw.idx → dw.idx < maxDevNum →
      signed = false → count ≠ 251 ∧ count ≠ 240 ∧ count ≠ 146

/-- What a caller returns. -/
inductive Returns (signed : Bool) (count : Nat) : Option Int → Seen → Prop
  | waiting {t} : Returns signed count none t
  | happened {t r} : Happened t → Returns signed count (some r) t
  | failed {t e} : Failure signed e ∨ e < 0 → Returns signed count (some e) t
  | unmapped {t r} : t.unmapped = true → Returns signed count (some r) t

theorem checkResult_err {count : Nat} {e result : Int} (h : e ≠ 0) :
    checkResult count (e, result) = e := if_neg h

theorem returns_of_ends {signed : Bool} {count : Nat} {r : Option (Int × Int)} {t : Seen}
    (h : Ends signed r t) : Returns signed count (r.map (checkResult count)) t := by
  cases h with
  | waiting _ => exact .waiting
  | happened _ happened => exact .happened happened
  | unmapped h _ => exact .unmapped h
  | @failed _ e result _ hfail =>
    have hne : e ≠ 0 := by
      obtain hfail | hneg := hfail
      · exact hfail.ne_zero
      · exact hneg.ne
    rw [Option.map_some, checkResult_err hne]
    exact .failed hfail

section Callers
variable {signed : Bool} {count : Nat} {post : Option Int → Seen → Prop} {fuel : Nat}

theorem wp_userTransfer (channels : Dw → Nat) {dw : Dw} {npuId : Int}
    (hpost : ∀ r t, Returns signed count r t → post r t) :
    (userTransfer signed channels fuel (some dw) count npuId).wp track post unseen := by
  simp only [userTransfer]
  rw [Prog.wp_ite]
  split
  · exact hpost _ _ (.failed (.inr (by decide)))
  · intro mapped
    cases mapped with
    | some e => exact hpost _ _ (.failed (.inr (by omega)))
    | none =>
      intro chan
      cases chan with
      | false => exact fun _ => hpost _ _ (.failed (.inr (by decide)))
      | true =>
        intro chan
        show Prog.wp track (run signed false chan dw.idx fuel >>= _) post unseen
        rw [Prog.wp_bind]
        refine wp_run rfl rfl fun r t ends => ?_
        exact fun _ => hpost _ _ (returns_of_ends ends)

theorem wp_writeKernel {dw : Dw} {npuId : Int}
    (hpost : ∀ r t, Returns signed count r t → post r t) :
    (writeKernel signed fuel (some dw) count npuId).wp track post unseen := by
  simp only [writeKernel]
  rw [Prog.wp_ite]
  split
  · exact hpost _ _ (.failed (.inr (by decide)))
  · intro chan
    cases chan with
    | false => exact hpost _ _ (.failed (.inr (by decide)))
    | true =>
      intro chan
      show Prog.wp track (run signed true chan dw.idx fuel >>= _) post unseen
      rw [Prog.wp_bind]
      refine wp_run rfl rfl fun r t ends => ?_
      exact hpost _ _ (returns_of_ends ends)

theorem wp_caller {c : Caller} {dw : Dw} {npuId : Int}
    (hpost : ∀ r t, Returns signed count r t → post r t) :
    (c.code signed fuel (some dw) count npuId).wp track post unseen := by
  cases c with
  | writeUser => exact wp_userTransfer (fun _ => h2cDataChCnt) hpost
  | writeKernel => exact wp_writeKernel hpost
  | readUser => exact wp_userTransfer Dw.wrChCnt hpost

/-- A call that names no channel or no device of the table gets an error. -/
theorem wp_userTransfer_untried (channels : Dw → Nat) {dw : Dw} {npuId : Int}
    (h : ¬ (0 ≤ npuId ∧ npuId < channels dw ∧ 0 ≤ dw.idx ∧ dw.idx < maxDevNum))
    (hpost : ∀ e t, e < 0 → post (some e) t) :
    (userTransfer signed channels fuel (some dw) count npuId).wp track post unseen := by
  simp only [userTransfer]
  rw [Prog.wp_ite]
  split
  · exact hpost _ _ (by decide)
  case isFalse hnpu =>
    have hdev : dw.idx < 0 ∨ maxDevNum ≤ dw.idx := by omega
    intro mapped
    cases mapped with
    | some e => exact hpost _ _ (by omega)
    | none =>
      intro chan
      cases chan with
      | false => exact fun _ => hpost _ _ (by decide)
      | true =>
        intro chan
        show Prog.wp track (run signed false chan dw.idx fuel >>= _) post unseen
        rw [run, if_pos hdev]
        exact fun _ => hpost _ _ ((checkResult_err (by decide)).trans_lt (by decide))

theorem wp_caller_untried {c : Caller} {dw : Dw} {npuId : Int}
    (h : ¬ (0 ≤ npuId ∧ npuId < c.channels dw ∧ 0 ≤ dw.idx ∧ dw.idx < maxDevNum))
    (hpost : ∀ e t, e < 0 → post (some e) t) :
    (c.code signed fuel (some dw) count npuId).wp track post unseen := by
  cases c with
  | writeUser => exact wp_userTransfer_untried (fun _ => h2cDataChCnt) h hpost
  | readUser => exact wp_userTransfer_untried Dw.wrChCnt h hpost
  | writeKernel =>
    simp only [Caller.channels] at h
    simp only [Caller.code, writeKernel]
    rw [Prog.wp_ite]
    split
    · exact hpost _ _ (by decide)
    case isFalse hnpu =>
      have hdev : dw.idx < 0 ∨ maxDevNum ≤ dw.idx := by omega
      intro chan
      cases chan with
      | false => exact hpost _ _ (by decide)
      | true =>
        intro chan
        show Prog.wp track (run signed true chan dw.idx fuel >>= _) post unseen
        rw [run, if_pos hdev]
        exact hpost _ _ ((checkResult_err (by decide)).trans_lt (by decide))

/-- With an unsigned `char`, the three errors come back as these, for any transfer. -/
theorem mistakable_reached {preMapped : Bool} {post : Option (Int × Int) → Seen → Prop}
    (h : (sgProcess false preMapped true 1).wp track post unseen) {e : Int}
    (he : e = 251 ∨ e = 240 ∨ e = 146) :
    ∃ t, t.unmapped = false ∧ ¬ Happened t ∧ post (some (e, e)) t := by
  obtain rfl | rfl | rfl := he
  · cases preMapped with
    | true => exact ⟨_, rfl, by decide, h true true () false () () ()⟩
    | false => exact ⟨_, rfl, by decide, h true true true () false () () () ()⟩
  · exact ⟨_, rfl, by decide, h false () ()⟩
  · -- nothing is ever signalled: every stage falls through
    cases preMapped with
    | true =>
      exact ⟨_, rfl, by decide, h true true () true true () true () true false false false
        .inProgress 0 .elapsed false false false 0 () .elapsed false false false 0 () ()
        false false () () ()⟩
    | false =>
      exact ⟨_, rfl, by decide, h true true true () true true () true () true false false false
        .inProgress 0 .elapsed false false false 0 () .elapsed false false false 0 () ()
        false false () () () ()⟩

/-- A call with a device and a channel in range comes to its transfer. -/
theorem transfer_reached {c : Caller} {dw : Dw} {npuId : Int} {post : Option Int → Seen → Prop}
    (hnpu : 0 ≤ npuId) (hchannel : npuId < c.channels dw) (hidx : 0 ≤ dw.idx)
    (hdev : dw.idx < maxDevNum)
    (h : (c.code false 1 (some dw) count npuId).wp track post unseen) :
    ∃ preMapped post', (sgProcess false preMapped true 1).wp track post' unseen ∧
      ∀ r t, post' r t → post (r.map (checkResult count)) t := by
  have hdev' : ¬ (dw.idx < 0 ∨ maxDevNum ≤ dw.idx) := by omega
  have hrun : ∀ {preMapped : Bool} {post : Option (Int × Int) → Seen → Prop},
      (run false preMapped true dw.idx 1).wp track post unseen →
      (sgProcess false preMapped true 1).wp track post unseen := by
    intro preMapped post h
    rw [run, if_neg hdev'] at h
    exact h true
  have user : ∀ {channels : Dw → Nat}, npuId < channels dw →
      (userTransfer false channels 1 (some dw) count npuId).wp track post unseen →
      ∃ preMapped post', (sgProcess false preMapped true 1).wp track post' unseen ∧
        ∀ r t, post' r t → post (r.map (checkResult count)) t := by
    intro channels hchannel h
    simp only [userTransfer] at h
    rw [if_neg (by omega)] at h
    have h := h none true true
    refine ⟨false, _, hrun ((Prog.wp_bind ..).mp h), fun r t hpost => ?_⟩
    exact hpost ()
  cases c with
  | writeUser => exact user hchannel h
  | readUser => exact user hchannel h
  | writeKernel =>
    simp only [Caller.code, writeKernel] at h
    simp only [Caller.channels] at hchannel
    rw [if_neg (by omega)] at h
    have h := h true true
    exact ⟨true, _, hrun ((Prog.wp_bind ..).mp h), fun r t hpost => hpost⟩

end Callers

theorem not_failure {signed : Bool} {count : Nat}
    (h : signed = false → count ≠ 251 ∧ count ≠ 240 ∧ count ≠ 146) : ¬ Failure signed count := by
  cases signed with
  | true =>
    have hio : toChar true (- EIO) = -5 := rfl
    have hEBUSY : toChar true (-EBUSY) = -16 := rfl
    have hETIMEDOUT : toChar true (-ETIMEDOUT) = -110 := rfl
    rw [Failure, hio, hEBUSY, hETIMEDOUT]
    omega
  | false =>
    have hio : toChar false (- EIO) = 251 := rfl
    have hEBUSY : toChar false (-EBUSY) = 240 := rfl
    have hETIMEDOUT : toChar false (-ETIMEDOUT) = 146 := rfl
    have := h rfl
    rw [Failure, hio, hEBUSY, hETIMEDOUT]
    omega

/-- Where no mapping fails, a caller returns its count only for a transfer that happened,
exactly if no failure can be taken for the count. -/
theorem count_iff (signed : Bool) (c : Caller) (dw : Option Dw) (count : Nat) (npuId : Int) :
    (∀ fuel, (c.code signed fuel dw count npuId).wp track
        (fun r t => t.unmapped = false → r = some (count : Int) → Happened t) unseen) ↔
      Unmistakable signed c dw count npuId := by
  cases dw with
  | none =>
    have hcode : ∀ fuel, c.code signed fuel none count npuId = pure (some 0) := by
      intro fuel
      cases c <;> rfl
    simp only [hcode, Prog.wp_pure, Unmistakable]
    constructor
    · rintro h rfl
      exact absurd (h 0 rfl rfl) (by decide)
    · intro hcount _ _ hr
      have := Option.some.inj hr
      omega
  | some dw =>
    constructor
    · intro h hnpu hchannel hidx hdev hsigned
      subst hsigned
      obtain ⟨preMapped, post', hwp, hpost⟩ :=
        transfer_reached hnpu hchannel hidx hdev (h 1)
      have mistaken : ∀ e : Nat, (e : Int) = 251 ∨ (e : Int) = 240 ∨ (e : Int) = 146 → count ≠ e := by
        rintro e he rfl
        obtain ⟨t, hmapped, hnot, ht⟩ := mistakable_reached hwp he
        refine hnot (hpost _ t ht hmapped ?_)
        have hne : (count : Int) ≠ 0 := by omega
        rw [Option.map_some, checkResult_err hne]
      exact ⟨mistaken 251 (.inl rfl), mistaken 240 (.inr (.inl rfl)), mistaken 146 (.inr (.inr rfl))⟩
    · intro clear fuel
      by_cases tried : 0 ≤ npuId ∧ npuId < c.channels dw ∧ 0 ≤ dw.idx ∧ dw.idx < maxDevNum
      · obtain ⟨hnpu, hchannel, hidx, hdev⟩ := tried
        refine wp_caller fun r t returns hmapped hr => ?_
        cases returns with
        | waiting => cases hr
        | happened happened => exact happened
        | unmapped h => exact absurd (h.symm.trans hmapped) (by decide)
        | failed hfail =>
          obtain rfl := Option.some.inj hr
          obtain hfail | hneg := hfail
          · exact absurd hfail (not_failure (clear hnpu hchannel hidx hdev))
          · omega
      · refine wp_caller_untried tried fun e t hneg _ hr => ?_
        have := Option.some.inj hr
        omega

/-- A transfer reports success exactly if it happened, but for one that could not be mapped:
the return value 0 of `dw_edma_sg_process` on every path; and on every path on which
nothing fails to be mapped the count of its callers, exactly if no failure can be taken
for that count. -/
theorem success_iff (signed preMapped chan : Bool) (fuel : Nat) (c : Caller) (dw : Option Dw) (count : Nat)
    (npuId : Int) :
    (sgProcess signed preMapped chan fuel).wp track
      (fun r t => ((∃ result, r = some (0, result)) → Happened t) ↔ t.unmapped = false) unseen ∧
    ((∀ fuel, (c.code signed fuel dw count npuId).wp track
        (fun r t => t.unmapped = false → r = some (count : Int) → Happened t) unseen) ↔
      Unmistakable signed c dw count npuId) :=
  ⟨zero_iff_happened signed preMapped chan fuel, count_iff signed c dw count npuId⟩

/-- A page is written with nothing mapped: `dw_edma_sg_process` returns 0, and
`dx_sgdma_write_user` the size of the page. -/
theorem unmapped_succeeds :
    ¬ (sgProcess true false true 1).wp track
      (fun r t => (∃ result, r = some (0, result)) → Happened t) unseen ∧
    ¬ (writeUser true 1 (some ⟨0, 4⟩) 4096 0).wp track
      (fun r t => r = some 4096 → Happened t) unseen :=
  ⟨fun h => absurd (h true true false () () () ⟨0, rfl⟩) (by decide),
    fun h => absurd (h none true true true true true false () () () () rfl) (by decide)⟩

end DxNpuDriver.Edma.Outcome
