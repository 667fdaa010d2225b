import DxNpuDriver.Edma.Accounting
import DxNpuDriver.Edma.Shadow

/-! Pausing a transfer (`dw-edma-core.c`).

`dw_edma_device_pause` leaves a request, and the next Done that goes as far as the `switch` on
it makes the channel PAUSE; `dw_edma_device_resume` makes it BUSY again and starts the
transfer where it stands. The machine is that of `Transfer` with the request and that state.
Neither function takes `vc.lock`: the tests and the write of the one are two steps, and the
tests, the write and the start of the other three.

The `switch` does not look at whether the Done was that of the last table. Resumed, the
transfer has none to start, which counts as aborted. And a Done of a lazy descriptor does not
come to the `switch`; the two workers take any request for a reason to give up
(`pause_shows`). `pause_transparent`: in a descriptor that has its tables and still has one
behind that which is pausing, none of it shows. -/
namespace DxNpuDriver.Edma.Pause
open Fill Transfer Errno

/-- Where the client is that pauses and resumes the channel: past the tests of
`dw_edma_device_pause`, past those of `dw_edma_device_resume`, or past the write of the
status. -/
inductive Client where
  | idle | pausing | resuming | resumed
  deriving DecidableEq

/-- The channel; `request` tells that its request is PAUSE and `paused` that its status is, and
otherwise they are NONE, and BUSY or IDLE as `busy` says. -/
structure State where
  chan : Transfer.State
  request : Bool
  paused : Bool
  client : Client
  deriving DecidableEq

/-- `dw_edma_device_issue_pending` of a descriptor on an idle channel. -/
def issue (d : Desc) : State := ⟨Transfer.issue d, false, false, .idle⟩

/-! ### Done -/

/-- The `switch` of `dw_edma_complete_done_locked`. -/
def switchRequest (s : State) : State :=
  if s.request then {s with chan := {s.chan with busy := false}, request := false, paused := true}
  else {s with chan := finishDone s.chan, paused := false}

/-- `dw_edma_done_interrupt`. -/
def doneInterrupt (s : State) : State :=
  if ¬s.chan.xferStarted then s
  else
    let c := {s.chan with xferStarted := false}
    if c.completed then {s with chan := c}
    else
      match c.desc.chunks with
      | [] => switchRequest {s with chan := c}
      | child :: rest =>
        let c := {c with desc := {c.desc with
          xferSz := (c.desc.xferSz + child.llRegionSz) % 2 ^ 32}}
        match deferLazyDone c with
        | (c, true) => {s with chan := c}
        | (c, false) => switchRequest {s with chan := {c with desc := {c.desc with chunks := rest}}}

/-! ### The workers -/

/-- Of the states, the workers write only BUSY. -/
def State.lift (s : State) (c : Transfer.State) : State :=
  {s with chan := c, paused := s.paused && !c.busy}

/-- `dw_edma_lazy_refill_work`. -/
def lazyStep (x : Xfer) (env : Env) (s : State) : Option Transfer.State :=
  match s.chan.lazy with
  | .claim ret =>
    -- a request is handled as a wait that has failed
    Transfer.lazyStep x env {s.chan with lazy := .claim (if s.request then .err EIO else ret)}
  | .commit _ (some _) =>
    -- with a request the prepared table is cancelled
    if s.request ∧ ¬s.chan.completed ∧ s.chan.desc.lazyRefillState = .preparing then
      some {s.chan with lazy := .idle, desc := {s.chan.desc with lazyRefillState := .idle}}
    else Transfer.lazyStep x env s.chan
  | _ => Transfer.lazyStep x env s.chan

/-- `dw_edma_shadow_build_work`. -/
def shadowStep (x : Xfer) (env : Env) (s : State) : Option Transfer.State :=
  match s.chan.shadow with
  | .failed =>
    -- not fatal
    if s.request then
      some {s.chan with desc := {s.chan.desc with shadowChunk := none, shadowState := .idle},
                        shadow := .idle}
    else Transfer.shadowStep x env s.chan
  | .precopy _ _ =>
    if s.request ∧ env.ret = .err .ECANCELED then
      some {s.chan with shadow := .precopyFailed true}
    else Transfer.shadowStep x env s.chan
  | .launch _ _ =>
    if s.request then
      some {s.chan with desc := {s.chan.desc with shadowState := .idle}, shadow := .idle}
    else Transfer.shadowStep x env s.chan
  | _ => Transfer.shadowStep x env s.chan

/-! ### The machine -/

inductive Label where
  | chan (l : Transfer.Label)
  | pause | pauseWrite
  | resume | resumeWrite | resumeStart
  deriving DecidableEq

def Label.chan? : Label → Option Transfer.Label
  | .chan l => some l
  | .pause | .pauseWrite | .resume | .resumeWrite | .resumeStart => none

/-- A step of the channel. `dw_edma_launch_work_fn` tests for STOP only. -/
def chanStep (x : Xfer) (s : State) : Transfer.Label → Option State
  | .done => some (doneInterrupt s)
  | .lazy env => (lazyStep x env s).map s.lift
  | .shadow env => (shadowStep x env s).map s.lift
  | .launch env => (launchStep env s.chan).map s.lift
  | .launchRun => (Transfer.step x s.chan .launchRun).map s.lift
  | .lazyRun => (Transfer.step x s.chan .lazyRun).map s.lift
  | .shadowRun => (Transfer.step x s.chan .shadowRun).map s.lift

def step (x : Xfer) (s : State) : Label → Option State
  | .chan l => chanStep x s l
  | .pause =>
    -- `dw_edma_device_pause`, or its -EPERM
    if s.client = .idle then
      some (if s.chan.busy ∧ ¬s.request then {s with client := .pausing} else s)
    else none
  | .pauseWrite =>
    if s.client = .pausing then some {s with request := true, client := .idle} else none
  | .resume =>
    -- `dw_edma_device_resume`, or its -EPERM
    if s.client = .idle then
      some (if s.paused ∧ ¬s.request then {s with client := .resuming} else s)
    else none
  | .resumeWrite =>
    if s.client = .resuming then
      some {s with chan := {s.chan with busy := true}, paused := false, client := .resumed}
    else none
  | .resumeStart =>
    if s.client = .resumed then some {s with chan := startTransfer s.chan, client := .idle} else none

/-! ### Runs without a request -/

section Unpaused
variable {x : Xfer} {s u : State}

/-- A transfer that is paused, or resumed and not started yet, has a start to make up for. -/
def State.deferred (s : State) : Bool := s.paused || decide (s.client = .resumed)

/-- The channel, with that start. -/
def State.shown (s : State) : Transfer.State :=
  if s.deferred then startTransfer {s.chan with busy := true} else s.chan

theorem shown_of_not_deferred (h : s.deferred = false) : s.shown = s.chan := by
  rw [State.shown, h, if_neg Bool.false_ne_true]

/-- A Done of a channel that was not started, or whose cookie is complete. -/
theorem doneInterrupt_uncounted
    (h : ¬(s.chan.xferStarted = true ∧ s.chan.completed = false)) :
    doneInterrupt s = {s with chan := Transfer.doneInterrupt s.chan} := by
  rw [(Transfer.doneInterrupt_uncounted h).1]
  cases hstarted : s.chan.xferStarted with
  | false =>
    rw [doneInterrupt, if_pos (by simp [hstarted]), ← hstarted]
  | true =>
    have hcompleted : s.chan.completed = true := by simpa [hstarted] using h
    rw [doneInterrupt, if_neg (by simp [hstarted]), if_pos hcompleted]

theorem doneInterrupt_eq {child : Chunk} {rest : List Chunk} (hstarted : s.chan.xferStarted = true)
    (hcompleted : s.chan.completed = false) (hchunks : s.chan.desc.chunks = child :: rest) :
    doneInterrupt s =
      match deferLazyDone (credit ((s.chan.desc.xferSz + child.llRegionSz) % 2 ^ 32) s.chan) with
      | (c, true) => {s with chan := c}
      | (c, false) => switchRequest {s with chan := {c with desc := {c.desc with chunks := rest}}} := by
  simp only [doneInterrupt]
  rw [if_neg (by simp [hstarted]), if_neg (by simp [hcompleted])]
  split
  · next hnil => cases hchunks.symm.trans hnil
  · next hcons =>
    cases hchunks.symm.trans hcons
    rfl

theorem doneInterrupt_chan (c : Transfer.State) (client : Client) :
    doneInterrupt ⟨c, false, false, client⟩ = ⟨Transfer.doneInterrupt c, false, false, client⟩ := by
  by_cases hcounts : c.xferStarted = true ∧ c.completed = false
  · obtain ⟨hstarted, hcompleted⟩ := hcounts
    cases hchunks : c.desc.chunks with
    | nil => simp [doneInterrupt, Transfer.doneInterrupt, switchRequest, hstarted, hcompleted, hchunks]
    | cons child rest =>
      rw [doneInterrupt_eq hstarted hcompleted hchunks,
        Transfer.doneInterrupt_eq hstarted hcompleted hchunks]
      rcases deferLazyDone _ with ⟨c', taken⟩
      cases taken with
      | true => rfl
      | false => rfl
  · exact doneInterrupt_uncounted hcounts

theorem lazyStep_chan (h : s.request = false) (env : Env) :
    lazyStep x env s = Transfer.lazyStep x env s.chan := by
  unfold lazyStep
  split
  · next ret hlazy => rw [h, if_neg Bool.false_ne_true, ← hlazy]
  · rw [h, if_neg (fun hr => Bool.false_ne_true hr.1)]
  · rfl

theorem shadowStep_chan (h : s.request = false) (env : Env) :
    shadowStep x env s = Transfer.shadowStep x env s.chan := by
  unfold shadowStep
  rw [h]
  split
  · rw [if_neg Bool.false_ne_true]
  · rw [if_neg (fun hr => Bool.false_ne_true hr.1)]
  · rw [if_neg Bool.false_ne_true]
  · rfl

/-- As long as there is no request, the channel does what it does without pauses. -/
theorem chanStep_chan (hrequest : s.request = false) (hpaused : s.paused = false)
    (l : Transfer.Label) :
    chanStep x s l = (Transfer.step x s.chan l).map fun c => {s with chan := c} := by
  have hlift : s.lift = fun c => {s with chan := c} := by
    funext c
    rw [State.lift, hpaused]
    rfl
  cases l with
  | done =>
    obtain ⟨c, request, paused, client⟩ := s
    subst hrequest hpaused
    exact congrArg some (doneInterrupt_chan c client)
  | launch _ => rw [chanStep, hlift]; rfl
  | launchRun | lazyRun | shadowRun => rw [chanStep, hlift]
  | «lazy» env => rw [chanStep, hlift, lazyStep_chan hrequest]; rfl
  | shadow env => rw [chanStep, hlift, shadowStep_chan hrequest]; rfl

end Unpaused

/-! ### The cookie -/

section Cookie
variable {x : Xfer} {s t : Transfer.State} {env : Env}

theorem launchStep_completed (h : launchStep env s = some t) : t.completed = s.completed := by
  cases launchStep_cases h <;> rfl

theorem lazyStep_completed (h : Transfer.lazyStep x env s = some t) : t.completed = s.completed := by
  cases lazyStep_cases h <;> rfl

theorem shadowLaunch_completed (allowed : Bool) (c : Chunk) (next : Option Chunk) :
    (shadowLaunch allowed c next s).completed = s.completed := by
  simp only [shadowLaunch]
  repeat' split
  all_goals rfl

theorem shadowStep_completed (h : Transfer.shadowStep x env s = some t) : t.completed = s.completed := by
  simp only [Transfer.shadowStep] at h
  repeat' split at h
  all_goals first | cases h; rfl | cases h; exact shadowLaunch_completed .. | cases h

/-- A cookie that is complete stays so. -/
theorem step_completed (l : Transfer.Label) (hcompleted : s.completed = true)
    (h : Transfer.step x s l = some t) : t.completed = true := by
  cases l with
  | done =>
    obtain ⟨hdone, -⟩ := Transfer.doneInterrupt_uncounted (s := s) (by simp [hcompleted])
    cases h
    rw [hdone]
    exact hcompleted
  | launchRun | lazyRun | shadowRun =>
    simp only [Transfer.step] at h
    split at h
    · cases h
      exact hcompleted
    · cases h
  | launch env => rw [launchStep_completed h, hcompleted]
  | «lazy» env => rw [lazyStep_completed h, hcompleted]
  | shadow env => rw [shadowStep_completed h, hcompleted]
end Cookie

/-! ### A descriptor that has its tables -/

/-- The channel between two events of a transfer in which nothing has failed: BUSY, with
nothing staged and nothing started. -/
def between (d : Desc) (rung : List Chunk) : Transfer.State :=
  ⟨d, false, true, false, false, false, false, none, false, .idle, false, .idle, false, .idle, rung⟩

/-- A table that `dw_edma_start_transfer` takes. -/
def Loaded (u : Chunk) : Prop := u.head = true ∧ u.bursts ≠ []

/-- Of `all` tables, `rung` are done, and `child` is the next. -/
structure Stands (all : List Chunk) (d : Desc) (rung : List Chunk) (child : Chunk)
    (rest : List Chunk) : Prop where
  split : all = rung ++ child :: rest
  chunks : d.chunks = child :: rest
  lazyMode : d.lazyMode = false

/-- The way of each table from the stage to its Done. -/
inductive Stage (all : List Chunk) : Transfer.State → Prop where
  | staged {d rung child rest} (h : Stands all d rung child rest) :
    Stage all {between d rung with pendingLaunch := some child, launchPending := true}
  | entered {d rung child rest} (h : Stands all d rung child rest) :
    Stage all {between d rung with pendingLaunch := some child, launch := .entry}
  | preparing {d rung child rest} (h : Stands all d rung child rest) :
    Stage all {between d rung with launch := .prepare child}
  | ringing {d rung child rest} (h : Stands all d rung child rest) :
    Stage all {between d rung with launch := .ring child .ok}
  | running {d rung child rest} (h : Stands all d rung child rest) :
    Stage all {between d (rung ++ [child]) with xferStarted := true}
  | finished {d} (hchunks : d.chunks = []) (hmode : d.lazyMode = false) :
    Stage all {between d all with completed := true, busy := false}

section Stages
variable {x : Xfer} {all : List Chunk} {c c' : Transfer.State}

theorem Stage.plain (h : Stage all c) : Plain c := by
  cases h with
  | staged h | entered h | preparing h | ringing h | running h =>
    exact ⟨h.lazyMode, ⟨rfl, rfl⟩, rfl, rfl⟩
  | finished _ hmode => exact ⟨hmode, ⟨rfl, rfl⟩, rfl, rfl⟩

/-- A table with bursts is staged. -/
theorem startTransfer_between {d : Desc} {rung rest : List Chunk} {child : Chunk}
    (hloaded : ∀ u ∈ all, Loaded u) (h : Stands all d rung child rest) :
    startTransfer (between d rung) =
      {between d rung with pendingLaunch := some child, launchPending := true} := by
  have hmem : child ∈ all := by
    rw [h.split]
    exact List.mem_append_right _ List.mem_cons_self
  have hchild : child.head = true ∧ child.bursts ≠ [] := hloaded child hmem
  simp only [startTransfer, between, h.chunks]
  rw [if_neg Bool.false_ne_true, if_pos hchild]

/-- A Done of a table leaves the rest of the list. -/
theorem doneInterrupt_running {d : Desc} {rung rest : List Chunk} {child : Chunk}
    (h : Stands all d rung child rest) :
    Transfer.doneInterrupt {between d (rung ++ [child]) with xferStarted := true} =
      finishDone (between {d with xferSz := (d.xferSz + child.llRegionSz) % 2 ^ 32, chunks := rest}
        (rung ++ [child])) := by
  rw [Transfer.doneInterrupt_eq rfl rfl h.chunks]
  simp only [deferLazyDone, credit, between, h.lazyMode]
  rw [if_pos Bool.false_ne_true]

/-- The next table after a Done. -/
theorem Stands.next {d : Desc} {rung rest : List Chunk} {child next : Chunk}
    (h : Stands all d rung child (next :: rest)) (xferSz : Nat) :
    Stands all {d with xferSz := xferSz, chunks := next :: rest} (rung ++ [child]) next rest where
  split := by rw [h.split, List.append_assoc]; rfl
  chunks := rfl
  lazyMode := h.lazyMode

theorem finishDone_between {d : Desc} {rung : List Chunk} (h : d.chunks ≠ []) :
    finishDone (between d rung) = startTransfer (between d rung) := if_pos h

theorem finishDone_stage {d : Desc} {rung rest : List Chunk} {child : Chunk}
    (hloaded : ∀ u ∈ all, Loaded u) (h : Stands all d rung child rest)
    (xferSz : Nat) :
    Stage all (finishDone (between {d with xferSz := xferSz, chunks := rest} (rung ++ [child]))) := by
  cases rest with
  | nil =>
    have hall : all = rung ++ [child] := h.split
    rw [← hall]
    exact .finished rfl h.lazyMode
  | cons next rest =>
    rw [finishDone_between (List.cons_ne_nil next rest), startTransfer_between hloaded (h.next xferSz)]
    exact .staged (h.next xferSz)

theorem doneInterrupt_stage (hloaded : ∀ u ∈ all, Loaded u)
    (h : Stage all c) : Stage all (Transfer.doneInterrupt c) := by
  cases h with
  | staged h => exact .staged h
  | entered h => exact .entered h
  | preparing h => exact .preparing h
  | ringing h => exact .ringing h
  | running h =>
    rw [doneInterrupt_running h]
    exact finishDone_stage hloaded h _
  | finished hchunks hmode => exact .finished hchunks hmode

theorem launchStep_stage {env : Env} (h : Stage all c) (lucky : env.ret = .ok ∧ env.yes = true)
    (ht : launchStep env c = some c') : Stage all c' := by
  obtain ⟨ret, yes, supply⟩ := env
  obtain ⟨rfl, rfl⟩ := lucky
  cases h with
  | staged h => cases ht
  | entered h =>
    cases ht
    exact .preparing h
  | preparing h =>
    cases ht
    exact .ringing h
  | @ringing d rung child rest h =>
    have hring : launchStep ⟨.ok, true, supply⟩ {between d rung with launch := .ring child .ok} =
        some {between d (rung ++ [child]) with xferStarted := true} := by
      simp [launchStep, between, ring, h.chunks, h.lazyMode]
    cases hring.symm.trans ht
    exact .running h
  | running h => cases ht
  | finished hchunks hmode => cases ht

/-- What a fault-free step of the channel makes of a stage. -/
theorem step_stage {l : Transfer.Label} (hloaded : ∀ u ∈ all, Loaded u)
    (h : Stage all c) (lucky : Fortunate x c l) (ht : Transfer.step x c l = some c') :
    Stage all c' := by
  have plain := h.plain
  cases l with
  | done =>
    cases ht
    exact doneInterrupt_stage hloaded h
  | launchRun =>
    cases h with
    | staged h =>
      cases ht
      exact .entered h
    | entered h | preparing h | ringing h | running h | finished _ _ => cases ht
  | launch env => exact launchStep_stage h lucky ht
  | lazyRun => simp [Transfer.step, plain.lazy.2] at ht
  | shadowRun => simp [Transfer.step, plain.shadow.2] at ht
  | «lazy» env => simp [Transfer.step, Transfer.lazyStep, plain.lazy.1] at ht
  | shadow env => simp [Transfer.step, Transfer.shadowStep, plain.shadow.1] at ht

end Stages

/-! ### Pauses of such a descriptor -/

/-- What the request, the pause and the client can be along the way. -/
inductive Steady (all : List Chunk) : State → Prop where
  | going {c client} (h : Stage all c) (hclient : client = .idle ∨ client = .pausing) :
    Steady all ⟨c, false, false, client⟩
  | asked {c} (h : Stage all c) (hbehind : 2 ≤ c.desc.chunks.length) :
    Steady all ⟨c, true, false, .idle⟩
  | paused {d rung child rest client} (h : Stands all d rung child rest)
    (hclient : client = .idle ∨ client = .resuming) :
    Steady all ⟨{between d rung with busy := false}, false, true, client⟩
  | resumed {d rung child rest} (h : Stands all d rung child rest) :
    Steady all ⟨between d rung, false, false, .resumed⟩

/-- Nothing fails. -/
def FaultFree (x : Xfer) (s : State) : Label → Prop
  | .chan l => Fortunate x s.chan l
  | .pause | .pauseWrite | .resume | .resumeWrite | .resumeStart => True

instance (x : Xfer) (s : State) (l : Label) : Decidable (FaultFree x s l) :=
  match l with
  | .chan l => inferInstanceAs (Decidable (Fortunate x s.chan l))
  | .pause | .pauseWrite | .resume | .resumeWrite | .resumeStart => isTrue trivial

/-- A request is written to a descriptor that has its tables, and has one behind the first. -/
def OneBehind (s : State) : Label → Prop
  | .pauseWrite => s.chan.desc.lazyMode = false ∧ 2 ≤ s.chan.desc.chunks.length
  | .chan _ | .pause | .resume | .resumeWrite | .resumeStart => True

instance (s : State) (l : Label) : Decidable (OneBehind s l) :=
  match l with
  | .pauseWrite => inferInstanceAs (Decidable (_ ∧ _))
  | .chan _ | .pause | .resume | .resumeWrite | .resumeStart => isTrue trivial

section Pauses
variable {x : Xfer} {all : List Chunk} {s t : State}

theorem shown_going {c : Transfer.State} {client : Client} (request : Bool)
    (hclient : client = .idle ∨ client = .pausing) : State.shown ⟨c, request, false, client⟩ = c := by
  apply shown_of_not_deferred
  rcases hclient with rfl | rfl <;> rfl

/-- A channel that is not started, with no work item under way, has nothing to do. -/
theorem chanStep_still {d : Desc} {rung : List Chunk} {busy paused : Bool} {client : Client}
    {l : Transfer.Label}
    (h : chanStep x ⟨{between d rung with busy := busy}, false, paused, client⟩ l = some t) :
    l = .done ∧ t = ⟨{between d rung with busy := busy}, false, paused, client⟩ := by
  cases l with
  | done =>
    cases h
    exact ⟨rfl, rfl⟩
  | launchRun | lazyRun | shadowRun | launch _ | «lazy» _ | shadow _ => cases h

/-- Nor has a channel whose next table is staged anything to do at a Done. -/
theorem done_staged {d : Desc} {rung rest : List Chunk} {child : Chunk}
    (hloaded : ∀ u ∈ all, Loaded u) (h : Stands all d rung child rest) :
    Transfer.step x (startTransfer (between d rung)) .done = some (startTransfer (between d rung)) := by
  rw [startTransfer_between hloaded h]
  rfl

/-- The Done that a request waits for. -/
theorem doneInterrupt_asked {d : Desc} {rung rest : List Chunk} {child next : Chunk}
    (h : Stands all d rung child (next :: rest)) :
    doneInterrupt ⟨{between d (rung ++ [child]) with xferStarted := true}, true, false, .idle⟩ =
      ⟨{between {d with xferSz := (d.xferSz + child.llRegionSz) % 2 ^ 32, chunks := next :: rest}
          (rung ++ [child]) with busy := false}, false, true, .idle⟩ := by
  rw [doneInterrupt_eq rfl rfl h.chunks]
  simp only [deferLazyDone, credit, between, h.lazyMode]
  rw [if_pos Bool.false_ne_true]
  rfl

theorem done_asked {c : Transfer.State} (h : Stage all c)
    (hbehind : 2 ≤ c.desc.chunks.length) :
    Steady all (doneInterrupt ⟨c, true, false, .idle⟩) ∧
      Transfer.doneInterrupt c = (doneInterrupt ⟨c, true, false, .idle⟩).shown := by
  cases h with
  | staged h => exact ⟨.asked (.staged h) hbehind, rfl⟩
  | entered h => exact ⟨.asked (.entered h) hbehind, rfl⟩
  | preparing h => exact ⟨.asked (.preparing h) hbehind, rfl⟩
  | ringing h => exact ⟨.asked (.ringing h) hbehind, rfl⟩
  | @running d rung child rest h =>
    cases rest with
    | nil =>
      have hlength : 2 ≤ d.chunks.length := hbehind
      rw [h.chunks, List.length_singleton] at hlength
      omega
    | cons next rest =>
      rw [doneInterrupt_asked h, doneInterrupt_running h]
      exact ⟨.paused (h.next _) (.inl rfl), rfl⟩
  | @finished d hchunks _ =>
    have hlength : 2 ≤ d.chunks.length := hbehind
    rw [hchunks, List.length_nil] at hlength
    omega

/-- Beside the Done, a request makes no difference to a descriptor that has its tables. -/
theorem chanStep_asked {c : Transfer.State} {l : Transfer.Label} (plain : Plain c)
    (h : chanStep x ⟨c, true, false, .idle⟩ l = some t) :
    l = .done ∨ ∃ c', Transfer.step x c l = some c' ∧ c'.desc = c.desc ∧
      t = ⟨c', true, false, .idle⟩ := by
  cases l with
  | done => exact .inl rfl
  | launchRun =>
    obtain ⟨c', hc', rfl⟩ := Option.map_eq_some_iff.mp h
    refine .inr ⟨c', hc', ?_, rfl⟩
    simp only [Transfer.step] at hc'
    split at hc'
    · cases hc'
      rfl
    · cases hc'
  | launch env =>
    obtain ⟨c', hc', rfl⟩ := Option.map_eq_some_iff.mp h
    exact .inr ⟨c', hc', (launchStep_plain plain hc').2, rfl⟩
  | lazyRun => simp [chanStep, Transfer.step, plain.lazy.2] at h
  | shadowRun => simp [chanStep, Transfer.step, plain.shadow.2] at h
  | «lazy» env => simp [chanStep, lazyStep, Transfer.lazyStep, plain.lazy.1] at h
  | shadow env => simp [chanStep, shadowStep, Transfer.shadowStep, plain.shadow.1] at h

/-- What the channel does, it does without the pause. -/
theorem chanStep_steady {l : Transfer.Label} (hloaded : ∀ u ∈ all, Loaded u)
    (hs : Steady all s) (lucky : Fortunate x s.chan l) (h : chanStep x s l = some t) :
    Steady all t ∧ Transfer.step x s.shown l = some t.shown := by
  cases hs with
  | going hstage hclient =>
    rw [chanStep_chan rfl rfl] at h
    obtain ⟨c', hc', rfl⟩ := Option.map_eq_some_iff.mp h
    rw [shown_going false hclient, shown_going false hclient]
    exact ⟨.going (step_stage hloaded hstage lucky hc') hclient, hc'⟩
  | @asked c hstage hbehind =>
    obtain rfl | ⟨c', hc', hdesc, rfl⟩ := chanStep_asked hstage.plain h
    · cases h
      obtain ⟨hsteady, hshown⟩ := done_asked hstage hbehind
      rw [shown_going true (.inl rfl), ← hshown]
      exact ⟨hsteady, rfl⟩
    · rw [shown_going true (.inl rfl), shown_going true (.inl rfl)]
      exact ⟨.asked (step_stage hloaded hstage lucky hc') (by rw [hdesc]; exact hbehind), hc'⟩
  | paused hstands hclient =>
    obtain ⟨rfl, rfl⟩ := chanStep_still h
    exact ⟨.paused hstands hclient, done_staged hloaded hstands⟩
  | resumed hstands =>
    obtain ⟨rfl, rfl⟩ := chanStep_still h
    exact ⟨.resumed hstands, done_staged hloaded hstands⟩

/-! What the client does, the transfer without the pause does not see. -/

theorem pause_steady (hs : Steady all s) (h : step x s .pause = some t) :
    Steady all t ∧ t.shown = s.shown := by
  cases hs with
  | going hstage hclient =>
    rcases hclient with rfl | rfl
    · cases h
      split
      · exact ⟨.going hstage (.inr rfl), rfl⟩
      · exact ⟨.going hstage (.inl rfl), rfl⟩
    · cases h
  | asked hstage hbehind =>
    cases h
    rw [if_neg (fun hask => hask.2 rfl)]
    exact ⟨.asked hstage hbehind, rfl⟩
  | paused hstands hclient =>
    rcases hclient with rfl | rfl
    · cases h
      exact ⟨.paused hstands (.inl rfl), rfl⟩
    · cases h
  | resumed hstands => cases h

theorem pauseWrite_steady (hs : Steady all s) (rule : OneBehind s .pauseWrite)
    (h : step x s .pauseWrite = some t) : Steady all t ∧ t.shown = s.shown := by
  cases hs with
  | going hstage hclient =>
    rcases hclient with rfl | rfl
    · cases h
    · cases h
      exact ⟨.asked hstage rule.2, rfl⟩
  | asked => cases h
  | paused hstands hclient => rcases hclient with rfl | rfl <;> cases h
  | resumed => cases h

theorem resume_steady (hs : Steady all s) (h : step x s .resume = some t) :
    Steady all t ∧ t.shown = s.shown := by
  cases hs with
  | going hstage hclient =>
    rcases hclient with rfl | rfl
    · cases h
      exact ⟨.going hstage (.inl rfl), rfl⟩
    · cases h
  | asked hstage hbehind =>
    cases h
    exact ⟨.asked hstage hbehind, rfl⟩
  | paused hstands hclient =>
    rcases hclient with rfl | rfl
    · cases h
      exact ⟨.paused hstands (.inr rfl), rfl⟩
    · cases h
  | resumed => cases h

theorem resumeWrite_steady (hs : Steady all s) (h : step x s .resumeWrite = some t) :
    Steady all t ∧ t.shown = s.shown := by
  cases hs with
  | going hstage hclient => rcases hclient with rfl | rfl <;> cases h
  | asked => cases h
  | paused hstands hclient =>
    rcases hclient with rfl | rfl
    · cases h
    · cases h
      exact ⟨.resumed hstands, rfl⟩
  | resumed => cases h

theorem resumeStart_steady (hloaded : ∀ u ∈ all, Loaded u) (hs : Steady all s)
    (h : step x s .resumeStart = some t) : Steady all t ∧ t.shown = s.shown := by
  cases hs with
  | going hstage hclient => rcases hclient with rfl | rfl <;> cases h
  | asked => cases h
  | paused hstands hclient => rcases hclient with rfl | rfl <;> cases h
  | @resumed d rung child rest hstands =>
    have hstart := startTransfer_between hloaded hstands
    have hshown : State.shown ⟨startTransfer (between d rung), false, false, .idle⟩ =
        startTransfer (between d rung) := shown_going false (.inl rfl)
    cases h
    refine ⟨.going ?_ (.inl rfl), hshown⟩
    show Stage all (startTransfer (between d rung))
    rw [hstart]
    exact .staged hstands

end Pauses

/-! ### The other descriptors -/

/-- The descriptor has one table: it came from a list, or from a count of no bursts, and was
completed as it was issued. -/
inductive Single (x : Xfer) : Transfer.State → Prop where
  | covered {c} (h : ∃ k n, Cover x k n c) : Single x c
  | forced {d} (h : d.chunks.length ≤ 1) :
    Single x {between d [] with aborted := true, completed := true, busy := false}

/-- No request is written to it. -/
structure Untouched (x : Xfer) (s : State) : Prop where
  single : Single x s.chan
  request : s.request = false
  paused : s.paused = false
  client : s.client = .idle ∨ s.client = .pausing

section Others
variable {x : Xfer} {c c' : Transfer.State} {s t : State}

theorem Single.length_le (h : Single x c) : c.desc.chunks.length ≤ 1 := by
  cases h with
  | covered h =>
    obtain ⟨k, n, h⟩ := h
    exact h.base.single
  | forced h => exact h

theorem step_single {l : Transfer.Label} (h : Single x c) (hstep : Transfer.step x c l = some c') :
    Single x c' := by
  cases h with
  | covered h => exact .covered (step_cover c l c' h hstep)
  | forced h =>
    cases l with
    | done =>
      cases hstep
      exact .forced h
    | launchRun | lazyRun | shadowRun | launch _ | «lazy» _ | shadow _ => cases hstep

theorem Untouched.shown_eq (h : Untouched x s) : s.shown = s.chan := by
  apply shown_of_not_deferred
  rw [State.deferred, h.paused]
  rcases h.client with hclient | hclient <;> rw [hclient] <;> rfl

theorem step_untouched {l : Label} (hs : Untouched x s) (rule : OneBehind s l)
    (h : step x s l = some t) :
    Untouched x t ∧ Machine.Follows (Transfer.step x) Label.chan? State.shown s l t := by
  cases l with
  | chan l =>
    have hchan : chanStep x s l = some t := h
    rw [chanStep_chan hs.request hs.paused] at hchan
    obtain ⟨c', hc', rfl⟩ := Option.map_eq_some_iff.mp hchan
    have ht : Untouched x {s with chan := c'} := {hs with single := step_single hs.single hc'}
    refine ⟨ht, ?_⟩
    show Transfer.step x s.shown l = some _
    rw [hs.shown_eq, ht.shown_eq, hc']
  | pause =>
    simp only [step] at h
    split at h
    · cases h
      split
      · have ht : Untouched x {s with client := .pausing} := {hs with client := .inr rfl}
        exact ⟨ht, ht.shown_eq.trans hs.shown_eq.symm⟩
      · exact ⟨hs, rfl⟩
    · cases h
  | pauseWrite =>
    have hle := hs.single.length_le
    have hbehind := rule.2
    omega
  | resume =>
    simp only [step] at h
    split at h
    · cases h
      rw [if_neg (by simp [hs.paused])]
      exact ⟨hs, rfl⟩
    · cases h
  | resumeWrite | resumeStart =>
    simp only [step] at h
    split at h
    · next hclient => rcases hs.client with hc | hc <;> cases hc.symm.trans hclient
    · cases h

end Others

/-! ### What is prepared -/

/-- The tables of a loop all hold bursts, unless it makes no pass. -/
theorem buildLoop_loaded {x : Xfer} {passes : List Pass} {left allocSz : Nat} {chunks : List Chunk}
    {c : Chunk} {r : List Chunk × Nat} (hmax : 1 ≤ x.llMax) (hchunks : ∀ u ∈ chunks, Loaded u)
    (hc : Loaded c ∨ c = allocChunk x ∧ chunks = [])
    (h : buildLoop x passes left chunks c allocSz = some r) :
    (r.1 ≠ [] ∧ ∀ u ∈ r.1, Loaded u) ∨ r.1 = [allocChunk x] := by
  induction passes generalizing left allocSz chunks c with
  | nil =>
    cases h
    rcases hc with hc | ⟨rfl, rfl⟩
    · exact .inl ⟨by simp, List.forall_mem_append.mpr ⟨hchunks, List.forall_mem_singleton.mpr hc⟩⟩
    · exact .inr rfl
  | cons p passes ih =>
    have placed : ∀ u : Chunk, u.head = true → Loaded (initSgBurst x.dir u p.host p.dev p.sz) :=
      fun u hu => ⟨hu, by simp [initSgBurst]⟩
    simp only [buildLoop] at h
    split at h
    · next hfull =>
      split at h
      · cases h
      · refine ih (List.forall_mem_append.mpr ⟨hchunks, List.forall_mem_singleton.mpr ?_⟩)
          (.inl (placed _ rfl)) h
        rcases hc with hc | ⟨rfl, -⟩
        · exact hc
        · have hempty : (allocChunk x).burstsAlloc = 0 := rfl
          omega
    · split at h
      · cases h
      · refine ih hchunks (.inl (placed _ ?_)) h
        rcases hc with hc | ⟨rfl, -⟩
        · exact hc.1
        · rfl

/-- The two kinds of descriptor. -/
inductive Kind (x : Xfer) (d : Desc) : Prop where
  | tables (hmode : d.lazyMode = false) (hne : d.chunks ≠ []) (hloaded : ∀ u ∈ d.chunks, Loaded u)
  | single (hsingle : Single x (Transfer.issue d))
    (h : ¬(d.lazyMode = false ∧ ∀ u ∈ d.chunks, Loaded u))

theorem build_kind {x : Xfer} {passes : List Pass} {left : Nat} {d : Desc} (hmax : 1 ≤ x.llMax)
    (h : build x passes left = some d) : Kind x d := by
  obtain ⟨r, hr, rfl⟩ := Option.map_eq_some_iff.mp h
  rcases buildLoop_loaded hmax (List.forall_mem_nil _) (.inr ⟨rfl, rfl⟩) hr with ⟨hne, hloaded⟩ | hnone
  · exact .tables rfl hne hloaded
  · have hissue : Transfer.issue {desc (allocChunk x) r.2 with chunks := r.1} =
        {between {desc (allocChunk x) r.2 with chunks := r.1} [] with
          aborted := true, completed := true, busy := false} := by
      rw [hnone]
      rfl
    refine .single ?_ ?_
    · rw [hissue]
      refine .forced ?_
      rw [hnone]
      exact Nat.le_refl 1
    · rintro ⟨-, hloaded⟩
      have hempty : Loaded (allocChunk x) := hloaded _ (by rw [hnone]; exact List.mem_singleton_self _)
      exact hempty.2 rfl

theorem prepare_kind {x : Xfer} {r : Request} {d : Desc} (hmax : 1 ≤ x.llMax)
    (h : prepare x r = some d) : Kind x d := by
  cases r with
  | scatterGather supplies ok =>
    obtain ⟨n, c, hfirst, hprepared, hfilled⟩ := deviceTransfer_prepared hmax h
    have hcover : Single x (Transfer.issue d) := .covered ⟨0, n, issue_cover hfirst hfilled hprepared⟩
    cases hprepared with
    | whole _ chunks lazyMode =>
      refine .tables lazyMode (by rw [chunks]; exact List.cons_ne_nil _ _) ?_
      rw [chunks, List.forall_mem_singleton]
      refine ⟨hfirst.head, fun hnil => ?_⟩
      have hcounted := hfirst.counted
      rw [Counted, hnil, List.length_nil] at hcounted
      omega
    | fixed _ _ _ _ _ lazyMode => exact .single hcover fun hd => by cases lazyMode.symm.trans hd.1
    | shadow _ _ _ _ _ lazyMode => exact .single hcover fun hd => by cases lazyMode.symm.trans hd.1
  | cyclic r left =>
    simp only [prepare] at h
    split at h
    · cases h
    · exact build_kind hmax h
  | interleaved r left =>
    simp only [prepare] at h
    split at h
    · cases h
    · exact build_kind hmax h

/-! ### Runs -/

/-- What a transfer shows: the tables rung for, in their order, the cookie and the flags. -/
def seen (c : Transfer.State) : List Chunk × Bool × Bool × Bool :=
  (c.rung, c.completed, c.aborted, c.hwErr)

/-- How often the cookie is completed, as the descriptor is issued and in the run. -/
def completions (x : Xfer) (d : Desc) (ls : List Label) : Nat :=
  (if (issue d).chan.completed then 1 else 0) +
    Machine.count (step x) (fun s t => !s.chan.completed && t.chan.completed) (issue d) ls

/-- Nothing is under way: no table is staged, launched or run, and no start is outstanding. -/
structure AtRest (s : State) : Prop where
  staged : s.chan.launchPending = false ∧ s.chan.launch = .idle
  started : s.chan.xferStarted = false
  client : s.deferred = false

/-- The pauses of a run that ends in `s` do not show. -/
structure Transparent (x : Xfer) (d : Desc) (ls : List Label) (s : State) : Prop where
  /-- The run without them comes to the same. -/
  same : ∃ c, Machine.run (Transfer.step x) (Transfer.issue d) (ls.filterMap Label.chan?) = some c ∧
    seen c = seen s.chan
  once : completions x d ls = if s.chan.completed then 1 else 0
  /-- No flag is set on a descriptor that has its tables, -/
  clean : d.lazyMode = false → (∀ u ∈ d.chunks, Loaded u) →
    s.chan.aborted = false ∧ s.chan.hwErr = false
  /-- and when there is no more to do its cookie is complete, after all of them. -/
  whole : d.lazyMode = false → (∀ u ∈ d.chunks, Loaded u) → s.chan.completed = true ∨ AtRest s →
    s.chan.completed = true ∧ s.chan.rung = d.chunks

section Runs
variable {x : Xfer} {d : Desc} {s : State} {ls : List Label}

/-- A run that is followed by the run without pauses, and shows no more than that. -/
theorem run_same {P : State → Label → Prop} {Inv : State → Prop} (start : Inv (issue d))
    (keep : ∀ s l t, Inv s → P s l → step x s l = some t →
      Inv t ∧ Machine.Follows (Transfer.step x) Label.chan? State.shown s l t)
    (shows : ∀ s, Inv s → seen s.shown = seen s.chan)
    (rule : Machine.Admissible (step x) P (issue d) ls)
    (h : Machine.run (step x) (issue d) ls = some s) :
    Inv s ∧ (∃ c, Machine.run (Transfer.step x) (Transfer.issue d) (ls.filterMap Label.chan?) = some c ∧
      seen c = seen s.chan) ∧ completions x d ls = if s.chan.completed then 1 else 0 := by
  obtain ⟨hinv, hrun⟩ := Machine.run_follows (step x) (Transfer.step x) Label.chan? State.shown
    keep start rule h
  have hissue : (issue d).shown = Transfer.issue d := rfl
  rw [hissue] at hrun
  refine ⟨hinv, ⟨s.shown, hrun, shows s hinv⟩, ?_⟩
  have completed_eq : ∀ s, Inv s → s.shown.completed = s.chan.completed := by
    intro s hs
    exact congrArg (fun p => p.2.1) (shows s hs)
  refine Machine.count_comes (step x) (q := fun s => s.chan.completed) ?_ start rule h
  intro s l t hs hl hstep
  obtain ⟨ht, hfollows⟩ := keep s l t hs hl hstep
  refine ⟨ht, fun hcompleted => ?_⟩
  rw [← completed_eq t ht]
  rw [← completed_eq s hs] at hcompleted
  unfold Machine.Follows at hfollows
  cases hview : l.chan? with
  | none =>
    rw [hview] at hfollows
    rw [hfollows, hcompleted]
  | some l' =>
    rw [hview] at hfollows
    exact step_completed l' hcompleted hfollows

theorem issue_steady (hmode : d.lazyMode = false) (hne : d.chunks ≠ [])
    (hloaded : ∀ u ∈ d.chunks, Loaded u) : Steady d.chunks (issue d) := by
  obtain ⟨child, rest, hchunks⟩ := List.exists_cons_of_ne_nil hne
  have hstands : Stands d.chunks d [] child rest := ⟨hchunks, hchunks, hmode⟩
  refine .going ?_ (.inl rfl)
  show Stage d.chunks (startTransfer (between d []))
  rw [startTransfer_between hloaded hstands]
  exact .staged hstands

theorem Steady.seen_shown {all : List Chunk} (hloaded : ∀ u ∈ all, Loaded u) (h : Steady all s) :
    seen s.shown = seen s.chan := by
  cases h with
  | going _ hclient => rw [shown_going false hclient]
  | asked _ _ => rw [shown_going true (.inl rfl)]
  | @paused d rung _ _ _ hstands _ | @resumed d rung _ _ hstands =>
    show seen (startTransfer (between d rung)) = _
    rw [startTransfer_between hloaded hstands]
    rfl

theorem Stage.clean {all : List Chunk} {c : Transfer.State} (h : Stage all c) :
    c.aborted = false ∧ c.hwErr = false := by
  cases h <;> exact ⟨rfl, rfl⟩

theorem Steady.clean {all : List Chunk} (h : Steady all s) :
    s.chan.aborted = false ∧ s.chan.hwErr = false := by
  cases h with
  | going hstage _ => exact hstage.clean
  | asked hstage _ => exact hstage.clean
  | paused _ _ => exact ⟨rfl, rfl⟩
  | resumed _ => exact ⟨rfl, rfl⟩

/-- A channel that has no more to do has rung for all tables. -/
theorem Stage.whole {all : List Chunk} {c : Transfer.State} (h : Stage all c)
    (hend : c.completed = true ∨
      (c.launchPending = false ∧ c.launch = .idle) ∧ c.xferStarted = false) :
    c.completed = true ∧ c.rung = all := by
  cases h with
  | finished _ _ => exact ⟨rfl, rfl⟩
  | staged _ =>
    obtain hend | ⟨⟨hend, -⟩, -⟩ := hend <;> cases hend
  | entered _ | preparing _ | ringing _ =>
    obtain hend | ⟨⟨-, hend⟩, -⟩ := hend <;> cases hend
  | running _ =>
    obtain hend | ⟨-, hend⟩ := hend <;> cases hend

theorem Steady.whole {all : List Chunk} (h : Steady all s)
    (hend : s.chan.completed = true ∨ AtRest s) :
    s.chan.completed = true ∧ s.chan.rung = all := by
  cases h with
  | going hstage _ => exact hstage.whole (hend.imp id fun hrest => ⟨hrest.staged, hrest.started⟩)
  | asked hstage _ => exact hstage.whole (hend.imp id fun hrest => ⟨hrest.staged, hrest.started⟩)
  | paused _ _ =>
    rcases hend with hend | hrest
    · cases hend
    · cases hrest.client
  | resumed _ =>
    rcases hend with hend | hrest
    · cases hend
    · cases hrest.client

theorem step_steady {all : List Chunk} (hloaded : ∀ u ∈ all, Loaded u) (s : State) (l : Label)
    (t : State) (hs : Steady all s) (rule : FaultFree x s l ∧ OneBehind s l)
    (h : step x s l = some t) :
    Steady all t ∧ Machine.Follows (Transfer.step x) Label.chan? State.shown s l t := by
  cases l with
  | chan l => exact chanStep_steady hloaded hs rule.1 h
  | pause => exact pause_steady hs h
  | pauseWrite => exact pauseWrite_steady hs rule.2 h
  | resume => exact resume_steady hs h
  | resumeWrite => exact resumeWrite_steady hs h
  | resumeStart => exact resumeStart_steady hloaded hs h

/-- **A pause does not show.** In every fault-free run in which each request is written to a
descriptor that is not lazy, or no longer, and has a table behind the one that is staged or
running, the channel rings for the tables that it rings for without the pauses, in their order,
and completes the cookie once, with the flags that it has without them; a descriptor that has its
tables ends with all of them rung for and no flag set. -/
theorem pause_transparent {r : Request} (hmax : 1 ≤ x.llMax) (hprep : prepare x r = some d)
    (rule : Machine.Admissible (step x) (fun s l => FaultFree x s l ∧ OneBehind s l) (issue d) ls)
    (h : Machine.run (step x) (issue d) ls = some s) : Transparent x d ls s := by
  cases prepare_kind hmax hprep with
  | tables hmode hne hloaded =>
    obtain ⟨hs, hsame, honce⟩ := run_same (issue_steady hmode hne hloaded) (step_steady hloaded)
      (fun s hs => hs.seen_shown hloaded) rule h
    exact ⟨hsame, honce, fun _ _ => hs.clean, fun _ _ => hs.whole⟩
  | single hsingle hother =>
    have start : Untouched x (issue d) := ⟨hsingle, rfl, rfl, .inl rfl⟩
    obtain ⟨-, hsame, honce⟩ := run_same start
      (fun s l t hs rule => step_untouched hs rule.2)
      (fun s hs => by rw [hs.shown_eq]) rule h
    exact ⟨hsame, honce, fun hmode hloaded => absurd ⟨hmode, hloaded⟩ hother,
      fun hmode hloaded => absurd ⟨hmode, hloaded⟩ hother⟩

end Runs

/-- A channel whose tables hold one burst. -/
def tableXfer : Xfer := ⟨.read, 1, 4096, false, 0, false, [], 0, 0x100⟩

/-- As many tables as bursts. -/
def tablesRequest (cnt : Nat) : Request := .cyclic ⟨0x1000, 16, cnt⟩ 16

/-- A staged table is launched. -/
def launchTable : List Label := .chan .launchRun :: List.replicate 3 (.chan (.launch good))

/-- The table that runs is the last before a pause, which is then resumed. -/
def pauseAfter : List Label :=
  [.pause, .pauseWrite, .chan .done, .resume, .resumeWrite, .resumeStart]

/-- The descriptor prepared, issued and run. -/
def paused (x : Xfer) (r : Request) (ls : List Label) : Option State :=
  (prepare x r).bind fun d => Machine.run (step x) (issue d) ls

theorem pause_between_tables :
    ∃ d s, prepare tableXfer (tablesRequest 2) = some d ∧
      s.chan.rung = d.chunks ∧ s.chan.completed = true ∧
      Transparent tableXfer d (launchTable ++ pauseAfter ++ launchTable ++ [.chan .done]) s := by
  have hend : (paused tableXfer (tablesRequest 2)
      (launchTable ++ pauseAfter ++ launchTable ++ [.chan .done])).map (·.chan.completed) =
      some true := by
    decide
  have hrule : ∀ d ∈ prepare tableXfer (tablesRequest 2),
      (d.lazyMode = false ∧ ∀ u ∈ d.chunks, u.head = true ∧ u.bursts ≠ []) ∧
      Machine.Admissible (step tableXfer) (fun s l => FaultFree tableXfer s l ∧ OneBehind s l)
        (issue d) (launchTable ++ pauseAfter ++ launchTable ++ [.chan .done]) := by
    decide
  obtain ⟨s, hs, hcompleted⟩ := Option.map_eq_some_iff.mp hend
  obtain ⟨d, hprep, hrun⟩ := Option.bind_eq_some_iff.mp hs
  obtain ⟨⟨hmode, hloaded⟩, rule⟩ := hrule d hprep
  have transparent := pause_transparent (by decide) hprep rule hrun
  exact ⟨d, s, hprep, (transparent.whole hmode hloaded (.inl hcompleted)).2, hcompleted, transparent⟩

/-- A pause behind the last table: resumed, the transfer has no table to start, and counts as
aborted. -/
theorem pause_shows :
    ¬ ∀ (x : Xfer) (r : Request) (d : Desc) (ls : List Label) (s : State),
      1 ≤ x.llMax → prepare x r = some d → Machine.Admissible (step x) (FaultFree x) (issue d) ls →
      Machine.run (step x) (issue d) ls = some s → Transparent x d ls s := by
  intro hall
  have hend : (paused tableXfer (tablesRequest 1) (launchTable ++ pauseAfter)).map
      (·.chan.aborted) = some true := by
    decide
  have hrule : ∀ d ∈ prepare tableXfer (tablesRequest 1),
      (d.lazyMode = false ∧ ∀ u ∈ d.chunks, u.head = true ∧ u.bursts ≠ []) ∧
      Machine.Admissible (step tableXfer) (FaultFree tableXfer) (issue d)
        (launchTable ++ pauseAfter) := by
    decide
  obtain ⟨s, hs, haborted⟩ := Option.map_eq_some_iff.mp hend
  obtain ⟨d, hprep, hrun⟩ := Option.bind_eq_some_iff.mp hs
  obtain ⟨⟨hmode, hloaded⟩, rule⟩ := hrule d hprep
  have transparent := hall _ _ d _ s (by decide) hprep rule hrun
  cases haborted.symm.trans (transparent.clean hmode hloaded).1

/-- Paused before its refill, a lazy transfer ends with `hw_err`. -/
example : (paused refillXfer (.scatterGather (List.replicate 4 ⟨true, 1, 0⟩) true)
    (launchTable ++ [.pause, .pauseWrite, .chan .done, .chan .lazyRun, .chan (.lazy good),
      .chan (.lazy good)])).map (fun s => (s.request, s.chan.hwErr, s.chan.rung.length)) =
    some (true, true, 1) := by
  decide

end DxNpuDriver.Edma.Pause
