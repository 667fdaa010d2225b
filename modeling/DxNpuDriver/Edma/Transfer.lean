import DxNpuDriver.Edma.Fill
import DxNpuDriver.Lib.Machine

/-! One scatter-gather descriptor from its preparation to its cookie (`dw-edma-core.c`).

`dw_edma_device_transfer` fills one table. Where entries remain, the descriptor is lazy:
either the shadow worker builds the next table while the current one runs and launches
it after Done, or the lazy worker refills the same table after Done. Three work items
run beside the Done interrupt: `launch_work` rings for the first table, `shadow_work`
and `lazy_work` for the later ones.

Each `vc.lock` section is one step, and so is each access outside of it. A work item
has its place in the code and whether it is pending: queueing one that runs leaves a
further run behind. The shadow worker holds its chunk in a local variable and the
descriptor points to it too; the model keeps the two equal where the code writes
through the pointer. Nobody stops or pauses the channel, and its device is not
shutting down. -/
namespace DxNpuDriver.Edma.Transfer
open Fill Errno

/-- The states of `shadow_state`. -/
inductive ShadowState where
  | idle | building | ready | isrPending | cancelled
  deriving DecidableEq

/-- The states of `lazy_refill_state`. -/
inductive RefillState where
  | idle | pending | preparing
  deriving DecidableEq

/-- What `dw_edma_device_transfer` reads: of the channel, of the module parameters and
of the request. `addr` is the device address. -/
structure Xfer where
  dir : Dir
  llMax : Nat
  regionSz : Nat
  shadowWq : Bool
  shadowWqMinSg : Nat
  precopyAvailable : Bool
  sgl : List SgEntry
  len : Nat
  addr : Nat

/-- `struct dw_edma_desc`. `cur` is `sg_cur`, `sg_remaining` and `addr_accum`, `shadowNext`
the three `shadow_next_*`; `chunks_alloc` is the length of `chunks`. -/
structure Desc where
  chunks : List Chunk
  cur : Cursor
  allocSz : Nat
  xferSz : Nat
  lazyMode : Bool
  shadowState : ShadowState
  shadowChunk : Option Chunk
  shadowNextChunk : Option Chunk
  shadowNext : Cursor
  shadowHasMore : Bool
  shadowAllocSz : Nat
  shadowExpectedCb : Bool
  lazyRefillState : RefillState
  lazyWorkInitialized : Bool
  deriving DecidableEq

/-! ### Preparation -/

/-- `dw_edma_alloc_chunk` of a descriptor that has none, with its anchor. -/
def allocChunk (x : Xfer) : Chunk := ⟨true, [], 0, x.regionSz, true⟩

/-- `dw_edma_alloc_unlinked_chunk`. -/
def allocUnlinkedChunk (x : Xfer) : Chunk := ⟨false, [], 0, x.regionSz, false⟩

/-- The descriptor with one table that `dw_edma_alloc_desc` cleared. -/
def desc (c : Chunk) (allocSz : Nat) : Desc :=
  ⟨[c], ⟨[], 0, 0⟩, allocSz, 0, false, .idle, none, none, ⟨[], 0, 0⟩, false, 0, false, .idle, false⟩

/-- `dw_edma_shadow_prepare_build`, where `ok` tells that the chunk can be allocated. -/
def shadowPrepareBuild (x : Xfer) (ok : Bool) (d : Desc) : Option Desc :=
  if d.lazyMode ∧ d.shadowNext.remaining ≠ 0 ∧ ok then
    some {d with shadowChunk := some {allocUnlinkedChunk x with cb := d.shadowExpectedCb},
                 shadowAllocSz := 0, shadowState := .building}
  else none

/-- Fixed-buffer lazy mode. -/
def fixedBuffer (cur : Cursor) (d : Desc) : Desc :=
  {d with cur := cur, lazyMode := true, shadowState := .idle, shadowHasMore := false,
          lazyWorkInitialized := true}

/-- The table is full and entries remain. -/
def prepareLazy (x : Xfer) (ok : Bool) (c : Chunk) (cur : Cursor) (allocSz : Nat) : Desc :=
  let d := desc c allocSz
  if x.dir = .write ∧ x.shadowWq ∧ (x.shadowWqMinSg = 0 ∨ x.shadowWqMinSg ≤ x.len) ∧
      x.precopyAvailable ∧ 2 ≤ cur.remaining then
    let d := {d with cur := cur, lazyMode := true, shadowNext := cur, shadowAllocSz := 0,
                     shadowHasMore := true, shadowExpectedCb := !c.cb}
    (shadowPrepareBuild x ok d).getD (fixedBuffer cur d)
  else fixedBuffer cur d

/-- How a pass of the loop ends it: with a descriptor, or with an error. -/
def prepareEnd (x : Xfer) (ok : Bool) (c : Chunk) (cur : Cursor) (allocSz : Nat) :
    Option (Option Desc) :=
  if cur.remaining = 0 then some (some (desc c allocSz))
  else if cur.sg = [] then some none
  else if c.burstsAlloc = x.llMax then some (some (prepareLazy x ok c cur allocSz))
  else none

/-- `DW_EDMA_PREP_BURST_BATCH_SIZE`. -/
def prepBurstBatchSize : Nat := 64

/-- The loop of `dw_edma_device_transfer`: one element of the list for what the allocator
has at each pass. A list that ends before the loop does stands for no call. -/
def prepareLoop (x : Xfer) (ok : Bool) : List Supply → Chunk → Cursor → Nat → Option Desc
  | [], c, cur, allocSz => (prepareEnd x ok c cur allocSz).join
  | supply :: supplies, c, cur, allocSz =>
    match prepareEnd x ok c cur allocSz with
    | some r => r
    | none =>
      let f := fillSgBursts x.dir x.llMax prepBurstBatchSize supply c cur allocSz
      match f.ret with
      | .ok (_ + 1) => prepareLoop x ok supplies f.chunk f.cur f.allocAccum
      | _ => none

/-- `dw_edma_device_transfer` of a scatter-gather list, on a configured channel of the
right direction, past the allocation of the descriptor and its chunk. -/
def deviceTransfer (x : Xfer) (supplies : List Supply) (ok : Bool) : Option Desc :=
  if x.len < 1 then none else prepareLoop x ok supplies (allocChunk x) ⟨x.sgl, x.len, x.addr⟩ 0

/-! ### The channel and its workers -/

/-- `dw_edma_launch_work_fn`. -/
inductive Launch where
  | idle
  | entry
  | prepare (child : Chunk)
  | ring (child : Chunk) (ret : Ret)
  deriving DecidableEq

/-- `struct dw_edma_lazy_refill_plan`. -/
structure Plan where
  cur : Cursor
  allocSz : Nat
  deriving DecidableEq

/-- `dw_edma_lazy_refill_work`. `commit` has a plan if all went well before it. -/
inductive Refill where
  | idle
  | wait
  | claim (ret : Ret)
  | fill (child : Chunk)
  | prepare (child : Chunk) (plan : Plan)
  | commit (child : Chunk) (plan : Option Plan)
  deriving DecidableEq

/-- `dw_edma_shadow_build_work`, with `shadow` and `next_shadow`. -/
inductive Shadow where
  | idle
  | entry
  /-- `shadow_chunk` was null. -/
  | noChunk
  | fill (shadow : Chunk)
  | prebuild (shadow : Chunk)
  /-- The table could not be built. -/
  | failed
  | prealloc (shadow : Chunk)
  /-- The `switch` on `shadow_state`. -/
  | turn (shadow : Chunk) (next : Option Chunk)
  /-- The test for an active table that has already stopped. -/
  | readStarted (shadow : Chunk)
  | readStatus (shadow : Chunk)
  | clearStarted (shadow : Chunk)
  | handoff (shadow : Chunk)
  | recheck (shadow : Chunk)
  | precopy (shadow : Chunk) (next : Option Chunk)
  | precopyFailed (cancelled : Bool)
  | launch (shadow : Chunk) (next : Option Chunk)
  | queueNext
  /-- No chunk for the next build: `aborted`, then `lazy_mode`. -/
  | setAborted
  | clearLazy
  deriving DecidableEq

/-- The channel and its one descriptor. `completed` tells that the cookie is complete,
`rung` are the tables the data doorbell was rung for, and `unexpected` that the default
branch of a `switch` on `shadow_state` was taken. -/
structure State where
  desc : Desc
  completed : Bool
  busy : Bool
  xferStarted : Bool
  hwErr : Bool
  aborted : Bool
  unexpected : Bool
  pendingLaunch : Option Chunk
  launchPending : Bool
  launch : Launch
  lazyPending : Bool
  lazy : Refill
  shadowPending : Bool
  shadow : Shadow
  rung : List Chunk
  deriving DecidableEq

/-- `dw_edma_v0_core_launch_prepared` and `dw_edma_v0_core_launch_precopied`. -/
def ring (c : Chunk) (s : State) : State := {s with xferStarted := true, rung := s.rung ++ [c]}

/-- `list_del` and `vchan_cookie_complete`. -/
def cookieComplete (s : State) : State := {s with completed := true, busy := false}

/-- `dw_edma_start_transfer`. -/
def startTransfer (s : State) : State :=
  if s.completed then s
  else
    match s.desc.chunks with
    | [] => cookieComplete {s with aborted := true}
    | child :: _ =>
      if child.head ∧ child.bursts ≠ [] then
        {s with pendingLaunch := some child, launchPending := true}
      else cookieComplete {s with aborted := true}

/-- `dw_edma_device_issue_pending` of the descriptor on an idle channel, after
`dw_edma_sg_process` has cleared the two flags. -/
def issue (d : Desc) : State :=
  startTransfer
    ⟨d, false, true, false, false, false, false, none, false, .idle, false, .idle, false, .idle, []⟩

/-! ### Done -/

/-- `dw_edma_lazy_error_locked`. -/
def lazyError (s : State) : State := {s with desc := {s.desc with lazyMode := false}, hwErr := true}

/-- `dw_edma_defer_lazy_done_locked`, on a device whose work queue exists, without a STOP. -/
def deferLazyDone (s : State) : State × Bool :=
  if ¬s.desc.lazyMode then (s, false)
  else
    match s.desc.shadowState with
    | .ready | .building =>
      ({s with desc := {s.desc with shadowState := .isrPending}, shadowPending := true}, true)
    | .idle =>
      if 0 < s.desc.cur.remaining then
        let s := {s with desc := {s.desc with lazyRefillState := .pending}}
        if s.desc.lazyWorkInitialized then ({s with lazyPending := true}, true)
        else (lazyError s, true)
      else (s, false)
    | .isrPending | .cancelled =>
      ({s with desc := {s.desc with lazyMode := false}, aborted := true, unexpected := true}, false)

/-- The end of `dw_edma_complete_done_locked`, without a request. -/
def finishDone (s : State) : State :=
  if s.desc.chunks ≠ [] then startTransfer {s with busy := true} else cookieComplete s

/-- `dw_edma_done_interrupt`: the section under `vc.lock`. -/
def doneInterrupt (s : State) : State :=
  if ¬s.xferStarted then s
  else
    let s := {s with xferStarted := false}
    if s.completed then s
    else
      match s.desc.chunks with
      | [] => finishDone s
      | child :: rest =>
        let s := {s with desc := {s.desc with
          xferSz := (s.desc.xferSz + child.llRegionSz) % 2 ^ 32}}
        match deferLazyDone s with
        | (s, true) => s
        | (s, false) => finishDone {s with desc := {s.desc with chunks := rest}}

/-! ### The launch worker -/

/-- What a step learns from outside: the result of a call into the core, the answer to a
question (is a launch allowed, does CS read STOP, is there a chunk), and what the burst
allocator has. -/
structure Env where
  ret : Ret
  yes : Bool
  supply : Supply
  deriving DecidableEq

/-- `dw_edma_v0_core_prepare_start` signals every failure but a busy helper. -/
def signalled (ret : Ret) : Bool := ret ≠ .ok ∧ ret ≠ .err .EBUSY

/-- `dw_edma_launch_work_fn`. -/
def launchStep (env : Env) (s : State) : Option State :=
  match s.launch with
  | .idle => none
  | .entry =>
    match s.pendingLaunch with
    | none => some {s with launch := .idle}
    | some child =>
      let s := {s with pendingLaunch := none}
      if ¬env.yes ∨ s.aborted ∨ s.hwErr ∨ ¬s.busy then some {s with launch := .idle}
      else some {s with launch := .prepare child}
  | .prepare child =>
    some {s with hwErr := s.hwErr || signalled env.ret, launch := .ring child env.ret}
  | .ring child ret =>
    let s := {s with launch := .idle}
    if ret ≠ .ok then some {s with hwErr := s.hwErr || decide (ret = .err .EBUSY)}
    else if ¬env.yes ∨ s.aborted ∨ s.hwErr ∨ ¬s.busy then some s
    else if s.completed ∨ s.desc.chunks.head? ≠ some child then some {s with hwErr := true}
    else
      let s := ring child s
      if s.desc.lazyMode ∧ s.desc.shadowState = .building then some {s with shadowPending := true}
      else some s

/-! ### The lazy worker -/

/-- `dw_edma_free_burst`. -/
def freeBurst (c : Chunk) : Chunk := {c with head := false, bursts := []}

/-- `dw_edma_lazy_refill_chunk_prepare`. -/
def lazyRefillChunkPrepare (x : Xfer) (supply : Supply) (d : Desc) (c : Chunk) :
    Chunk × Option Plan :=
  if d.cur.sg = [] ∨ d.cur.remaining = 0 then (c, none)
  else
    let c : Chunk := ⟨false, [], 0, x.regionSz, !c.cb⟩
    if ¬supply.head then (c, none)
    else
      let f := fillSgBursts x.dir x.llMax x.llMax supply (allocHead c) d.cur d.allocSz
      match f.ret with
      | .ok (_ + 1) => (f.chunk, some ⟨f.cur, f.allocAccum⟩)
      | _ => (freeBurst f.chunk, none)

/-- `dw_edma_lazy_refill_work`, without a STOP. -/
def lazyStep (x : Xfer) (env : Env) (s : State) : Option State :=
  match s.lazy with
  | .idle => none
  | .wait =>
    -- `dw_edma_wait_stopped_for_lazy_refill`
    some {s with lazy := .claim (if s.hwErr ∨ s.aborted then .err EIO else env.ret)}
  | .claim ret =>
    let s := {s with lazy := .idle}
    if s.desc.lazyRefillState ≠ .pending then some s
    else
      let s := {s with desc := {s.desc with lazyRefillState := .idle}}
      if s.completed then some s
      else
        match s.desc.chunks with
        | [] => some (lazyError s)
        | child :: rest =>
          if ret ≠ .ok ∨ ¬s.desc.lazyMode ∨ s.desc.cur.remaining = 0 then some (lazyError s)
          else
            some {s with desc := {s.desc with chunks := rest, lazyRefillState := .preparing},
                         lazy := .fill child}
  | .fill child =>
    match lazyRefillChunkPrepare x env.supply s.desc (freeBurst child) with
    | (c, none) => some {s with lazy := .commit c none}
    | (c, some plan) => some {s with lazy := .prepare c plan}
  | .prepare child plan =>
    some {s with hwErr := s.hwErr || signalled env.ret,
                 lazy := .commit child (if env.ret = .ok then some plan else none)}
  | .commit child plan =>
    let s := {s with lazy := .idle}
    if s.completed then some {s with desc := {s.desc with lazyRefillState := .idle}}
    else if s.desc.lazyRefillState ≠ .preparing then some s
    else
      let s := {s with desc := {s.desc with lazyRefillState := .idle}}
      match plan with
      | none => some (lazyError s)
      | some plan =>
        if ¬s.desc.lazyMode ∨ s.aborted ∨ s.hwErr then some s
        else
          some (ring child {s with busy := true, desc := {s.desc with
            cur := plan.cur, allocSz := plan.allocSz,
            lazyMode := s.desc.lazyMode && decide (plan.cur.remaining ≠ 0),
            chunks := child :: s.desc.chunks}})

/-! ### The shadow worker -/

/-- `dw_edma_shadow_fill_chunk` of a chunk without bursts. -/
def shadowFillChunk (x : Xfer) (supply : Supply) (d : Desc) (c : Chunk) : Desc × Option Chunk :=
  if d.shadowNext.sg = [] ∨ d.shadowNext.remaining = 0 ∨ ¬supply.head then (d, none)
  else
    let f := fillSgBursts x.dir x.llMax x.llMax supply (allocHead c) d.shadowNext d.shadowAllocSz
    match f.ret with
    | .ok (_ + 1) =>
      ({d with shadowNext := f.cur, shadowHasMore := decide (0 < f.cur.remaining),
               shadowAllocSz := f.allocAccum}, some f.chunk)
    | _ => ({d with shadowAllocSz := f.allocAccum}, none)

/-- The worker consumes the handoff: it takes `shadow_next_chunk` and goes to the copy. -/
def consumeHandoff (c : Chunk) (s : State) : State :=
  {s with desc := {s.desc with shadowNextChunk := none},
          shadow := .precopy c s.desc.shadowNextChunk}

/-- The active table gives way to the built one, which is not yet launched. -/
def swapChunks (c : Chunk) (d : Desc) : Desc :=
  {d with shadowChunk := none, allocSz := (d.allocSz + d.shadowAllocSz) % 2 ^ 32,
          shadowAllocSz := 0, chunks := c :: d.chunks.tail, shadowState := .idle,
          shadowExpectedCb := !c.cb}

/-- The last section of `dw_edma_shadow_build_work`: swap, doorbell, and the next build. -/
def shadowLaunch (allowed : Bool) (c : Chunk) (next : Option Chunk) (s : State) : State :=
  if s.desc.shadowState = .cancelled ∨ s.aborted then
    {s with desc := {s.desc with shadowState := .idle}, shadow := .idle}
  else
    let s := {s with desc := swapChunks c s.desc, busy := true}
    if ¬allowed then {lazyError s with shadow := .idle}
    else if s.desc.shadowHasMore then
      match next with
      | some n =>
        ring c {s with shadow := .queueNext, desc := {s.desc with
          shadowChunk := some {n with cb := s.desc.shadowExpectedCb},
          shadowNextChunk := none, shadowAllocSz := 0, shadowState := .building}}
      | none => ring c {s with shadow := .setAborted}
    else
      ring c {s with shadow := .idle, desc := {s.desc with
        lazyMode := false, cur := {s.desc.cur with remaining := 0},
        shadowNext := {s.desc.shadowNext with remaining := 0}}}

/-- `dw_edma_shadow_build_work`. -/
def shadowStep (x : Xfer) (env : Env) (s : State) : Option State :=
  match s.shadow with
  | .idle => none
  | .entry =>
    match s.desc.shadowChunk with
    | none => some {s with shadow := .noChunk}
    | some c =>
      if s.desc.shadowState = .isrPending ∧ c.head ∧ c.burstsAlloc ≠ 0 then
        some (consumeHandoff c s)
      else some {s with shadow := .fill c}
  | .noChunk => some {s with hwErr := true, shadow := .idle}
  | .fill c =>
    match shadowFillChunk x env.supply s.desc c with
    | (d, some c') => some {s with desc := {d with shadowChunk := some c'}, shadow := .prebuild c'}
    | (d, none) => some {s with desc := d, shadow := .failed}
  | .prebuild c => some {s with shadow := if env.ret = .ok then .prealloc c else .failed}
  | .failed =>
    let fatal := decide (s.desc.shadowState ≠ .cancelled) && !s.aborted
    some {s with desc := {s.desc with shadowChunk := none, shadowState := .idle,
                                      lazyMode := s.desc.lazyMode && !fatal},
                 hwErr := s.hwErr || fatal, shadow := .idle}
  | .prealloc c =>
    let next := if s.desc.shadowHasMore ∧ env.yes then some (allocUnlinkedChunk x) else none
    some {s with shadow := .turn c next}
  | .turn c next =>
    match s.desc.shadowState with
    | .building =>
      some {s with desc := {s.desc with shadowState := .ready, shadowNextChunk := next},
                   shadow := .readStarted c}
    | .isrPending => some {s with shadow := .precopy c next}
    | .cancelled => some {s with desc := {s.desc with shadowState := .idle}, shadow := .idle}
    | .idle | .ready =>
      some {s with desc := {s.desc with shadowState := .idle}, shadow := .idle, unexpected := true}
  | .readStarted c => some {s with shadow := if s.xferStarted then .readStatus c else .recheck c}
  | .readStatus c => some {s with shadow := if env.yes then .clearStarted c else .recheck c}
  | .clearStarted c => some {s with xferStarted := false, shadow := .handoff c}
  | .handoff c =>
    if s.desc.lazyMode ∧ s.desc.shadowState = .ready ∧ s.desc.shadowChunk = some c then
      match s.desc.chunks with
      | [] => some {s with shadow := .recheck c}
      | old :: _ =>
        some (consumeHandoff c {s with desc := {s.desc with
          xferSz := (s.desc.xferSz + old.llRegionSz) % 2 ^ 32, shadowState := .isrPending}})
    else some {s with shadow := .recheck c}
  | .recheck c =>
    if s.desc.lazyMode ∧ s.desc.shadowState = .isrPending ∧ s.desc.shadowChunk = some c then
      some (consumeHandoff c s)
    else some {s with shadow := .idle}
  | .precopy c next =>
    match env.ret with
    | .ok => some {s with shadow := .launch c next}
    | .err e =>
      let cancelled := decide (e = .ECANCELED) &&
        (decide (s.desc.shadowState = .cancelled) || s.aborted)
      some {s with shadow := .precopyFailed cancelled}
  | .precopyFailed cancelled =>
    some {s with desc := {s.desc with shadowChunk := none, shadowNextChunk := none,
                                      lazyMode := false, shadowState := .idle},
                 hwErr := s.hwErr || !cancelled, shadow := .idle}
  | .launch c next => some (shadowLaunch env.yes c next s)
  | .queueNext => some {s with shadowPending := true, shadow := .idle}
  | .setAborted => some {s with aborted := true, shadow := .clearLazy}
  | .clearLazy => some {s with desc := {s.desc with lazyMode := false}, shadow := .idle}

/-! ### The machine -/

inductive Label where
  | done
  /-- A work item that is pending starts to run. -/
  | launchRun | lazyRun | shadowRun
  | launch (env : Env)
  | lazy (env : Env)
  | shadow (env : Env)
  deriving DecidableEq

def step (x : Xfer) (s : State) : Label → Option State
  | .done => some (doneInterrupt s)
  | .launchRun =>
    if s.launchPending ∧ s.launch = .idle then
      some {s with launchPending := false, launch := .entry}
    else none
  | .lazyRun =>
    if s.lazyPending ∧ s.lazy = .idle then some {s with lazyPending := false, lazy := .wait}
    else none
  | .shadowRun =>
    if s.shadowPending ∧ s.shadow = .idle then
      some {s with shadowPending := false, shadow := .entry}
    else none
  | .launch env => launchStep env s
  | .lazy env => lazyStep x env s
  | .shadow env => shadowStep x env s

end DxNpuDriver.Edma.Transfer
