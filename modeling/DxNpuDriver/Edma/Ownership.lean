import DxNpuDriver.Edma.Memory
import DxNpuDriver.Edma.Transfer

/-! Who owns the chunks of a descriptor (`dw-edma-core.c`, `dw-edma-mem.c`).

A chunk is in the list of its descriptor, behind `shadow_chunk` or `shadow_next_chunk`, in a
local variable of a worker, or on the list of the device from which the cleanup work frees
it. The machine moves the pointers as the code does, from the preparation of the descriptor
until `dw_edma_free_desc` has returned. A section under `vc.lock` is one step, and so is each
free outside of it; a pointer that still points to a freed chunk is there in the state.

What decides a branch and does not own anything is answered by the environment at each step
(`Env`): the flags of the channel and of the descriptor that many write, the request, the
hardware and the allocators. So the runs are more than those of the driver. The launch worker
owns nothing; it is one step. The pool of bursts is shared with other descriptors, which take
from it and give back at any time. -/
namespace DxNpuDriver.Edma.Ownership
open Memory
open Transfer (ShadowState RefillState)

/-- `enum dw_edma_request`. -/
inductive Request where
  | none | stop | pause
  deriving DecidableEq

/-- What a step finds: `lazy_mode`, `aborted`, `hw_err`, `dw_edma_shadow_launch_allowed`, whether
the channel was started and has stopped, whether `sg_remaining` and `shadow_has_more` are set,
the result of a call into the core, whether the device is shutting down, the request; and of
the allocators: whether there is a chunk, an anchor, and what a fill meets. -/
structure Env where
  lazyMode : Bool
  aborted : Bool
  hwErr : Bool
  allowed : Bool
  stopped : Bool
  remaining : Bool
  more : Bool
  ret : Bool
  shuttingDown : Bool
  request : Request
  chunk : Bool
  head : Bool
  valid : Bool
  need : Nat
  entries : List Entry
  contd : List Bool

/-- The places of `dw_edma_free_desc`. -/
inductive Free where
  | check
  | mark
  /-- `cancel_work_sync(&desc->shadow_work)`. -/
  | syncShadow
  | freeShadow
  | freeNext
  | markLazy
  /-- `cancel_work_sync(&desc->lazy_work)`. -/
  | syncLazy
  | freeChunk
  | returned
  deriving DecidableEq

/-- Where the descriptor is: in `dw_edma_device_transfer`, not yet issued, first in
`desc_issued`, taken off that list, or in `dw_edma_free_desc`. -/
inductive Phase where
  | preparing
  | waiting
  | issued
  | detached
  | freeing (f : Free)
  deriving DecidableEq

/-- `dw_edma_shadow_build_work`, with `shadow` and `next_shadow`. -/
inductive Shadow where
  | idle
  | entry
  | fill (shadow : Nat)
  /-- The table could not be built: the chunk is freed, then its pointer cleared. -/
  | discard (shadow : Nat)
  | failed
  | prebuild (shadow : Nat)
  | prealloc (shadow : Nat)
  /-- The `switch` on `shadow_state`. -/
  | turn (shadow : Nat) (next : Option Nat)
  | announced (shadow : Nat)
  | handoff (shadow : Nat)
  | recheck (shadow : Nat)
  | precopy (shadow : Nat) (next : Option Nat)
  | precopyFree (shadow : Nat) (next : Option Nat)
  | precopyFailed
  | launch (shadow : Nat) (next : Option Nat)
  | queueNext (queued : Nat)
  /-- There is no work queue to queue the next build on. -/
  | unqueued (queued : Nat)
  /-- `dw_edma_free_unlinked_chunk` of `next_shadow` before the return. -/
  | release (next : Option Nat)
  deriving DecidableEq

/-- `dw_edma_lazy_refill_work`, with `child`. -/
inductive Refill where
  | idle
  | claim
  | refill (child : Nat)
  | prepare (child : Nat)
  | start (child : Nat)
  | commit (child : Nat) (ok : Bool)
  | release (child : Nat)
  deriving DecidableEq

/-- The descriptor, its work items, and the cleanup work. `staged` is `pending_launch_chunk`;
`draining` is what the cleanup work has taken over from `cleanup_chunks`. -/
structure State where
  phase : Phase
  chunks : List Nat
  shadowState : ShadowState
  shadowChunk : Option Nat
  shadowNextChunk : Option Nat
  shadowWorkInitialized : Bool
  lazyRefillState : RefillState
  lazyWorkInitialized : Bool
  staged : Option Nat
  shadowWq : Bool
  shadowPending : Bool
  shadow : Shadow
  lazyPending : Bool
  lazy : Refill
  cleanup : List Nat
  draining : List Nat
  mem : Store

/-- The descriptor that `dw_edma_alloc_desc` cleared, and the pool that the device was given. -/
def start (size : Nat) : State :=
  ⟨.preparing, [], .idle, none, none, false, .idle, false, none, true, false, .idle, false, .idle,
    [], [], memInit size⟩

section
variable (size : Nat)

/-! ### Preparation -/

/-- `dw_edma_alloc_chunk` in `dw_edma_device_transfer`; without a chunk the descriptor is freed. -/
def prepChunk (env : Env) (s : State) : State :=
  if ¬env.chunk then {s with phase := .freeing .check}
  else
    let m := allocChunkForChan s.mem
    match allocBurst env.head s.mem.fresh m with
    | none => {s with phase := .freeing .check, mem := kfree s.mem.fresh m}
    | some m => {s with chunks := s.chunks ++ [s.mem.fresh], mem := m}

/-- Bursts for the last chunk, from a scatter-gather list or one by one. -/
def prepFill (env : Env) (s : State) : State :=
  match s.chunks.getLast? with
  | none => s
  | some c =>
    let r := fillSgBursts size env.need env.entries c s.mem
    if env.valid then {s with mem := r.1} else {s with mem := r.1, phase := .freeing .check}

/-- Fixed-buffer lazy mode. -/
def prepFixed (s : State) : State := {s with lazyWorkInitialized := true, phase := .waiting}

/-- `dw_edma_shadow_prepare_build`, and the fixed-buffer mode if that fails. -/
def prepShadow (env : Env) (s : State) : State :=
  let s := {s with shadowWorkInitialized := true}
  if ¬env.chunk then prepFixed s
  else
    let c := s.mem.fresh
    let s := {s with mem := allocChunkForChan s.mem}
    if ¬s.shadowWq then prepFixed {s with mem := freeUnlinkedChunk size c s.mem}
    else {s with shadowChunk := some c, shadowState := .building, phase := .waiting}

/-! ### The channel -/

/-- `list_del` and `vchan_cookie_complete`. -/
def cookieComplete (s : State) : State := {s with phase := .detached}

/-- `dw_edma_start_transfer`. -/
def startTransfer (env : Env) (s : State) : State :=
  if env.shuttingDown ∨ ¬s.shadowWq then s
  else
    match s.chunks with
    | [] => cookieComplete s
    | child :: _ => if hasData s.mem child then {s with staged := some child} else cookieComplete s

/-- `dw_edma_launch_work_fn`. -/
def launch (env : Env) (s : State) : Option State :=
  match s.staged with
  | none => none
  | some child =>
    let s := {s with staged := none}
    if ¬env.ret ∨ s.phase ≠ .issued ∨ s.chunks.head? ≠ some child then some s
    else
      match writeChunk size env.contd child s.mem with
      | none => some s
      | some m =>
        let s := {s with mem := m}
        if ¬env.allowed then some s
        else if env.lazyMode ∧ s.shadowState = .building then
          if s.shadowWq then some {s with shadowPending := true}
          else some {s with shadowState := .idle}
        else some s

/-- `dw_edma_free_burst`, `list_del` and `dw_edma_defer_chunk_free` of the first chunk. -/
def retire (s : State) : State :=
  match s.chunks with
  | [] => s
  | child :: rest =>
    {s with chunks := rest, cleanup := s.cleanup ++ [child], mem := freeBurst size child s.mem}

/-- A build that has not been handed over is cancelled. -/
def cancelBuild (s : State) : State :=
  if s.shadowState = .building ∨ s.shadowState = .isrPending then {s with shadowState := .cancelled}
  else s

/-- `dw_edma_defer_lazy_done_locked`. -/
def deferLazyDone (env : Env) (s : State) : State × Bool :=
  if ¬env.lazyMode then (s, false)
  else if env.request = .stop then
    (if s.shadowState = .ready then {s with shadowState := .cancelled} else cancelBuild s, false)
  else
    match s.shadowState with
    | .ready | .building =>
      ({s with shadowState := .isrPending, shadowPending := s.shadowPending || s.shadowWq}, true)
    | .idle =>
      if env.remaining then
        ({s with lazyRefillState := .pending,
                 lazyPending := s.lazyPending || (s.lazyWorkInitialized && s.shadowWq)}, true)
      else (s, false)
    | .isrPending | .cancelled => (s, false)

/-- The `switch` on the request at the end of `dw_edma_complete_done_locked`. -/
def finishDone (env : Env) (s : State) : State :=
  match env.request with
  | .none => if s.chunks ≠ [] then startTransfer env s else cookieComplete s
  | .stop =>
    cookieComplete
      (if s.shadowState = .ready then {s with shadowState := .idle} else cancelBuild s)
  | .pause => s

/-- `dw_edma_complete_done_locked` of the descriptor. -/
def doneInterrupt (env : Env) (s : State) : State :=
  if s.chunks = [] then finishDone env s
  else
    match deferLazyDone env s with
    | (s, true) => s
    | (s, false) => finishDone env (retire size s)

/-- `dw_edma_abort_interrupt` of the descriptor. -/
def abortInterrupt (s : State) : State := cookieComplete (cancelBuild s)

/-- `dw_edma_device_terminate_all`, where `drain` tells whether it takes the descriptors off
their lists; else it leaves a stop request behind. -/
def terminateAll (drain : Bool) (s : State) : State :=
  let s := {s with staged := none}
  if drain ∧ (s.phase = .waiting ∨ s.phase = .issued) then cookieComplete s else s

/-! ### The workers -/

/-- The anchor and the fill of `dw_edma_shadow_fill_chunk` and
`dw_edma_lazy_refill_chunk_prepare`, and whether bursts were filled. -/
def fillChunk (env : Env) (c : Nat) (m : Store) : Store × Bool :=
  if ¬env.remaining then (m, false)
  else
    match allocBurst env.head c m with
    | none => (m, false)
    | some m =>
      let r := fillSgBursts size env.need env.entries c m
      (r.1, env.valid && decide (0 < r.2))

/-- The worker takes `shadow_next_chunk` and goes to the copy. -/
def consumeHandoff (c : Nat) (s : State) : State :=
  {s with shadowNextChunk := none, shadow := .precopy c s.shadowNextChunk}

/-- The shadow takes the place of the first chunk, which is retired. -/
def swapChunks (c : Nat) (s : State) : State :=
  let s := retire size s
  {s with shadowChunk := none, chunks := c :: s.chunks, shadowState := .idle}

/-- The last section of `dw_edma_shadow_build_work`. -/
def shadowLaunch (env : Env) (c : Nat) (next : Option Nat) (s : State) : State :=
  if s.shadowState = .cancelled ∨ env.aborted ∨ env.request ≠ .none then
    {s with shadowState := .idle, shadow := .release next}
  else
    let s := swapChunks size c s
    if ¬env.allowed then {s with shadow := .release next}
    else
      match next with
      | some n =>
        if env.more then
          {s with shadowChunk := some n, shadowNextChunk := none, shadowState := .building,
                  shadow := .queueNext n}
        else {s with shadow := .release next}
      | none => {s with shadow := .release next}

/-- `dw_edma_shadow_build_work`. -/
def shadowStep (env : Env) (s : State) : Option State :=
  match s.shadow with
  | .idle => none
  | .entry =>
    match s.shadowChunk with
    | none => some {s with shadow := .idle}
    | some c =>
      if s.shadowState = .isrPending ∧ hasData s.mem c then some (consumeHandoff c s)
      else some {s with shadow := .fill c}
  | .fill c =>
    let r := fillChunk size env c s.mem
    some {s with mem := r.1, shadow := if r.2 then .prebuild c else .discard c}
  | .discard c => some {s with mem := freeUnlinkedChunk size c s.mem, shadow := .failed}
  | .failed => some {s with shadowChunk := none, shadowState := .idle, shadow := .idle}
  | .prebuild c =>
    if ¬env.ret then some {s with shadow := .discard c}
    else
      match writeChunk size env.contd c s.mem with
      | none => some {s with shadow := .discard c}
      | some m => some {s with mem := m, shadow := .prealloc c}
  | .prealloc c =>
    if env.more ∧ env.chunk then
      some {s with mem := allocChunkForChan s.mem, shadow := .turn c (some s.mem.fresh)}
    else some {s with shadow := .turn c none}
  | .turn c next =>
    match s.shadowState with
    | .building =>
      some {s with shadowState := .ready, shadowNextChunk := next, shadow := .announced c}
    | .isrPending => some {s with shadow := .precopy c next}
    | .cancelled | .idle | .ready => some {s with shadowState := .idle, shadow := .release next}
  | .announced c => some {s with shadow := if env.stopped then .handoff c else .recheck c}
  | .handoff c =>
    if env.lazyMode ∧ s.shadowState = .ready ∧ s.shadowChunk = some c ∧ s.chunks ≠ [] then
      some (consumeHandoff c {s with shadowState := .isrPending})
    else some {s with shadow := .recheck c}
  | .recheck c =>
    if env.lazyMode ∧ s.shadowState = .isrPending ∧ s.shadowChunk = some c then
      some (consumeHandoff c s)
    else some {s with shadow := .idle}
  | .precopy c next =>
    some {s with shadow := if env.ret then .launch c next else .precopyFree c next}
  | .precopyFree c next =>
    some {s with mem := freeUnlinked size next (freeUnlinkedChunk size c s.mem),
                 shadow := .precopyFailed}
  | .precopyFailed =>
    some {s with shadowChunk := none, shadowNextChunk := none, shadowState := .idle,
                 shadow := .idle}
  | .launch c next => some (shadowLaunch size env c next s)
  | .queueNext c =>
    if s.shadowWq then some {s with shadowPending := true, shadow := .idle}
    else some {s with shadow := .unqueued c}
  | .unqueued c =>
    let s := {s with shadow := .release (some c)}
    if s.shadowState = .building ∧ s.shadowChunk = some c then
      some {s with shadowChunk := none, shadowState := .idle}
    else some s
  | .release next => some {s with mem := freeUnlinked size next s.mem, shadow := .idle}

/-- `dw_edma_lazy_refill_work`. -/
def lazyStep (env : Env) (s : State) : Option State :=
  match s.lazy with
  | .idle => none
  | .claim =>
    let s := {s with lazy := .idle}
    if s.lazyRefillState ≠ .pending then some s
    else
      let s := {s with lazyRefillState := .idle}
      if s.phase ≠ .issued ∨ ¬env.ret ∨ ¬env.lazyMode then some s
      else
        match s.chunks with
        | [] => some s
        | child :: rest =>
          if env.request = .stop then some (cookieComplete (retire size s))
          else if env.request ≠ .none ∨ ¬env.remaining then some s
          else some {s with chunks := rest, lazyRefillState := .preparing, lazy := .refill child}
  | .refill c => some {s with mem := freeBurst size c s.mem, lazy := .prepare c}
  | .prepare c =>
    -- `dw_edma_reset_chunk_region` clears `chunk->burst`
    let r := fillChunk size env c (if env.remaining then s.mem.set c none else s.mem)
    if r.2 then some {s with mem := r.1, lazy := .start c}
    else some {s with mem := freeBurst size c r.1, lazy := .commit c false}
  | .start c =>
    if ¬env.stopped then some {s with lazy := .commit c false}
    else
      match writeChunk size env.contd c s.mem with
      | none => some {s with lazy := .commit c false}
      | some m => some {s with mem := m, lazy := .commit c env.ret}
  | .commit c ok =>
    let t := {s with lazy := .idle, lazyRefillState := .idle}
    if s.phase ≠ .issued then some {t with lazy := .release c}
    else if s.lazyRefillState ≠ .preparing then some {s with lazy := .release c}
    else if ¬ok then some {t with cleanup := s.cleanup ++ [c]}
    else if env.request = .stop then some (cookieComplete {t with cleanup := s.cleanup ++ [c]})
    else if env.request ≠ .none ∨ ¬env.lazyMode ∨ env.aborted ∨ env.hwErr then
      some {t with cleanup := s.cleanup ++ [c]}
    else some {t with chunks := c :: s.chunks}
  | .release c => some {s with mem := freeUnlinkedChunk size c s.mem, lazy := .idle}

/-- `dw_edma_free_desc`; the steps that wait for a worker are enabled when it does not run. -/
def freeStep (s : State) : Option State :=
  match s.phase with
  | .detached => some {s with phase := .freeing .check}
  | .freeing .check =>
    if ¬s.shadowWorkInitialized then some {s with phase := .freeing .freeShadow}
    else if s.shadowState ≠ .idle then some {s with phase := .freeing .mark}
    else some {s with phase := .freeing .syncShadow}
  | .freeing .mark => some {s with shadowState := .cancelled, phase := .freeing .syncShadow}
  | .freeing .syncShadow =>
    if s.shadow = .idle then
      some {s with shadowPending := false, shadowWorkInitialized := false,
                   phase := .freeing .freeShadow}
    else none
  | .freeing .freeShadow =>
    some {s with mem := freeUnlinked size s.shadowChunk s.mem, shadowChunk := none,
                 phase := .freeing .freeNext}
  | .freeing .freeNext =>
    some {s with mem := freeUnlinked size s.shadowNextChunk s.mem, shadowNextChunk := none,
                 phase := .freeing .markLazy}
  | .freeing .markLazy =>
    if ¬s.lazyWorkInitialized then some {s with phase := .freeing .freeChunk}
    else some {s with lazyRefillState := .idle, phase := .freeing .syncLazy}
  | .freeing .syncLazy =>
    if s.lazy = .idle then
      some {s with lazyPending := false, lazyWorkInitialized := false,
                   phase := .freeing .freeChunk}
    else none
  | .freeing .freeChunk =>
    match s.chunks with
    | [] => some {s with phase := .freeing .returned}
    | c :: rest => some {s with chunks := rest, mem := freeUnlinkedChunk size c s.mem}
  | _ => none

/-! ### The machine -/

inductive Label where
  | prepChunk (env : Env)
  | prepFill (env : Env)
  | prepShadow (env : Env)
  | prepFixed
  | prepDone
  | issue (env : Env)
  | launch (env : Env)
  | done (env : Env)
  | abort
  | terminate (drain : Bool)
  /-- A work item that is pending starts to run. -/
  | shadowRun | lazyRun | cleanupRun
  | shadow (env : Env)
  | lazy (env : Env)
  | cleanup
  | free
  /-- Another descriptor takes a burst from the pool, or gives one back. -/
  | take
  | give (b : Nat)
  /-- `destroy_workqueue`, which waits for all its work. -/
  | destroyWq

/-- Nothing is queued or runs on the work queue. -/
def drained (s : State) : Bool :=
  s.staged = none && !s.shadowPending && s.shadow = .idle && !s.lazyPending && s.lazy = .idle

def step (s : State) : Label → Option State
  | .prepChunk env => if s.phase = .preparing then some (prepChunk env s) else none
  | .prepFill env => if s.phase = .preparing then some (prepFill size env s) else none
  | .prepShadow env =>
    if s.phase = .preparing ∧ s.chunks.length = 1 then some (prepShadow size env s) else none
  | .prepFixed => if s.phase = .preparing ∧ s.chunks.length = 1 then some (prepFixed s) else none
  | .prepDone => if s.phase = .preparing then some {s with phase := .waiting} else none
  | .issue env =>
    if s.phase = .waiting then some (startTransfer env {s with phase := .issued}) else none
  | .launch env => launch size env s
  | .done env => if s.phase = .issued then some (doneInterrupt size env s) else none
  | .abort => if s.phase = .issued then some (abortInterrupt s) else none
  | .terminate drain => some (terminateAll drain s)
  | .shadowRun =>
    if s.shadowPending ∧ s.shadow = .idle then
      some {s with shadowPending := false, shadow := .entry}
    else none
  | .lazyRun =>
    if s.lazyPending ∧ s.lazy = .idle then some {s with lazyPending := false, lazy := .claim}
    else none
  | .cleanupRun =>
    if s.draining = [] then some {s with draining := s.cleanup, cleanup := []} else none
  | .shadow env => shadowStep size env s
  | .lazy env => lazyStep size env s
  | .cleanup =>
    match s.draining with
    | [] => none
    | c :: rest => some {s with draining := rest, mem := freeUnlinkedChunk size c s.mem}
  | .free => freeStep size s
  | .take =>
    match s.mem.pool with
    | [] => none
    | b :: rest => some {s with mem := {s.mem with pool := rest, others := b :: s.mem.others}}
  | .give b =>
    if b ∈ s.mem.others then
      some {s with mem := {s.mem with
        pool := push size s.mem.pool (.pool b), others := s.mem.others.erase b}}
    else none
  | .destroyWq => if drained s then some {s with shadowWq := false} else none

end

/-! ### Owners -/

inductive Owner where
  | chunkList
  | shadowChunk
  | shadowNextChunk
  | shadowWorker
  | lazyWorker
  | cleanupList
  | freed
  deriving DecidableEq

/-- The chunk that `next_shadow` points to. -/
def Shadow.next : Shadow → Option Nat
  | .turn _ next | .precopy _ next | .precopyFree _ next | .launch _ next | .release next => next
  | _ => none

/-- What the worker of `shadow_chunk` has freed and not yet cleared. -/
def Shadow.dangling : Shadow → Bool
  | .failed | .precopyFailed => true
  | _ => false

/-- The chunk that `child` of the lazy worker points to and the list does not. -/
def Refill.child : Refill → Option Nat
  | .refill c | .prepare c | .start c | .commit c _ | .release c => some c
  | .idle | .claim => none

/-- The chunks an owner has. `shadow` and `queued_shadow` of the shadow worker name the chunk of
`shadow_chunk`, and own nothing. -/
def holds (s : State) : Owner → List Nat
  | .chunkList => s.chunks
  | .shadowChunk => if s.shadow.dangling then [] else s.shadowChunk.toList
  | .shadowNextChunk => s.shadowNextChunk.toList
  | .shadowWorker => s.shadow.next.toList
  | .lazyWorker => s.lazy.child.toList
  | .cleanupList => s.cleanup ++ s.draining
  | .freed => s.mem.freed

/-- The chunk has one owner, who has it once. -/
def OwnedOnce (s : State) (c : Nat) : Prop :=
  ∃ o, (holds s o).count c = 1 ∧ ∀ o', o' ≠ o → c ∉ holds s o'

end DxNpuDriver.Edma.Ownership
