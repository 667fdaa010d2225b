import DxNpuDriver.Edma.Transfer
import DxNpuDriver.Lib.Ledger

/-! What a preparation takes and gives back (`dw_edma_device_transfer` with `dw-edma-mem.c`).

A descriptor, its chunks and their bursts come from two pools and from `kzalloc`, one by
one, and any of them may not be there. An error frees the descriptor with all that it has by
then. Here each of these things has a name, and `Moves` says that none is lost or given twice
between the pools, `kzalloc` and what is held; `deviceTransfer_moves` that a preparation
holds its descriptor with everything in it, or nothing. -/
namespace DxNpuDriver.Edma.Prepare
open Fill (Dir SgEntry Cursor canMergeSgBurst u64Max)
open Transfer (ShadowState prepBurstBatchSize)
open Ledger

/-- A burst or a descriptor of a pool, by its index, or what `kzalloc` returned, by the number
of that call. -/
inductive Thing where
  | burst (i : Nat)
  | desc (i : Nat)
  | memory (id : Nat)
  deriving DecidableEq

/-- `burst_free_list` or `desc_free_list`, the last index on top. -/
structure FreeList (size : Nat) where
  list : List Nat
  fits : list.length ≤ size

/-- An index goes back to the list if that is not full. -/
def FreeList.push {size : Nat} (f : FreeList size) (i : Nat) : FreeList size :=
  if h : f.list.length < size then ⟨i :: f.list, h⟩ else f

def FreeList.pop {size : Nat} (f : FreeList size) : Option (Nat × FreeList size) :=
  match h : f.list with
  | [] => none
  | i :: rest => some (i, ⟨rest, by
      have := f.fits
      rw [h, List.length_cons] at this
      omega⟩)

/-- The pools of the device, and the calls of `kzalloc` and `kfree`: how many were tried, how
many of them have returned something, and what was freed. -/
structure Arena (burstSize descSize : Nat) where
  bursts : FreeList burstSize
  descs : FreeList descSize
  tried : Nat
  fresh : Nat
  log : Log Nat

/-- What the allocators and the context answer: whether a call of `kzalloc` returns something,
`in_interrupt() || in_atomic()`, `in_atomic() || irqs_disabled()`, the module parameters, and
of the device `dw_edma_v0_core_shadow_precopy_available` and its work queue. -/
structure Env where
  kzalloc : Nat → Bool
  atomic : Bool
  irqsOff : Bool
  shadowWq : Bool
  shadowWqMinSg : Nat
  precopyAvailable : Bool
  deviceWq : Bool

/-- `enum dma_transfer_direction`, as far as it is told apart. -/
inductive Direction where
  | memToDev | devToMem | other
  deriving DecidableEq

/-- `struct dw_edma_chan`. `descBuf` tells that it has its staging buffer. -/
structure Chan where
  configured : Bool
  dir : Dir
  id : Nat
  configDirection : Direction
  srcAddr : Nat
  dstAddr : Nat
  llMax : Nat
  regionSz : Nat
  descBuf : Bool

/-- `xfer->type` with its member of the union; of a template without frames, `sizes` are the
sizes that are read. -/
inductive Kind where
  | sg (sgl : List SgEntry) (len : Nat)
  | cyclic (paddr len cnt : Nat)
  | interleaved (numf frameSize srcStart dstStart : Nat) (sizes : Nat → Nat)
  | other

structure Xfer where
  direction : Direction
  kind : Kind

/-- A burst of the pool, or one of its own. -/
inductive Burst where
  | pool (i : Nat)
  | dynamic (id : Nat)
  deriving DecidableEq

/-- `chunk->burst`, the anchor, with the bursts of its list. -/
structure Bursts where
  head : Burst
  list : List (Burst × Fill.Burst)

/-- `struct dw_edma_chunk`. -/
structure Chunk where
  id : Nat
  burst : Option Bursts
  burstsAlloc : Nat
  llRegionSz : Nat
  cb : Bool

/-- Where a descriptor comes from. -/
inductive Place where
  | pool (i : Nat)
  | dynamic (id : Nat)

/-- `struct dw_edma_desc`. `chunks` is the list behind its embedded `chunk_head`, which has no
bursts of its own, and `chunks_alloc` the length of it. -/
structure Desc where
  place : Place
  chunks : List Chunk
  allocSz : Nat
  cur : Cursor
  lazyMode : Bool
  shadowState : ShadowState
  shadowChunk : Option Chunk
  shadowNextChunk : Option Chunk
  shadowNext : Cursor
  shadowHasMore : Bool
  shadowAllocSz : Nat
  shadowExpectedCb : Bool
  shadowWorkInitialized : Bool
  lazyWorkInitialized : Bool

/-- The cleared descriptor. -/
def Desc.at (place : Place) : Desc :=
  ⟨place, [], 0, ⟨[], 0, 0⟩, false, .idle, none, none, ⟨[], 0, 0⟩, false, 0, false, false, false⟩

section Model
variable {burstSize descSize : Nat}

/-! ### The allocators -/

def kzalloc (env : Env) (a : Arena burstSize descSize) : Option Nat × Arena burstSize descSize :=
  if env.kzalloc a.tried then
    (some a.fresh,
      {a with tried := a.tried + 1, fresh := a.fresh + 1, log := a.log ++ [.take a.fresh]})
  else (none, {a with tried := a.tried + 1})

def kfree (id : Nat) (a : Arena burstSize descSize) : Arena burstSize descSize :=
  {a with log := a.log ++ [.give id]}

/-- `dw_edma_alloc_burst` up to the list. -/
def takeBurst (env : Env) (a : Arena burstSize descSize) :
    Option Burst × Arena burstSize descSize :=
  match a.bursts.pop with
  | some (i, bursts) => (some (.pool i), {a with bursts := bursts})
  | none =>
    if env.atomic then (none, a)
    else
      match kzalloc env a with
      | (none, a) => (none, a)
      | (some id, a) => (some (.dynamic id), a)

/-- The burst becomes the anchor, or joins the list with what its caller writes to it. -/
def Chunk.link (c : Chunk) (b : Burst) (content : Fill.Burst) : Chunk :=
  match c.burst with
  | none => {c with burst := some ⟨b, []⟩, burstsAlloc := 0}
  | some bs =>
    {c with
      burst := some {bs with list := bs.list ++ [(b, content)]}
      burstsAlloc := c.burstsAlloc + 1}

/-- One burst of `dw_edma_free_burst` or of `dw_edma_free_burst_batch`. -/
def release (b : Burst) (a : Arena burstSize descSize) : Arena burstSize descSize :=
  match b with
  | .pool i => {a with bursts := a.bursts.push i}
  | .dynamic id => kfree id a

def releaseAll (bs : List Burst) (a : Arena burstSize descSize) : Arena burstSize descSize :=
  bs.foldl (fun a b => release b a) a

/-- `dw_edma_free_burst`: the list, then the anchor. -/
def freeBurst (c : Chunk) (a : Arena burstSize descSize) : Arena burstSize descSize :=
  match c.burst with
  | none => a
  | some bs => releaseAll (bs.list.map Prod.fst ++ [bs.head]) a

/-- `dw_edma_free_unlinked_chunk`, and what `dw_edma_free_chunk` does to each child. -/
def freeUnlinkedChunk (c : Chunk) (a : Arena burstSize descSize) : Arena burstSize descSize :=
  kfree c.id (freeBurst c a)

/-- `dw_edma_free_unlinked_chunk` of a pointer that may be null. -/
def freeUnlinked (c : Option Chunk) (a : Arena burstSize descSize) : Arena burstSize descSize :=
  match c with
  | none => a
  | some c => freeUnlinkedChunk c a

/-- `dw_edma_free_chunk`. -/
def freeChunk (chunks : List Chunk) (a : Arena burstSize descSize) : Arena burstSize descSize :=
  chunks.foldl (fun a c => freeUnlinkedChunk c a) a

/-- `dw_edma_alloc_chunk_for_chan`, set up as its callers do. -/
def allocChunkForChan (env : Env) (chan : Chan) (cb : Bool) (a : Arena burstSize descSize) :
    Option Chunk × Arena burstSize descSize :=
  if !chan.descBuf then (none, a)
  else
    match kzalloc env a with
    | (none, a) => (none, a)
    | (some id, a) => (some ⟨id, none, 0, chan.regionSz, cb⟩, a)

/-- `dw_edma_alloc_chunk` of a descriptor that has so many chunks. -/
def allocChunk (env : Env) (chan : Chan) (chunksAlloc : Nat) (a : Arena burstSize descSize) :
    Option Chunk × Arena burstSize descSize :=
  match allocChunkForChan env chan (chunksAlloc % 2 = 0) a with
  | (none, a) => (none, a)
  | (some c, a) =>
    match takeBurst env a with
    | (none, a) => (none, kfree c.id a)
    | (some b, a) => (some (c.link b ⟨0, 0, 0⟩), a)

/-- `dw_edma_alloc_desc`. -/
def allocDesc (env : Env) (a : Arena burstSize descSize) :
    Option Place × Arena burstSize descSize :=
  match a.descs.pop with
  | some (i, descs) => (some (.pool i), {a with descs := descs})
  | none =>
    match kzalloc env a with
    | (none, a) => (none, a)
    | (some id, a) => (some (.dynamic id), a)

/-- The end of `dw_edma_free_desc`. -/
def freePlace (p : Place) (a : Arena burstSize descSize) : Arena burstSize descSize :=
  match p with
  | .pool i => {a with descs := a.descs.push i}
  | .dynamic id => kfree id a

/-- `dw_edma_free_desc` of a descriptor whose work items are not queued. -/
def freeDesc (d : Desc) (a : Arena burstSize descSize) : Arena burstSize descSize :=
  freePlace d.place (freeChunk d.chunks (freeUnlinked d.shadowNextChunk (freeUnlinked d.shadowChunk a)))

/-! ### Filling a chunk -/

/-- The variables of `dw_edma_fill_sg_bursts`; `batch` is what is left of it. -/
structure Progress (burstSize descSize : Nat) where
  chunk : Chunk
  batch : List Burst
  arena : Arena burstSize descSize
  remaining : Nat
  addr : Nat
  allocAccum : Nat
  consumed : Nat
  failed : Bool

/-- `dw_edma_alloc_burst_batch`. -/
def allocBurstBatch : Nat → Arena burstSize descSize → List Burst × Arena burstSize descSize
  | 0, a => ([], a)
  | n + 1, a =>
    match a.bursts.pop with
    | none => ([], a)
    | some (i, bursts) =>
      let r := allocBurstBatch n {a with bursts := bursts}
      (.pool i :: r.1, r.2)

/-- The last data burst, before it the others. -/
def Chunk.lastData (c : Chunk) : Option (Bursts × Burst × Fill.Burst) :=
  match c.burst with
  | none => none
  | some bs => bs.list.getLast?.map fun last => (bs, last)

/-- `dw_edma_extend_sg_burst` of the last burst. -/
def Chunk.extend (c : Chunk) (bs : Bursts) (last : Burst × Fill.Burst) (len : Nat) : Chunk :=
  {c with
    burst := some {bs with
      list := bs.list.dropLast ++ [(last.1, {last.2 with sz := last.2.sz + len})]}
    llRegionSz := c.llRegionSz + len}

/-- What `dw_edma_init_sg_burst` writes to a burst. -/
def sgBurst (dir : Dir) (hostAddr devAddr len : Nat) : Fill.Burst :=
  match dir with
  | .write => ⟨devAddr, hostAddr, len⟩
  | .read => ⟨hostAddr, devAddr, len⟩

/-- A new burst of the chunk. -/
def Chunk.add (c : Chunk) (b : Burst) (content : Fill.Burst) : Chunk :=
  let c := c.link b content
  {c with llRegionSz := c.llRegionSz + content.sz}

/-- An entry goes to the last burst, to one of the batch, or to a single one, if there is
one. -/
def placeEntry (env : Env) (dir : Dir) (e : SgEntry) (p : Progress burstSize descSize) :
    Bool × Progress burstSize descSize :=
  match p.chunk.lastData.filter fun r => canMergeSgBurst dir r.2.2 e.addr p.addr e.len with
  | some (bs, last) => (true, {p with chunk := p.chunk.extend bs last e.len})
  | none =>
    match p.batch with
    | b :: batch =>
      (true, {p with chunk := p.chunk.add b (sgBurst dir e.addr p.addr e.len), batch := batch})
    | [] =>
      match takeBurst env p.arena with
      | (none, a) => (false, {p with arena := a})
      | (some b, a) =>
        (true, {p with chunk := p.chunk.add b (sgBurst dir e.addr p.addr e.len), arena := a})

/-- The `while` of `dw_edma_fill_sg_bursts`. -/
def fillLoop (env : Env) (dir : Dir) (need : Nat) :
    List SgEntry → Progress burstSize descSize → Progress burstSize descSize × List SgEntry
  | [], p => (p, [])
  | e :: sg, p =>
    if p.consumed < need ∧ 0 < p.remaining then
      if u64Max - e.len < p.addr ∨ u64Max - e.len < e.addr then ({p with failed := true}, e :: sg)
      else
        match placeEntry env dir e p with
        | (false, p) => (p, e :: sg)
        | (true, p) =>
          fillLoop env dir need sg
            {p with
              addr := p.addr + e.len
              remaining := p.remaining - 1
              allocAccum := (p.allocAccum + e.len) % 2 ^ 32
              consumed := p.consumed + 1}
    else (p, e :: sg)

/-- What a call leaves, and whether it has filled anything. -/
structure Filled (burstSize descSize : Nat) where
  positive : Bool
  chunk : Chunk
  cur : Cursor
  allocAccum : Nat
  arena : Arena burstSize descSize

/-- `dw_edma_fill_sg_bursts`. -/
def fillSgBursts (env : Env) (dir : Dir) (llMax batchMax : Nat) (c : Chunk) (cur : Cursor)
    (allocAccum : Nat) (a : Arena burstSize descSize) : Filled burstSize descSize :=
  if cur.sg = [] ∨ cur.remaining = 0 ∨ llMax ≤ c.burstsAlloc ∨ batchMax = 0 then
    ⟨false, c, cur, allocAccum, a⟩
  else
    let need := min cur.remaining (min (llMax - c.burstsAlloc) batchMax)
    let taken := allocBurstBatch need a
    let r := fillLoop env dir need cur.sg
      ⟨c, taken.1, taken.2, cur.remaining, cur.addr, allocAccum, 0, false⟩
    -- `dw_edma_free_burst_batch`
    let arena := releaseAll r.1.batch r.1.arena
    if r.1.failed ∨ r.2 = [] ∧ r.1.remaining ≠ 0 then
      ⟨false, r.1.chunk, cur, r.1.allocAccum, arena⟩
    else
      ⟨decide (0 < r.1.consumed), r.1.chunk, ⟨r.2, r.1.remaining, r.1.addr⟩, r.1.allocAccum, arena⟩

/-! ### The preparation -/

/-- How a loop leaves: whether without an error, with the descriptor and what the allocators
have. -/
structure Left (burstSize descSize : Nat) where
  ok : Bool
  desc : Desc
  arena : Arena burstSize descSize

/-- `dw_edma_shadow_prepare_build`; `ok` is what it returns. -/
def shadowPrepareBuild (env : Env) (chan : Chan) (d : Desc) (a : Arena burstSize descSize) :
    Left burstSize descSize :=
  if ¬d.lazyMode ∨ d.shadowNext.remaining = 0 then ⟨false, d, a⟩
  else
    let allocated :=
      match d.shadowNextChunk with
      | some c => (some c, a)
      | none => if env.irqsOff then (none, a) else allocChunkForChan env chan false a
    let d := {d with shadowNextChunk := none}
    match allocated with
    | (none, a) => ⟨false, d, a⟩
    | (some c, a) =>
      let c := {c with cb := d.shadowExpectedCb}
      let d := {d with shadowChunk := some c, shadowAllocSz := 0, shadowState := .building}
      if env.deviceWq then ⟨true, d, a⟩
      else if env.irqsOff then ⟨false, {d with shadowState := .idle}, a⟩
      else ⟨false, {d with shadowState := .idle, shadowChunk := none}, freeUnlinkedChunk c a⟩

/-- Fixed-buffer lazy mode. -/
def fixedBuffer (cur : Cursor) (d : Desc) : Desc :=
  {d with cur := cur, lazyMode := true, shadowState := .idle, shadowHasMore := false,
          lazyWorkInitialized := true}

/-- The chunk is full and entries remain. -/
def prepareLazy (env : Env) (chan : Chan) (len : Nat) (c : Chunk) (cur : Cursor) (d : Desc)
    (a : Arena burstSize descSize) : Desc × Arena burstSize descSize :=
  if chan.dir = .write ∧ env.shadowWq ∧ (env.shadowWqMinSg = 0 ∨ env.shadowWqMinSg ≤ len) ∧
      env.precopyAvailable ∧ 1 ≤ d.chunks.length ∧ 2 ≤ cur.remaining then
    let d := {d with
      cur := cur
      lazyMode := true
      shadowNext := cur
      shadowAllocSz := 0
      shadowHasMore := true
      shadowState := .idle
      shadowExpectedCb := !c.cb
      shadowChunk := none
      shadowNextChunk := none
      shadowWorkInitialized := true}
    let r := shadowPrepareBuild env chan d a
    if r.ok then (r.desc, r.arena)
    else (fixedBuffer cur {r.desc with lazyMode := false, shadowHasMore := false}, r.arena)
  else (fixedBuffer cur d, a)

/-- The descriptor with its last chunk. -/
def Desc.with (d : Desc) (c : Chunk) : Desc := {d with chunks := d.chunks ++ [c]}

/-- The loop over a scatter-gather list, for at most so many passes. -/
def prepareSg (env : Env) (chan : Chan) (len : Nat) :
    Nat → Desc → Chunk → Cursor → Arena burstSize descSize → Option (Left burstSize descSize)
  | 0, _, _, _, _ => none
  | fuel + 1, d, c, cur, a =>
    if cur.remaining = 0 then some ⟨true, d.with c, a⟩
    else if cur.sg = [] then some ⟨false, d.with c, a⟩
    else if c.burstsAlloc = chan.llMax then
      let r := prepareLazy env chan len c cur (d.with c) a
      some ⟨true, r.1, r.2⟩
    else
      let f := fillSgBursts env chan.dir chan.llMax prepBurstBatchSize c cur d.allocSz a
      let d := {d with allocSz := f.allocAccum}
      if f.positive then prepareSg env chan len fuel d f.chunk f.cur f.arena
      else some ⟨false, d.with f.chunk, f.arena⟩

/-- A full chunk is followed by another. -/
def nextChunk (env : Env) (chan : Chan) (d : Desc) (c : Chunk) (a : Arena burstSize descSize) :
    Option (Desc × Chunk) × Arena burstSize descSize :=
  if c.burstsAlloc = chan.llMax then
    match allocChunk env chan (d.with c).chunks.length a with
    | (none, a) => (none, a)
    | (some c', a) => (some (d.with c, c'), a)
  else (some (d, c), a)

/-- The loop over the `n` bursts from number `i` on of a cyclic or interleaved transfer. -/
def prepareBursts (env : Env) (chan : Chan) (content : Nat → Fill.Burst) :
    Nat → Nat → Desc → Chunk → Arena burstSize descSize → Left burstSize descSize
  | 0, _, d, c, a => ⟨true, d.with c, a⟩
  | n + 1, i, d, c, a =>
    match nextChunk env chan d c a with
    | (none, a) => ⟨false, d.with c, a⟩
    | (some (d, c), a) =>
      match takeBurst env a with
      | (none, a) => ⟨false, d.with c, a⟩
      | (some b, a) =>
        prepareBursts env chan content n (i + 1)
          {d with allocSz := (d.allocSz + (content i).sz) % 2 ^ 32} (c.add b (content i)) a

/-- `DX_H2C_DATA_CH_CNT`. -/
def h2cDataChCnt : Nat := 2

/-- The checks before the first allocation. -/
def admitted (chan : Chan) (x : Xfer) : Bool :=
  chan.configured && !(chan.dir = .read && h2cDataChCnt ≤ chan.id) &&
  (match chan.configDirection with
    | .devToMem => x.direction = .devToMem && chan.dir = .read
    | .memToDev => x.direction = .memToDev && chan.dir = .write
    | .other =>
      (x.direction = .memToDev && chan.dir = .read) || (x.direction = .devToMem && chan.dir = .write)) &&
  (match x.kind with
    | .cyclic _ len cnt => len ≠ 0 && cnt ≠ 0
    | .sg _ len => 1 ≤ len
    | .interleaved numf frameSize _ _ _ => numf ≠ 0 && !(0 < numf && 0 < frameSize)
    | .other => false)

/-- What the loop writes to a burst of `sz` bytes, at a device address that is given if the
transfer is cyclic. -/
def burstContent (dir : Dir) (srcAddr dstAddr : Nat) (paddr : Option Nat) (sz : Nat) : Fill.Burst :=
  match dir with
  | .write => ⟨srcAddr, paddr.getD 0, sz % 2 ^ 32⟩
  | .read => ⟨paddr.getD 0, dstAddr, sz % 2 ^ 32⟩

/-- From the first chunk on. -/
def prepareKind (env : Env) (chan : Chan) (x : Xfer) (d : Desc) (c : Chunk)
    (a : Arena burstSize descSize) : Option (Left burstSize descSize) :=
  match x.kind with
  | .sg sgl len =>
    let addr := match chan.dir with
      | .write => chan.srcAddr
      | .read => chan.dstAddr
    prepareSg env chan len (len + 1) d c ⟨sgl, len, addr⟩ a
  | .cyclic paddr len cnt =>
    some (prepareBursts env chan
      (fun _ => burstContent chan.dir chan.srcAddr chan.dstAddr (some paddr) len) (cnt % 2 ^ 32) 0 d c a)
  | .interleaved numf _ srcStart dstStart sizes =>
    some (prepareBursts env chan
      (fun i => burstContent chan.dir srcStart dstStart none (sizes i)) (numf % 2 ^ 32) 0 d c a)
  | .other => none

/-- The descriptor, or the label `err_alloc`. -/
def Left.finish (r : Left burstSize descSize) : Option Desc × Arena burstSize descSize :=
  if r.ok then (some r.desc, r.arena) else (none, freeDesc r.desc r.arena)

/-- `dw_edma_device_transfer`. -/
def deviceTransfer (env : Env) (chan : Chan) (x : Xfer) (a : Arena burstSize descSize) :
    Option (Option Desc × Arena burstSize descSize) :=
  if !admitted chan x then some (none, a)
  else
    match allocDesc env a with
    | (none, a) => some (none, a)
    | (some place, a) =>
      match allocChunk env chan 0 a with
      | (none, a) => some (none, freeDesc (.at place) a)
      | (some c, a) => (prepareKind env chan x (.at place) c a).map Left.finish

/-! ### What is held -/

def Burst.thing : Burst → Thing
  | .pool i => .burst i
  | .dynamic id => .memory id

def Place.thing : Place → Thing
  | .pool i => .desc i
  | .dynamic id => .memory id

/-- The bursts of a chunk. -/
def Chunk.nodes (c : Chunk) : List Burst :=
  match c.burst with
  | none => []
  | some bs => bs.list.map Prod.fst ++ [bs.head]

def Chunk.things (c : Chunk) : List Thing := c.nodes.map Burst.thing ++ [.memory c.id]

def chunkThings (c : Option Chunk) : List Thing :=
  match c with
  | none => []
  | some c => c.things

def Desc.things (d : Desc) : List Thing :=
  chunkThings d.shadowChunk ++ (chunkThings d.shadowNextChunk ++
    (d.chunks.flatMap Chunk.things ++ [d.place.thing]))

def Thing.isBurst : Thing → Bool
  | .burst _ => true
  | _ => false

def Thing.isDesc : Thing → Bool
  | .desc _ => true
  | _ => false

/-- How often the allocators have a thing; one of `kzalloc` that was taken is a debt. -/
def Arena.stock (a : Arena burstSize descSize) : Thing → Int
  | .burst i => a.bursts.list.count i
  | .desc i => a.descs.list.count i
  | .memory id => - owed a.log id

/-- Each number below `fresh` was given out once. -/
def Arena.Numbered (a : Arena burstSize descSize) : Prop :=
  ∀ id, a.log.count (.take id) = if id < a.fresh then 1 else 0

/-- Things move between the allocators and what is held, and none is lost or made. -/
structure Moves (a : Arena burstSize descSize) (held : List Thing)
    (b : Arena burstSize descSize) (held' : List Thing) : Prop where
  stock : Conserves a.stock held b.stock held'
  bursts : b.bursts.list.length + held'.countP Thing.isBurst =
    a.bursts.list.length + held.countP Thing.isBurst
  descs : b.descs.list.length + held'.countP Thing.isDesc =
    a.descs.list.length + held.countP Thing.isDesc
  numbered : a.Numbered → b.Numbered

/-- The free lists have room for what is held. -/
structure Room (a : Arena burstSize descSize) (held : List Thing) : Prop where
  bursts : a.bursts.list.length + held.countP Thing.isBurst ≤ burstSize
  descs : a.descs.list.length + held.countP Thing.isDesc ≤ descSize

section Moves
variable {a b c : Arena burstSize descSize} {held held' held'' kept : List Thing}

theorem Moves.refl (a : Arena burstSize descSize) (held : List Thing) : Moves a held a held :=
  ⟨.refl _ _, rfl, rfl, id⟩

theorem Moves.trans (h : Moves a held b held') (h' : Moves b held' c held'') :
    Moves a held c held'' :=
  ⟨h.stock.trans h'.stock, h'.bursts.trans h.bursts, h'.descs.trans h.descs,
    h'.numbered ∘ h.numbered⟩

theorem Moves.frame (h : Moves a held b held') (rest : List Thing) :
    Moves a (held ++ rest) b (held' ++ rest) := by
  have hbursts := h.bursts
  have hdescs := h.descs
  refine ⟨h.stock.frame rest, ?_, ?_, h.numbered⟩
  · simp only [List.countP_append]
    omega
  · simp only [List.countP_append]
    omega

theorem Moves.perm (h : Moves a held b held') (hp : held'.Perm kept) : Moves a held b kept := by
  refine ⟨h.stock.perm hp, ?_, ?_, h.numbered⟩
  · rw [← hp.countP_eq]
    exact h.bursts
  · rw [← hp.countP_eq]
    exact h.descs

/-- What is taken comes to what is held already. -/
theorem Moves.more (h : Moves a [] b held') (rest : List Thing) : Moves a rest b (rest ++ held') := by
  have := (h.frame rest).perm List.perm_append_comm
  rwa [List.nil_append] at this

theorem Moves.room (h : Moves a held b held') (room : Room a held) : Room b held' := by
  have hbursts := h.bursts
  have hdescs := h.descs
  have := room.bursts
  have := room.descs
  constructor <;> omega

theorem Room.left {rest : List Thing} (room : Room a (held ++ rest)) : Room a held := by
  have hbursts := room.bursts
  have hdescs := room.descs
  simp only [List.countP_append] at hbursts hdescs
  constructor <;> omega

/-- Part after part is given back. -/
theorem Moves.back (room : Room a (held ++ kept)) (h : Room a held → Moves a held b [])
    (h' : Room b kept → Moves b kept c []) : Moves a (held ++ kept) c [] := by
  have first : Moves a (held ++ kept) b kept := (h room.left).frame kept
  exact first.trans (h' (first.room room))

theorem room_nil (a : Arena burstSize descSize) : Room a [] := ⟨a.bursts.fits, a.descs.fits⟩

end Moves

/-! ### The allocators move things -/

theorem FreeList.list_of_pop {size i : Nat} {f g : FreeList size} (h : f.pop = some (i, g)) :
    f.list = i :: g.list := by
  unfold FreeList.pop at h
  split at h
  · cases h
  · next rest hlist =>
    cases h
    exact hlist

theorem FreeList.list_push {size i : Nat} {f : FreeList size} (h : f.list.length < size) :
    (f.push i).list = i :: f.list := by
  simp only [FreeList.push, dif_pos h]

section Alloc
variable {env : Env} {a b : Arena burstSize descSize} {i id : Nat}

theorem popBurst_moves {bursts : FreeList burstSize} (h : a.bursts.pop = some (i, bursts)) :
    Moves a [] {a with bursts := bursts} [.burst i] := by
  have hlist := FreeList.list_of_pop h
  refine ⟨fun x => ?_, ?_, rfl, id⟩
  · cases x with
    | burst j => simp [Arena.stock, hlist, List.count_cons]
    | desc j | memory j => simp [Arena.stock]
  · simp [hlist, Thing.isBurst]

theorem popDesc_moves {descs : FreeList descSize} (h : a.descs.pop = some (i, descs)) :
    Moves a [] {a with descs := descs} [.desc i] := by
  have hlist := FreeList.list_of_pop h
  refine ⟨fun x => ?_, rfl, ?_, id⟩
  · cases x with
    | desc j => simp [Arena.stock, hlist, List.count_cons]
    | burst j | memory j => simp [Arena.stock]
  · simp [hlist, Thing.isDesc]

theorem pushBurst_moves (room : Room a [.burst i]) :
    Moves a [.burst i] {a with bursts := a.bursts.push i} [] := by
  have hlist := FreeList.list_push (i := i) (f := a.bursts)
    (Nat.lt_of_succ_le (by simpa [Thing.isBurst] using room.bursts))
  refine ⟨fun x => ?_, ?_, rfl, id⟩
  · cases x with
    | burst j => simp [Arena.stock, hlist, List.count_cons]
    | desc j | memory j => simp [Arena.stock]
  · simp [hlist, Thing.isBurst]

theorem pushDesc_moves (room : Room a [.desc i]) :
    Moves a [.desc i] {a with descs := a.descs.push i} [] := by
  have hlist := FreeList.list_push (i := i) (f := a.descs)
    (Nat.lt_of_succ_le (by simpa [Thing.isDesc] using room.descs))
  refine ⟨fun x => ?_, rfl, ?_, id⟩
  · cases x with
    | desc j => simp [Arena.stock, hlist, List.count_cons]
    | burst j | memory j => simp [Arena.stock]
  · simp [hlist, Thing.isDesc]

theorem kzalloc_moves {r : Option Nat} (h : kzalloc env a = (r, b)) :
    Moves a [] b (r.toList.map .memory) := by
  unfold kzalloc at h
  split at h
  · cases h
    refine ⟨fun x => ?_, rfl, rfl, fun numbered id => ?_⟩
    · cases x with
      | memory j =>
        simp only [Arena.stock, Option.toList_some, List.map_cons, List.map_nil,
          List.count_singleton, List.count_nil, owed_append, owed_take, owed_nil, beq_iff_eq,
          Thing.memory.injEq]
        split <;> omega
      | burst j | desc j => simp [Arena.stock]
    · have hid := numbered id
      rw [List.count_append, hid]
      by_cases hnew : id = a.fresh
      · subst hnew
        simp
      · have hne : a.fresh ≠ id := Ne.symm hnew
        have hlt : id < a.fresh + 1 ↔ id < a.fresh := by omega
        simp [hne, hlt]
  · cases h
    exact ⟨fun _ => rfl, rfl, rfl, fun h => h⟩

theorem kfree_moves (id : Nat) (a : Arena burstSize descSize) :
    Moves a [.memory id] (kfree id a) [] := by
  refine ⟨fun x => ?_, rfl, rfl, fun numbered j => ?_⟩
  · cases x with
    | memory j =>
      simp only [Arena.stock, kfree, List.count_singleton, List.count_nil, owed_append, owed_give,
        owed_nil, beq_iff_eq, Thing.memory.injEq]
      split <;> omega
    | burst j | desc j => simp [Arena.stock, kfree]
  · have hj := numbered j
    show (a.log ++ [Entry.give id]).count (Entry.take j) = if j < a.fresh then 1 else 0
    rw [List.count_append, hj]
    simp

theorem takeBurst_moves {r : Option Burst} (h : takeBurst env a = (r, b)) :
    Moves a [] b (r.toList.map Burst.thing) := by
  unfold takeBurst at h
  split at h
  · next hpop =>
    cases h
    exact popBurst_moves hpop
  · split at h
    · cases h
      exact Moves.refl a []
    · split at h
      · next hk =>
        cases h
        exact kzalloc_moves hk
      · next hk =>
        cases h
        exact kzalloc_moves hk

theorem allocDesc_moves {r : Option Place} (h : allocDesc env a = (r, b)) :
    Moves a [] b (r.toList.map Place.thing) := by
  unfold allocDesc at h
  split at h
  · next hpop =>
    cases h
    exact popDesc_moves hpop
  · split at h
    · next hk =>
      cases h
      exact kzalloc_moves hk
    · next hk =>
      cases h
      exact kzalloc_moves hk

theorem allocBurstBatch_moves (n : Nat) (a : Arena burstSize descSize) :
    Moves a [] (allocBurstBatch n a).2 ((allocBurstBatch n a).1.map Burst.thing) := by
  induction n generalizing a with
  | zero => exact Moves.refl a []
  | succ n ih =>
    unfold allocBurstBatch
    split
    · exact Moves.refl a []
    · next hpop => exact (popBurst_moves hpop).trans ((ih _).more _)

theorem release_moves {x : Burst} (room : Room a [x.thing]) :
    Moves a [x.thing] (release x a) [] := by
  cases x with
  | pool i => exact pushBurst_moves room
  | dynamic id => exact kfree_moves id a

theorem freePlace_moves {p : Place} (room : Room a [p.thing]) :
    Moves a [p.thing] (freePlace p a) [] := by
  cases p with
  | pool i => exact pushDesc_moves room
  | dynamic id => exact kfree_moves id a

theorem releaseAll_moves {bs : List Burst} (room : Room a (bs.map Burst.thing)) :
    Moves a (bs.map Burst.thing) (releaseAll bs a) [] := by
  induction bs generalizing a with
  | nil => exact Moves.refl a []
  | cons x bs ih =>
    have room : Room a ([x.thing] ++ bs.map Burst.thing) := room
    exact Moves.back room release_moves ih

theorem freeBurst_moves {x : Chunk} (room : Room a (x.nodes.map Burst.thing)) :
    Moves a (x.nodes.map Burst.thing) (freeBurst x a) [] := by
  obtain ⟨id, burst, burstsAlloc, llRegionSz, cb⟩ := x
  cases burst with
  | none => exact Moves.refl a []
  | some bs => exact releaseAll_moves room

theorem freeUnlinkedChunk_moves {x : Chunk} (room : Room a x.things) :
    Moves a x.things (freeUnlinkedChunk x a) [] :=
  Moves.back room freeBurst_moves fun _ => kfree_moves x.id _

theorem freeUnlinked_moves {x : Option Chunk} (room : Room a (chunkThings x)) :
    Moves a (chunkThings x) (freeUnlinked x a) [] := by
  cases x with
  | none => exact Moves.refl a []
  | some x => exact freeUnlinkedChunk_moves room

theorem freeChunk_moves {xs : List Chunk} (room : Room a (xs.flatMap Chunk.things)) :
    Moves a (xs.flatMap Chunk.things) (freeChunk xs a) [] := by
  induction xs generalizing a with
  | nil => exact Moves.refl a []
  | cons x xs ih => exact Moves.back room freeUnlinkedChunk_moves ih

/-- A descriptor is freed with all that it has. -/
theorem freeDesc_moves {d : Desc} (room : Room a d.things) : Moves a d.things (freeDesc d a) [] :=
  Moves.back room freeUnlinked_moves fun room =>
    Moves.back room freeUnlinked_moves fun room =>
      Moves.back room freeChunk_moves freePlace_moves

/-! ### Chunks and their bursts -/

theorem nodes_link (c : Chunk) (x : Burst) (content : Fill.Burst) :
    (c.link x content).nodes.Perm (c.nodes ++ [x]) := by
  obtain ⟨id, burst, burstsAlloc, llRegionSz, cb⟩ := c
  cases burst with
  | none => exact .refl _
  | some bs =>
    simp only [Chunk.link, Chunk.nodes, List.map_append, List.map_cons, List.map_nil,
      List.append_assoc]
    have hswap : ([x] ++ [bs.head]).Perm ([bs.head] ++ [x]) := List.perm_append_comm
    exact hswap.append_left _

theorem things_link (c : Chunk) (x : Burst) (content : Fill.Burst) :
    (c.things ++ [x.thing]).Perm (c.link x content).things := by
  have hid : (c.link x content).id = c.id := by
    unfold Chunk.link
    split <;> rfl
  unfold Chunk.things
  rw [hid, List.append_assoc]
  have hnodes := ((nodes_link c x content).map Burst.thing).symm
  rw [List.map_append] at hnodes
  have hlast : ([.memory c.id] ++ [x.thing] : List Thing).Perm ([x.thing] ++ [.memory c.id]) :=
    List.perm_append_comm
  apply (hlast.append_left _).trans
  rw [← List.append_assoc]
  exact hnodes.append_right _

/-- A burst of the holder joins the chunk. -/
theorem things_add (c : Chunk) (x : Burst) (content : Fill.Burst) :
    (c.things ++ [x.thing]).Perm (c.add x content).things := things_link c x content

theorem things_extend {c : Chunk} {bs : Bursts} {last : Burst × Fill.Burst}
    (h : c.lastData = some (bs, last)) (len : Nat) : (c.extend bs last len).things = c.things := by
  unfold Chunk.lastData at h
  split at h
  · cases h
  · next hburst =>
    obtain ⟨last', hlast, heq⟩ := Option.map_eq_some_iff.mp h
    cases heq
    have hsplit := congrArg (List.map Prod.fst) (List.dropLast_append_getLast? last hlast)
    rw [List.map_append] at hsplit
    simp only [Chunk.things, Chunk.nodes, Chunk.extend, hburst, List.map_append, ← hsplit,
      List.map_cons, List.map_nil]

theorem allocChunkForChan_moves {chan : Chan} {cb : Bool} {r : Option Chunk}
    (h : allocChunkForChan env chan cb a = (r, b)) : Moves a [] b (chunkThings r) := by
  unfold allocChunkForChan at h
  split at h
  · cases h
    exact Moves.refl a []
  · split at h
    · next hk =>
      cases h
      exact kzalloc_moves hk
    · next hk =>
      cases h
      exact kzalloc_moves hk

/-- It has no bursts yet. -/
theorem allocChunkForChan_things {chan : Chan} {cb : Bool} {c : Chunk}
    (h : allocChunkForChan env chan cb a = (some c, b)) : c.things = [.memory c.id] := by
  unfold allocChunkForChan at h
  split at h
  · cases h
  · split at h
    · cases h
    · cases h
      rfl

/-- A chunk comes with its anchor, or not at all. -/
theorem allocChunk_moves {chan : Chan} {n : Nat} {r : Option Chunk}
    (h : allocChunk env chan n a = (r, b)) : Moves a [] b (chunkThings r) := by
  unfold allocChunk at h
  split at h
  · next hc =>
    cases h
    exact allocChunkForChan_moves hc
  · next c a' hc =>
    have chunk := allocChunkForChan_moves hc
    split at h
    · next hb =>
      cases h
      have both : Moves a [] _ c.things := chunk.trans ((takeBurst_moves hb).frame _)
      rw [allocChunkForChan_things hc] at both
      exact both.trans (kfree_moves c.id _)
    · next x a'' hb =>
      cases h
      exact (chunk.trans ((takeBurst_moves hb).more _)).perm (things_link c x _)

/-! ### Filling -/

def Progress.things (p : Progress burstSize descSize) : List Thing :=
  p.chunk.things ++ p.batch.map Burst.thing

theorem placeEntry_moves {dir : Dir} {e : SgEntry} {ok : Bool} {p q : Progress burstSize descSize}
    (h : placeEntry env dir e p = (ok, q)) : Moves p.arena p.things q.arena q.things := by
  unfold placeEntry at h
  split at h
  · next bs last hlast =>
    cases h
    have hlast := (Option.filter_eq_some_iff.mp hlast).1
    simp only [Progress.things, things_extend hlast]
    exact Moves.refl _ _
  · split at h
    · next x batch hbatch =>
      cases h
      apply (Moves.refl p.arena p.things).perm
      simp only [Progress.things, hbatch, List.map_cons]
      rw [← List.singleton_append, ← List.append_assoc]
      exact (things_add p.chunk x _).append_right _
    · next hbatch =>
      split at h
      · next hb =>
        cases h
        exact (takeBurst_moves hb).frame p.things
      · next x a hb =>
        cases h
        have hthings : p.things = p.chunk.things := by
          rw [Progress.things, hbatch, List.map_nil, List.append_nil]
        apply ((takeBurst_moves hb).more p.things).perm
        simp only [Progress.things, hbatch, List.map_nil, List.append_nil]
        exact things_add p.chunk x _

theorem fillLoop_moves (env : Env) (dir : Dir) (need : Nat) (sg : List SgEntry)
    (p : Progress burstSize descSize) :
    Moves p.arena p.things (fillLoop env dir need sg p).1.arena (fillLoop env dir need sg p).1.things := by
  induction sg generalizing p with
  | nil => exact Moves.refl _ _
  | cons e sg ih =>
    unfold fillLoop
    split
    · split
      · exact Moves.refl _ _
      · split
        · next hplace => exact placeEntry_moves hplace
        · next q hplace =>
          apply (placeEntry_moves hplace).trans
          exact ih {q with
            addr := q.addr + e.len
            remaining := q.remaining - 1
            allocAccum := (q.allocAccum + e.len) % 2 ^ 32
            consumed := q.consumed + 1}
    · exact Moves.refl _ _

/-- What a fill has taken is in the chunk, or back. -/
theorem fillSgBursts_moves (env : Env) (dir : Dir) (llMax batchMax : Nat) (c : Chunk) (cur : Cursor)
    (allocAccum : Nat) (room : Room a c.things) :
    Moves a c.things (fillSgBursts env dir llMax batchMax c cur allocAccum a).arena
      (fillSgBursts env dir llMax batchMax c cur allocAccum a).chunk.things := by
  unfold fillSgBursts
  split
  · exact Moves.refl _ _
  · simp only
    generalize hneed : min cur.remaining (min (llMax - c.burstsAlloc) batchMax) = need
    have taken := (allocBurstBatch_moves need a).more c.things
    generalize allocBurstBatch need a = batch at taken ⊢
    have filled := taken.trans (fillLoop_moves env dir need cur.sg
      ⟨c, batch.1, batch.2, cur.remaining, cur.addr, allocAccum, 0, false⟩)
    generalize fillLoop env dir need cur.sg _ = r at filled ⊢
    have returned : Moves a c.things (releaseAll r.1.batch r.1.arena) r.1.chunk.things := by
      have held : Moves a c.things r.1.arena (r.1.batch.map Burst.thing ++ r.1.chunk.things) :=
        filled.perm List.perm_append_comm
      exact held.trans ((releaseAll_moves (held.room room).left).frame _)
    split
    · exact returned
    · exact returned

/-! ### The loops -/

/-- The descriptor has no shadow. -/
def Desc.Plain (d : Desc) : Prop := d.shadowChunk = none ∧ d.shadowNextChunk = none

theorem things_with {d : Desc} (hd : d.Plain) (c : Chunk) :
    (c.things ++ d.things).Perm (d.with c).things := by
  obtain ⟨hshadow, hnext⟩ := hd
  simp only [Desc.things, Desc.with, hshadow, hnext, chunkThings, List.nil_append,
    List.flatMap_append, List.flatMap_singleton]
  rw [← List.append_assoc]
  exact List.perm_append_comm.append_right _

/-- A shadow chunk is behind its pointer, or freed again. -/
theorem shadowPrepareBuild_moves (env : Env) (chan : Chan) {d : Desc} (hd : d.Plain)
    (room : Room a d.things) :
    Moves a d.things (shadowPrepareBuild env chan d a).arena
      (shadowPrepareBuild env chan d a).desc.things := by
  unfold shadowPrepareBuild
  split
  · exact Moves.refl a _
  · simp only [hd.2]
    have taken : Moves a []
        (if env.irqsOff then (none, a) else allocChunkForChan env chan false a).2
        (chunkThings (if env.irqsOff then (none, a) else allocChunkForChan env chan false a).1) := by
      split
      · exact Moves.refl a []
      · exact allocChunkForChan_moves rfl
    generalize (if env.irqsOff then (none, a) else allocChunkForChan env chan false a) = allocated
      at taken ⊢
    obtain ⟨c, a'⟩ := allocated
    have held := taken.frame d.things
    have plain : d.things = chunkThings none ++ (chunkThings none ++
        (d.chunks.flatMap Chunk.things ++ [d.place.thing])) := by rw [Desc.things, hd.1, hd.2]
    cases c with
    | none =>
      rw [plain] at held ⊢
      rw [Desc.things, hd.1]
      exact held
    | some c =>
      have pointed : Moves a d.things a' (c.things ++ (chunkThings none ++
          (d.chunks.flatMap Chunk.things ++ [d.place.thing]))) := by
        rw [plain] at held ⊢
        exact held
      simp only
      split
      · exact pointed
      · split
        · exact pointed
        · have freed := pointed.trans ((freeUnlinkedChunk_moves (pointed.room room).left).frame _)
          exact freed

theorem prepareLazy_moves {chan : Chan} {len : Nat} {c : Chunk} {cur : Cursor} {d : Desc}
    (hd : d.Plain) (room : Room a d.things) :
    Moves a d.things (prepareLazy env chan len c cur d a).2 (prepareLazy env chan len c cur d a).1.things := by
  unfold prepareLazy
  split
  · simp only
    have cleared : Desc.things {d with shadowChunk := none, shadowNextChunk := none} = d.things := by
      rw [Desc.things, Desc.things, hd.1, hd.2]
    have built := shadowPrepareBuild_moves env chan (a := a) (d := {d with
      cur := cur
      lazyMode := true
      shadowNext := cur
      shadowAllocSz := 0
      shadowHasMore := true
      shadowState := .idle
      shadowExpectedCb := !c.cb
      shadowChunk := none
      shadowNextChunk := none
      shadowWorkInitialized := true}) ⟨rfl, rfl⟩ (cleared ▸ room)
    rw [← cleared]
    split
    · exact built
    · exact built
  · exact Moves.refl a _

/-- The loop holds what the descriptor and the chunk have, with or without an error. -/
theorem prepareSg_moves {chan : Chan} {len fuel : Nat} {d : Desc} {c : Chunk} {cur : Cursor}
    {r : Left burstSize descSize} (hd : d.Plain) (room : Room a (c.things ++ d.things))
    (h : prepareSg env chan len fuel d c cur a = some r) :
    Moves a (c.things ++ d.things) r.arena r.desc.things := by
  induction fuel generalizing d c cur a with
  | zero => cases h
  | succ fuel ih =>
    have whole := (Moves.refl a (c.things ++ d.things)).perm (things_with hd c)
    unfold prepareSg at h
    split at h
    · cases h
      exact whole
    · split at h
      · cases h
        exact whole
      · split at h
        · cases h
          exact whole.trans (prepareLazy_moves hd (whole.room room))
        · simp only at h
          have filled := (fillSgBursts_moves env chan.dir chan.llMax prepBurstBatchSize c cur
            d.allocSz room.left).frame d.things
          generalize fillSgBursts env chan.dir chan.llMax prepBurstBatchSize c cur d.allocSz a = f
            at h filled
          split at h
          · exact filled.trans (ih (d := {d with allocSz := f.allocAccum}) hd (filled.room room) h)
          · cases h
            exact filled.perm (things_with hd f.chunk)

/-- What is held while a burst is looked for. -/
def nextThings (d : Desc) (c : Chunk) : Option (Desc × Chunk) → List Thing
  | none => c.things ++ d.things
  | some (d, c) => c.things ++ d.things

theorem nextChunk_moves {chan : Chan} {d : Desc} {c : Chunk} {r : Option (Desc × Chunk)}
    (hd : d.Plain) (h : nextChunk env chan d c a = (r, b)) :
    Moves a (c.things ++ d.things) b (nextThings d c r) ∧ ∀ d' c', r = some (d', c') → d'.Plain := by
  unfold nextChunk at h
  split at h
  · split at h
    · next ha =>
      cases h
      exact ⟨(allocChunk_moves ha).frame (c.things ++ d.things), by rintro _ _ ⟨⟩⟩
    · next c' a' ha =>
      cases h
      have whole := (Moves.refl a (c.things ++ d.things)).perm (things_with hd c)
      have moved := (allocChunk_moves ha).frame (d.with c).things
      refine ⟨whole.trans moved, ?_⟩
      rintro _ _ ⟨⟩
      exact hd
  · cases h
    refine ⟨Moves.refl a _, ?_⟩
    rintro _ _ ⟨⟩
    exact hd

theorem prepareBursts_moves {chan : Chan} {content : Nat → Fill.Burst} {n i : Nat} {d : Desc}
    {c : Chunk} (hd : d.Plain) :
    Moves a (c.things ++ d.things) (prepareBursts env chan content n i d c a).arena
      (prepareBursts env chan content n i d c a).desc.things := by
  induction n generalizing i d c a with
  | zero => exact (Moves.refl a _).perm (things_with hd c)
  | succ n ih =>
    unfold prepareBursts
    split
    · next hnext => exact (nextChunk_moves hd hnext).1.perm (things_with hd c)
    · next d' c' a' hnext =>
      obtain ⟨moved, plain⟩ := nextChunk_moves hd hnext
      have hd' := plain d' c' rfl
      split
      · next hb =>
        have tried : Moves a' (c'.things ++ d'.things) _ (c'.things ++ d'.things) :=
          (takeBurst_moves hb).frame _
        exact (moved.trans tried).perm (things_with hd' c')
      · next x a'' hb =>
        have taken := (takeBurst_moves hb).frame (c'.things ++ d'.things)
        have added : Moves a (c.things ++ d.things) a''
            ((c'.add x (content i)).things ++ d'.things) := by
          apply (moved.trans taken).perm
          rw [← List.append_assoc]
          exact (List.perm_append_comm.trans (things_add c' x (content i))).append_right _
        exact added.trans (ih (d := {d' with allocSz := (d'.allocSz + (content i).sz) % 2 ^ 32}) hd')

/-! ### Every preparation returns -/

theorem placeEntry_counters {dir : Dir} {e : SgEntry} {ok : Bool} {p q : Progress burstSize descSize}
    (h : placeEntry env dir e p = (ok, q)) : q.remaining = p.remaining ∧ q.consumed = p.consumed := by
  unfold placeEntry at h
  split at h
  · cases h
    exact ⟨rfl, rfl⟩
  · split at h
    · cases h
      exact ⟨rfl, rfl⟩
    · split at h
      · cases h
        exact ⟨rfl, rfl⟩
      · cases h
        exact ⟨rfl, rfl⟩

/-- What the loop consumes no longer remains. -/
theorem fillLoop_counters (env : Env) (dir : Dir) (need : Nat) (sg : List SgEntry)
    (p : Progress burstSize descSize) :
    (fillLoop env dir need sg p).1.remaining + (fillLoop env dir need sg p).1.consumed =
      p.remaining + p.consumed := by
  induction sg generalizing p with
  | nil => rfl
  | cons e sg ih =>
    unfold fillLoop
    split
    · next guard =>
      split
      · rfl
      · split
        · next hplace =>
          obtain ⟨hremaining, hconsumed⟩ := placeEntry_counters hplace
          rw [hremaining, hconsumed]
        · next q hplace =>
          obtain ⟨hremaining, hconsumed⟩ := placeEntry_counters hplace
          rw [ih]
          simp only [hremaining, hconsumed]
          omega
    · rfl

/-- A fill that has filled something leaves less. -/
theorem fillSgBursts_less {dir : Dir} {llMax batchMax allocAccum : Nat} {c : Chunk} {cur : Cursor}
    (h : (fillSgBursts env dir llMax batchMax c cur allocAccum a).positive) :
    (fillSgBursts env dir llMax batchMax c cur allocAccum a).cur.remaining < cur.remaining := by
  unfold fillSgBursts at h ⊢
  split at h
  · cases h
  · next hguard =>
    rw [if_neg hguard]
    simp only at h ⊢
    generalize min cur.remaining (min (llMax - c.burstsAlloc) batchMax) = need at h ⊢
    have counters := fillLoop_counters env dir need cur.sg
      ⟨c, (allocBurstBatch need a).1, (allocBurstBatch need a).2, cur.remaining, cur.addr,
        allocAccum, 0, false⟩
    generalize fillLoop env dir need cur.sg _ = r at counters h ⊢
    split at h
    · cases h
    · next hfailed =>
      have consumed := of_decide_eq_true h
      rw [if_neg hfailed]
      simp only at counters ⊢
      omega

theorem prepareSg_returns {chan : Chan} {len fuel : Nat} {d : Desc} {c : Chunk} {cur : Cursor}
    (hfuel : cur.remaining < fuel) : (prepareSg env chan len fuel d c cur a).isSome := by
  induction fuel generalizing d c cur a with
  | zero => exact absurd hfuel (Nat.not_lt_zero _)
  | succ fuel ih =>
    unfold prepareSg
    split
    · rfl
    · split
      · rfl
      · split
        · rfl
        · simp only
          split
          · next hpositive =>
            have := fillSgBursts_less hpositive
            exact ih (by omega)
          · rfl

/-! ### The whole -/

theorem prepareKind_moves {chan : Chan} {x : Xfer} {d : Desc} {c : Chunk}
    {r : Left burstSize descSize} (hd : d.Plain) (room : Room a (c.things ++ d.things))
    (h : prepareKind env chan x d c a = some r) :
    Moves a (c.things ++ d.things) r.arena r.desc.things := by
  unfold prepareKind at h
  split at h
  · exact prepareSg_moves hd room h
  · cases h
    exact prepareBursts_moves hd
  · cases h
    exact prepareBursts_moves hd
  · cases h

theorem prepareKind_returns (env : Env) {chan : Chan} {x : Xfer} (d : Desc) (c : Chunk)
    (a : Arena burstSize descSize) (h : admitted chan x) :
    (prepareKind env chan x d c a).isSome := by
  unfold prepareKind
  split
  · exact prepareSg_returns (Nat.lt_succ_self _)
  · rfl
  · rfl
  · next hkind => simp [admitted, hkind] at h

/-- What a preparation hands out. -/
def given : Option Desc → List Thing
  | none => []
  | some d => d.things

/-- On an error the descriptor goes back with all that it has. -/
theorem finish_moves {held : List Thing} {r : Left burstSize descSize} (room : Room a held)
    (h : Moves a held r.arena r.desc.things) : Moves a held r.finish.2 (given r.finish.1) := by
  unfold Left.finish
  split
  · exact h
  · exact h.trans (freeDesc_moves (h.room room))

theorem plain_at (p : Place) : (Desc.at p).Plain := ⟨rfl, rfl⟩

/-- A preparation returns, with its descriptor and all that is in it, or with nothing. -/
theorem deviceTransfer_moves (env : Env) (chan : Chan) (x : Xfer) (a : Arena burstSize descSize) :
    ∃ r b, deviceTransfer env chan x a = some (r, b) ∧ Moves a [] b (given r) := by
  unfold deviceTransfer
  split
  · exact ⟨none, a, rfl, Moves.refl a []⟩
  · next hadmitted =>
    have hadmitted : admitted chan x := by simpa using hadmitted
    split
    · next b hdesc => exact ⟨none, b, rfl, allocDesc_moves hdesc⟩
    · next place b hdesc =>
      have desc : Moves a [] b (Desc.at place).things := allocDesc_moves hdesc
      have room := desc.room (room_nil a)
      split
      · next b' hchunk =>
        have tried : Moves b (Desc.at place).things b' (Desc.at place).things :=
          (allocChunk_moves hchunk).frame _
        exact ⟨none, _, rfl, desc.trans (tried.trans (freeDesc_moves (tried.room room)))⟩
      · next c b' hchunk =>
        have held := desc.trans ((allocChunk_moves hchunk).frame (Desc.at place).things)
        have room := held.room (room_nil a)
        obtain ⟨r, hr⟩ := Option.isSome_iff_exists.mp
          (prepareKind_returns env (.at place) c b' hadmitted)
        have prepared := finish_moves room (prepareKind_moves (plain_at place) room hr)
        exact ⟨r.finish.1, r.finish.2, by rw [hr]; rfl, held.trans prepared⟩

end Alloc

/-- Before a preparation. -/
def Arena.start (bursts : FreeList burstSize) (descs : FreeList descSize) :
    Arena burstSize descSize := ⟨bursts, descs, 0, 0, []⟩

theorem numbered_start (bursts : FreeList burstSize) (descs : FreeList descSize) :
    (Arena.start bursts descs).Numbered := by
  intro id
  simp [Arena.start]

/-- Where nothing is held, the free lists are as they were, and what was taken is given
back. -/
theorem settled_of_moves {bursts : FreeList burstSize} {descs : FreeList descSize}
    {b : Arena burstSize descSize} (h : Moves (.start bursts descs) [] b []) :
    b.bursts.list.Perm bursts.list ∧ b.descs.list.Perm descs.list ∧ Settled b.log := by
  have hstock (t : Thing) : b.stock t = (Arena.start bursts descs).stock t := by
    simpa using h.stock t
  refine ⟨List.perm_iff_count.mpr fun i => ?_, List.perm_iff_count.mpr fun i => ?_, fun id => ?_⟩
  · exact Int.ofNat.inj (hstock (.burst i))
  · exact Int.ofNat.inj (hstock (.desc i))
  · simpa [Arena.stock, Arena.start] using hstock (.memory id)

/-- A failed preparation has the free bursts and descriptors back in their lists, and what
`kzalloc` returned to it, each of the numbers below `fresh` once, is freed once. -/
theorem failed_leaks_nothing (env : Env) (chan : Chan) (x : Xfer) (bursts : FreeList burstSize)
    (descs : FreeList descSize) :
    ∃ r b, deviceTransfer env chan x (.start bursts descs) = some (r, b) ∧
      (r = none →
        b.bursts.list.Perm bursts.list ∧ b.descs.list.Perm descs.list ∧
          ∀ id, b.log.count (.give id) = b.log.count (.take id) ∧
            b.log.count (.take id) = if id < b.fresh then 1 else 0) := by
  obtain ⟨r, b, hr, moved⟩ := deviceTransfer_moves env chan x (.start bursts descs)
  refine ⟨r, b, hr, fun hnone => ?_⟩
  subst hnone
  obtain ⟨hbursts, hdescs, settled⟩ := settled_of_moves moved
  have numbered := moved.numbered (numbered_start bursts descs)
  exact ⟨hbursts, hdescs, fun id => ⟨settled.count_give id, numbered id⟩⟩

end Model

/-- Two entries of three: the anchor has the burst of the pool, the entries two of `kzalloc`, and
all of it goes back with the chunk and the descriptor. -/
example :
    let env : Env := ⟨fun _ => true, false, false, false, 0, false, false⟩
    let chan : Chan := ⟨true, .write, 0, .other, 0x1000, 0, 8, 64, true⟩
    let x : Xfer := ⟨.devToMem, .sg [⟨0x8000, 16⟩, ⟨0x9000, 16⟩] 3⟩
    let bursts : FreeList 1 := ⟨[0], by decide⟩
    let descs : FreeList 1 := ⟨[], by decide⟩
    (deviceTransfer env chan x (.start bursts descs)).map
        (fun r => (r.1.isSome, r.2.bursts.list, r.2.log)) =
      some (false, [0],
        [.take 0, .take 1, .take 2, .take 3, .give 2, .give 3, .give 1, .give 0]) := by
  decide

end DxNpuDriver.Edma.Prepare
