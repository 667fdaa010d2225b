import DxNpuDriver.Edma.Coverage

/-! What `alloc_sz` and `xfer_sz` count (`dw-edma-core.c`, `dw-edma-mem.c`).

`alloc_sz` counts the bytes of the tables that a descriptor was given, `xfer_sz` those of
the tables that are done, and `dw_edma_device_tx_status` reports the difference. The bytes
of a table are counted in its `ll_region.sz`, on top of what the constructor of the chunk
put there: the size of the channel's region in the device.

A ledger beside the machine of `Transfer` keeps the tables that joined the descriptor and
those whose Done was handled. `Balance` is what the two counters say of it, whichever
worker moved them; it holds in every run (`run_balance`), and what it says is that the two
agree with the ledger only as long as the region's size adds up to nothing. -/
namespace DxNpuDriver.Edma.Transfer
open Fill

/-! ### Cyclic and interleaved transfers -/

/-- `struct dw_edma_cyclic`. -/
structure Cyclic where
  paddr : Nat
  len : Nat
  cnt : Nat

/-- What is read of `struct dma_interleaved_template`; `sgl i` is `sgl[i].size`. -/
structure Interleaved where
  srcStart : Nat
  dstStart : Nat
  numf : Nat
  frameSize : Nat
  sgl : Nat → Nat

/-- The burst of one pass of the loop: its host and device address, and its size. -/
structure Pass where
  host : Nat
  dev : Nat
  sz : Nat

/-- `cnt` and `burst->sz` have 32 bits. -/
def Cyclic.passes (x : Xfer) (r : Cyclic) : List Pass :=
  List.replicate (r.cnt % 2 ^ 32) ⟨r.paddr, x.addr, r.len % 2 ^ 32⟩

/-- The host side of the bursts is left 0, and with no `frame_size` the device side does not
move. -/
def Interleaved.passes (x : Xfer) (r : Interleaved) : List Pass :=
  let dev := match x.dir with
    | .write => r.srcStart
    | .read => r.dstStart
  (List.range (r.numf % 2 ^ 32)).map fun i => ⟨0, dev, r.sgl i % 2 ^ 32⟩

/-- The `for` of `dw_edma_device_transfer`: `chunks` are full, `c` is being filled, and
`left` allocations succeed before the first that does not. A new chunk takes two of them,
itself and its anchor, and a burst one. -/
def buildLoop (x : Xfer) :
    List Pass → Nat → List Chunk → Chunk → Nat → Option (List Chunk × Nat)
  | [], _, chunks, c, allocSz => some (chunks ++ [c], allocSz)
  | p :: passes, left, chunks, c, allocSz =>
    let allocSz' := (allocSz + p.sz) % 2 ^ 32
    if c.burstsAlloc = x.llMax then
      if left < 3 then none
      else
        let fresh := {allocChunk x with cb := decide ((chunks.length + 1) % 2 = 0)}
        buildLoop x passes (left - 3) (chunks ++ [c]) (initSgBurst x.dir fresh p.host p.dev p.sz)
          allocSz'
    else if left < 1 then none
    else buildLoop x passes (left - 1) chunks (initSgBurst x.dir c p.host p.dev p.sz) allocSz'

/-- The three kinds of request, each with what the allocators have for it. -/
inductive Request where
  | scatterGather (supplies : List Supply) (ok : Bool)
  | cyclic (r : Cyclic) (left : Nat)
  | interleaved (r : Interleaved) (left : Nat)

def build (x : Xfer) (passes : List Pass) (left : Nat) : Option Desc :=
  (buildLoop x passes left [] (allocChunk x) 0).map fun r =>
    {desc (allocChunk x) r.2 with chunks := r.1}

/-- `dw_edma_device_transfer`. -/
def prepare (x : Xfer) : Request → Option Desc
  | .scatterGather supplies ok => deviceTransfer x supplies ok
  | .cyclic r left => if r.len = 0 ∨ r.cnt = 0 then none else build x (r.passes x) left
  | .interleaved r left =>
    if r.numf = 0 ∨ 0 < r.frameSize then none else build x (r.passes x) left

/-! ### The ledger -/

/-- The bytes of a table. -/
def size (c : Chunk) : Nat := (c.bursts.map Burst.sz).sum

def sizes (chunks : List Chunk) : Nat := (chunks.map size).sum

/-- The tables that joined the descriptor, and those whose Done was handled. `credited`
tells that the first table of the list is among the latter. -/
structure Ledger where
  linked : List Chunk
  completed : List Chunk
  credited : Bool
  deriving DecidableEq

/-- The table whose completion the step handles: in the Done interrupt, or where the shadow
worker finds the channel stopped. -/
def completes (s : State) : Label → Option Chunk
  | .done => if s.xferStarted ∧ ¬s.completed then s.desc.chunks.head? else none
  | .shadow _ =>
    match s.shadow with
    | .handoff c =>
      if s.desc.lazyMode ∧ s.desc.shadowState = .ready ∧ s.desc.shadowChunk = some c then
        s.desc.chunks.head?
      else none
    | _ => none
  | _ => none

/-- The table that joins the descriptor: the refilled one, or the shadow. -/
def links (s : State) : Label → Option Chunk
  | .lazy _ =>
    match s.lazy with
    | .commit child (some _) =>
      if s.completed ∨ s.desc.lazyRefillState ≠ .preparing ∨ ¬s.desc.lazyMode ∨ s.aborted ∨ s.hwErr
      then none else some child
    | _ => none
  | .shadow _ =>
    match s.shadow with
    | .launch c _ => if s.desc.shadowState = .cancelled ∨ s.aborted then none else some c
    | _ => none
  | _ => none

/-- The completed table stays first in the list until the next one takes its place. -/
def stays (s : State) : Label → Bool
  | .done => (doneInterrupt s).desc.chunks = s.desc.chunks
  | _ => true

def note (s : State) (l : Label) (g : Ledger) : Ledger :=
  match completes s l with
  | some c => {g with completed := g.completed ++ [c], credited := stays s l}
  | none =>
    match links s l with
    | some c => {g with linked := g.linked ++ [c], credited := false}
    | none => g

/-- The machine with its ledger. -/
def audited (x : Xfer) : State × Ledger → Label → Option (State × Ledger) :=
  Machine.watched (step x) note

/-- The descriptor is issued, with the tables that it was prepared with. -/
def opened (d : Desc) : State × Ledger := (issue d, ⟨d.chunks, [], false⟩)

/-- What `dw_edma_device_tx_status` reports. -/
def residue (d : Desc) : Nat := (d.allocSz + 2 ^ 32 - d.xferSz) % 2 ^ 32

/-- The counters are those of the ledger: `xfer_sz` is the bytes of the completed tables and
does not pass `alloc_sz`, and with the residue it makes up the bytes of all tables. -/
structure Accounted (d : Desc) (g : Ledger) : Prop where
  xferSz : d.xferSz = sizes g.completed
  le : d.xferSz ≤ d.allocSz
  residue : residue d + sizes g.completed = sizes g.linked

/-! ### The balance -/

/-- `ll_region.sz` counts the region of `base` bytes and the bytes of the table. -/
def Sized (base : Nat) (c : Chunk) : Prop := c.llRegionSz = base + size c

/-- The tables of the list that are not completed. -/
def Ledger.outstanding (g : Ledger) (chunks : List Chunk) : List Chunk :=
  if g.credited then chunks.tail else chunks

/-- What the counters say of the ledger. -/
structure Balance (base : Nat) (d : Desc) (g : Ledger) : Prop where
  allocSz : d.allocSz = sizes g.linked % 2 ^ 32
  xferSz : d.xferSz = (sizes g.completed + g.completed.length * base) % 2 ^ 32
  sized : ∀ c ∈ d.chunks, Sized base c
  le : sizes g.completed + sizes (g.outstanding d.chunks) ≤ sizes g.linked

@[simp] theorem sizes_nil : sizes [] = 0 := rfl

@[simp] theorem sizes_cons (c : Chunk) (cs : List Chunk) : sizes (c :: cs) = size c + sizes cs := by
  simp only [sizes, List.map_cons, List.sum_cons]

@[simp] theorem sizes_append (as bs : List Chunk) : sizes (as ++ bs) = sizes as + sizes bs := by
  simp only [sizes, List.map_append, List.sum_append]

theorem sizes_tail_le (cs : List Chunk) : sizes cs.tail ≤ sizes cs := by
  cases cs with
  | nil => exact Nat.le_refl _
  | cons c cs => simp

/-- The counters agree with the ledger as long as the region's size adds up to a multiple of
2^32, and the bytes of all tables fit. -/
theorem Balance.accounted_iff {base : Nat} {d : Desc} {g : Ledger} (h : Balance base d g) :
    Accounted d g ↔ g.completed.length * base % 2 ^ 32 = 0 ∧ sizes g.linked < 2 ^ 32 := by
  have hle : sizes g.completed ≤ sizes g.linked := Nat.le_trans (Nat.le_add_right _ _) h.le
  have halloc := h.allocSz
  have hxfer := h.xferSz
  constructor
  · rintro ⟨hcompleted, hwithin, hresidue⟩
    simp only [residue] at hresidue
    omega
  · rintro ⟨hbase, hfits⟩
    have hcompleted : d.xferSz = sizes g.completed := by omega
    refine ⟨hcompleted, by omega, ?_⟩
    simp only [residue]
    omega

/-! ### Done -/

theorem startTransfer_desc (s : State) : (startTransfer s).desc = s.desc := by
  simp only [startTransfer]
  split
  · rfl
  · split
    · rfl
    · split <;> rfl

theorem finishDone_desc (s : State) : (finishDone s).desc = s.desc := by
  simp only [finishDone]
  split
  · exact startTransfer_desc _
  · rfl

/-- The lazy path of a Done leaves the counters and the list alone. -/
theorem deferLazyDone_counters (s : State) :
    (deferLazyDone s).1.desc.allocSz = s.desc.allocSz ∧
    (deferLazyDone s).1.desc.xferSz = s.desc.xferSz ∧
    (deferLazyDone s).1.desc.chunks = s.desc.chunks := by
  simp only [deferLazyDone]
  split
  · exact ⟨rfl, rfl, rfl⟩
  · split
    · exact ⟨rfl, rfl, rfl⟩
    · exact ⟨rfl, rfl, rfl⟩
    · split
      · split <;> exact ⟨rfl, rfl, rfl⟩
      · exact ⟨rfl, rfl, rfl⟩
    · exact ⟨rfl, rfl, rfl⟩
    · exact ⟨rfl, rfl, rfl⟩

theorem doneInterrupt_eq {s : State} {child : Chunk} {rest : List Chunk}
    (hstarted : s.xferStarted = true) (hcompleted : s.completed = false)
    (hchunks : s.desc.chunks = child :: rest) :
    doneInterrupt s =
      match deferLazyDone (credit ((s.desc.xferSz + child.llRegionSz) % 2 ^ 32) s) with
      | (t, true) => t
      | (t, false) => finishDone {t with desc := {t.desc with chunks := rest}} := by
  simp only [doneInterrupt]
  rw [if_neg (by simp [hstarted]), if_neg (by simp [hcompleted])]
  split
  · next hnil => cases hchunks.symm.trans hnil
  · next hcons =>
    cases hchunks.symm.trans hcons
    rfl

/-- A Done of a channel that was not started, or whose cookie is complete. -/
theorem doneInterrupt_uncounted {s : State} (h : ¬(s.xferStarted = true ∧ s.completed = false)) :
    doneInterrupt s = {s with xferStarted := false} ∧ ∀ g, note s .done g = g := by
  have hnone : completes s .done = none := by
    simp only [completes]
    rw [if_neg (by simpa using h)]
  refine ⟨?_, fun g => by simp only [note, hnone, links]⟩
  cases hstarted : s.xferStarted with
  | false =>
    have hsame : doneInterrupt s = s := by simp [doneInterrupt, hstarted]
    rw [hsame, ← hstarted]
  | true =>
    have hcompleted : s.completed = true := by
      simpa [hstarted] using h
    simp [doneInterrupt, hstarted, hcompleted]

/-- A Done that counts adds `ll_region.sz` of the first table, which stays or leaves. -/
theorem doneInterrupt_counters {s : State} {child : Chunk} {rest : List Chunk}
    (hstarted : s.xferStarted = true) (hcompleted : s.completed = false)
    (hchunks : s.desc.chunks = child :: rest) :
    (doneInterrupt s).desc.allocSz = s.desc.allocSz ∧
    (doneInterrupt s).desc.xferSz = (s.desc.xferSz + child.llRegionSz) % 2 ^ 32 ∧
    ((doneInterrupt s).desc.chunks = child :: rest ∨ (doneInterrupt s).desc.chunks = rest) := by
  have counters := deferLazyDone_counters (credit ((s.desc.xferSz + child.llRegionSz) % 2 ^ 32) s)
  rw [doneInterrupt_eq hstarted hcompleted hchunks]
  split
  · next t heq =>
    rw [heq] at counters
    exact ⟨counters.1, counters.2.1, .inl (counters.2.2.trans hchunks)⟩
  · next t heq =>
    rw [heq] at counters
    rw [finishDone_desc]
    exact ⟨counters.1, counters.2.1, .inr rfl⟩

/-- The first table is credited, and stays or leaves. -/
theorem Balance.complete {base : Nat} {d d' : Desc} {g : Ledger} {child : Chunk} {rest : List Chunk}
    (h : Balance base d g) (hfresh : g.credited = false) (hchunks : d.chunks = child :: rest)
    (halloc : d'.allocSz = d.allocSz)
    (hxfer : d'.xferSz = (d.xferSz + child.llRegionSz) % 2 ^ 32) (stays : Bool)
    (hlist : d'.chunks = if stays then child :: rest else rest) :
    Balance base d' {g with completed := g.completed ++ [child], credited := stays} where
  allocSz := halloc.trans h.allocSz
  xferSz := by
    have hsized : Sized base child := h.sized child (by simp [hchunks])
    rw [hxfer, h.xferSz, hsized]
    simp only [sizes_append, sizes_cons, sizes_nil, List.length_append, List.length_singleton,
      Nat.add_mul, Nat.one_mul]
    omega
  sized c hc := by
    apply h.sized
    rw [hchunks]
    rw [hlist] at hc
    split at hc
    · exact hc
    · exact List.mem_cons_of_mem _ hc
  le := by
    have hle := h.le
    simp only [Ledger.outstanding, hfresh, hchunks, Bool.false_eq_true, if_false, sizes_cons] at hle
    simp only [Ledger.outstanding, hlist, sizes_append, sizes_cons, sizes_nil]
    cases stays with
    | true =>
      simp only [if_true, List.tail_cons]
      omega
    | false =>
      simp only [Bool.false_eq_true, if_false]
      omega

/-- A Done keeps the balance: it finds the first table not yet completed. -/
theorem doneInterrupt_balance {base : Nat} {s : State} {g : Ledger} (h : Balance base s.desc g)
    (hfresh : s.xferStarted = true → g.credited = false) :
    Balance base (doneInterrupt s).desc (note s .done g) := by
  by_cases hcounts : s.xferStarted = true ∧ s.completed = false
  · obtain ⟨hstarted, hcompleted⟩ := hcounts
    cases hchunks : s.desc.chunks with
    | nil =>
      have hdone : (doneInterrupt s).desc = s.desc := by
        simp [doneInterrupt, hstarted, hcompleted, hchunks, finishDone_desc]
      have hnote : note s .done g = g := by simp [note, completes, links, hchunks]
      rw [hdone, hnote]
      exact h
    | cons child rest =>
      obtain ⟨halloc, hxfer, hlist⟩ := doneInterrupt_counters hstarted hcompleted hchunks
      have hnote : note s .done g = {g with
          completed := g.completed ++ [child]
          credited := decide ((doneInterrupt s).desc.chunks = s.desc.chunks)} := by
        simp [note, completes, stays, hstarted, hcompleted, hchunks]
      rw [hnote]
      refine h.complete (hfresh hstarted) hchunks halloc hxfer _ ?_
      rcases hlist with hlist | hlist
      · simp [hlist, hchunks]
      · have hleft : rest ≠ child :: rest := List.ne_cons_self
        simp [hlist, hchunks, hleft]
  · obtain ⟨hdone, hnote⟩ := doneInterrupt_uncounted hcounts
    rw [hdone, hnote]
    exact h

/-! ### Fills -/

/-- `ll_region.sz` and the count beside it, which began with `start`, have both gone over
the bytes of the table. -/
structure Counts (base start : Nat) (c : Chunk) (accum : Nat) : Prop where
  sized : Sized base c
  accum : accum = (start + size c) % 2 ^ 32

theorem size_initSgBurst (dir : Dir) (c : Chunk) (host dev len : Nat) :
    size (initSgBurst dir c host dev len) = size c + len := by
  cases dir <;> simp [size, initSgBurst]

theorem size_extendSgBurst {c : Chunk} {last : Burst} (len : Nat) (h : lastDataBurst c = some last) :
    size (extendSgBurst c last len) = size c + len := by
  have hlast : c.bursts.getLast? = some last := by
    simp only [lastDataBurst] at h
    split at h
    · exact h
    · cases h
  have hsplit : c.bursts.dropLast ++ [last] = c.bursts := List.dropLast_append_getLast? last hlast
  simp only [size, extendSgBurst]
  rw [← hsplit]
  simp only [List.map_append, List.sum_append, List.map_cons, List.map_nil, List.sum_cons,
    List.sum_nil, List.dropLast_concat]
  omega

theorem Counts.initSgBurst {base start accum : Nat} {c : Chunk} (h : Counts base start c accum)
    (dir : Dir) (host dev len : Nat) :
    Counts base start (initSgBurst dir c host dev len) ((accum + len) % 2 ^ 32) := by
  obtain ⟨hsized, haccum⟩ := h
  simp only [Sized] at hsized
  refine ⟨?_, ?_⟩
  · simp only [Sized, size_initSgBurst]
    simp only [Fill.initSgBurst, hsized]
    omega
  · rw [size_initSgBurst, haccum]
    omega

theorem Counts.fill {base start accum llMax batchMax : Nat} {dir : Dir} {supply : Supply} {c : Chunk}
    {cur : Cursor} (h : Counts base start c accum) :
    Counts base start (fillSgBursts dir llMax batchMax supply c cur accum).chunk
      (fillSgBursts dir llMax batchMax supply c cur accum).allocAccum := by
  refine fillSgBursts_keeps (P := Counts base start) ?_ ?_ h
  · rintro c last len accum hlast ⟨hsized, haccum⟩
    simp only [Sized] at hsized
    refine ⟨?_, ?_⟩
    · simp only [Sized, size_extendSgBurst len hlast]
      simp only [extendSgBurst, hsized]
      omega
    · rw [size_extendSgBurst len hlast, haccum]
      omega
  · intro c host dev len accum h
    exact h.initSgBurst dir host dev len

/-! ### What a prepared descriptor counts -/

/-- A new descriptor counts the bytes of its tables, and its shadow has none. -/
structure Opening (x : Xfer) (d : Desc) : Prop where
  allocSz : d.allocSz = sizes d.chunks % 2 ^ 32
  xferSz : d.xferSz = 0
  sized : ∀ c ∈ d.chunks, Sized x.regionSz c
  shadow : ∀ u, d.shadowChunk = some u → Counts x.regionSz 0 u d.shadowAllocSz
  spare : d.shadowNextChunk = none

theorem Opening.balance {x : Xfer} {d : Desc} (h : Opening x d) :
    Balance x.regionSz d ⟨d.chunks, [], false⟩ where
  allocSz := h.allocSz
  xferSz := by simp [h.xferSz]
  sized := h.sized
  le := by simp [Ledger.outstanding]

theorem opening_desc {x : Xfer} {c : Chunk} {allocSz : Nat} (h : Counts x.regionSz 0 c allocSz) :
    Opening x (desc c allocSz) where
  allocSz := by simp [desc, h.accum]
  xferSz := rfl
  sized c' hc := by
    have hc' : c' = c := by simpa [desc] using hc
    exact hc' ▸ h.sized
  shadow _ hu := by cases hu
  spare := rfl

theorem opening_prepareLazy {x : Xfer} {ok : Bool} {c : Chunk} {cur : Cursor} {allocSz : Nat}
    (h : Counts x.regionSz 0 c allocSz) : Opening x (prepareLazy x ok c cur allocSz) := by
  have base := opening_desc h
  simp only [prepareLazy]
  split
  · simp only [shadowPrepareBuild]
    split
    · refine {base with shadow := ?_}
      rintro u hu
      cases hu
      exact ⟨rfl, rfl⟩
    · exact {base with shadow := fun _ hu => by cases hu}
  · exact {base with shadow := fun _ hu => by cases hu}

theorem opening_prepareEnd {x : Xfer} {ok : Bool} {c : Chunk} {cur : Cursor} {allocSz : Nat} {d : Desc}
    (hc : Counts x.regionSz 0 c allocSz) (h : prepareEnd x ok c cur allocSz = some (some d)) :
    Opening x d := by
  simp only [prepareEnd] at h
  split at h
  · cases h
    exact opening_desc hc
  · split at h
    · cases h
    · split at h
      · cases h
        exact opening_prepareLazy hc
      · cases h

theorem deviceTransfer_opening {x : Xfer} {supplies : List Supply} {ok : Bool} {d : Desc}
    (h : deviceTransfer x supplies ok = some d) : Opening x d := by
  have loop : ∀ (supplies : List Supply) (c : Chunk) (cur : Cursor) (allocSz : Nat),
      Counts x.regionSz 0 c allocSz → prepareLoop x ok supplies c cur allocSz = some d →
      Opening x d := by
    intro supplies
    induction supplies with
    | nil =>
      intro c cur allocSz hc h
      simp only [prepareLoop, Option.join_eq_some_iff] at h
      exact opening_prepareEnd hc h
    | cons supply supplies ih =>
      intro c cur allocSz hc h
      simp only [prepareLoop] at h
      split at h
      · next r hend =>
        rw [h] at hend
        exact opening_prepareEnd hc hend
      · split at h
        · exact ih _ _ _ hc.fill h
        · cases h
  simp only [deviceTransfer] at h
  split at h
  · cases h
  · have empty : Counts x.regionSz 0 (allocChunk x) 0 := ⟨rfl, rfl⟩
    exact loop _ _ _ _ empty h

theorem buildLoop_counts {x : Xfer} {passes : List Pass} {left allocSz : Nat} {chunks : List Chunk}
    {c : Chunk} {r : List Chunk × Nat} (hchunks : ∀ u ∈ chunks, Sized x.regionSz u)
    (hc : Counts x.regionSz (sizes chunks) c allocSz)
    (h : buildLoop x passes left chunks c allocSz = some r) :
    (∀ u ∈ r.1, Sized x.regionSz u) ∧ r.2 = sizes r.1 % 2 ^ 32 := by
  induction passes generalizing left allocSz chunks c with
  | nil =>
    cases h
    refine ⟨?_, by simp [hc.accum]⟩
    exact List.forall_mem_append.mpr ⟨hchunks, List.forall_mem_singleton.mpr hc.sized⟩
  | cons p passes ih =>
    simp only [buildLoop] at h
    split at h
    · split at h
      · cases h
      · have fresh : Counts x.regionSz (sizes (chunks ++ [c]))
            {allocChunk x with cb := decide ((chunks.length + 1) % 2 = 0)} allocSz :=
          ⟨rfl, by simp [hc.accum, allocChunk, size]⟩
        refine ih ?_ (fresh.initSgBurst x.dir p.host p.dev p.sz) h
        exact List.forall_mem_append.mpr ⟨hchunks, List.forall_mem_singleton.mpr hc.sized⟩
    · split at h
      · cases h
      · exact ih hchunks (hc.initSgBurst x.dir p.host p.dev p.sz) h

theorem build_opening {x : Xfer} {passes : List Pass} {left : Nat} {d : Desc}
    (h : build x passes left = some d) : Opening x d := by
  obtain ⟨r, hr, rfl⟩ := Option.map_eq_some_iff.mp h
  have empty : Counts x.regionSz (sizes []) (allocChunk x) 0 := ⟨rfl, rfl⟩
  obtain ⟨hsized, hallocSz⟩ := buildLoop_counts (List.forall_mem_nil _) empty hr
  exact ⟨hallocSz, rfl, hsized, fun _ hu => (by cases hu), rfl⟩

/-! ### Runs without refills -/

/-- The descriptor has all its tables, and the two workers have nothing to do. -/
structure Plain (s : State) : Prop where
  lazyMode : s.desc.lazyMode = false
  lazy : s.lazy = .idle ∧ s.lazyPending = false
  shadow : s.shadow = .idle ∧ s.shadowPending = false

theorem Plain.same {s t : State} (h : Plain s) (hmode : t.desc.lazyMode = s.desc.lazyMode)
    (hlazy : t.lazy = s.lazy ∧ t.lazyPending = s.lazyPending)
    (hshadow : t.shadow = s.shadow ∧ t.shadowPending = s.shadowPending) : Plain t where
  lazyMode := hmode.trans h.lazyMode
  lazy := ⟨hlazy.1.trans h.lazy.1, hlazy.2.trans h.lazy.2⟩
  shadow := ⟨hshadow.1.trans h.shadow.1, hshadow.2.trans h.shadow.2⟩

theorem startTransfer_plain {s : State} (h : Plain s) : Plain (startTransfer s) := by
  simp only [startTransfer]
  split
  · exact h
  · split
    · exact h.same rfl ⟨rfl, rfl⟩ ⟨rfl, rfl⟩
    · split <;> exact h.same rfl ⟨rfl, rfl⟩ ⟨rfl, rfl⟩

theorem finishDone_plain {s : State} (h : Plain s) : Plain (finishDone s) := by
  simp only [finishDone]
  split
  · exact startTransfer_plain (h.same rfl ⟨rfl, rfl⟩ ⟨rfl, rfl⟩)
  · exact h.same rfl ⟨rfl, rfl⟩ ⟨rfl, rfl⟩

/-- Without a refill the completed table leaves the list. -/
theorem doneInterrupt_plain {s : State} (h : Plain s) :
    Plain (doneInterrupt s) ∧ ∀ g, g.credited = false → (note s .done g).credited = false := by
  by_cases hcounts : s.xferStarted = true ∧ s.completed = false
  · obtain ⟨hstarted, hcompleted⟩ := hcounts
    cases hchunks : s.desc.chunks with
    | nil =>
      have hdone : doneInterrupt s = finishDone {s with xferStarted := false} := by
        simp [doneInterrupt, hstarted, hcompleted, hchunks]
      rw [hdone]
      refine ⟨finishDone_plain (h.same rfl ⟨rfl, rfl⟩ ⟨rfl, rfl⟩), fun g hg => ?_⟩
      simpa [note, completes, links, hchunks] using hg
    | cons child rest =>
      have hdefer (xferSz : Nat) :
          deferLazyDone (credit xferSz s) = (credit xferSz s, false) := by
        simp [deferLazyDone, credit, h.lazyMode]
      have hdone := doneInterrupt_eq hstarted hcompleted hchunks
      rw [hdefer] at hdone
      have hleft : rest ≠ child :: rest := List.ne_cons_self
      refine ⟨?_, fun g _ => ?_⟩
      · rw [hdone]
        exact finishDone_plain (h.same rfl ⟨rfl, rfl⟩ ⟨rfl, rfl⟩)
      · simp [note, completes, stays, hstarted, hcompleted, hchunks, hdone, finishDone_desc, hleft]
  · obtain ⟨hdone, hnote⟩ := doneInterrupt_uncounted hcounts
    rw [hdone]
    exact ⟨h.same rfl ⟨rfl, rfl⟩ ⟨rfl, rfl⟩, fun g hg => by rw [hnote, hg]⟩

theorem launchStep_plain {s t : State} {env : Env} (h : Plain s) (ht : launchStep env s = some t) :
    Plain t ∧ t.desc = s.desc := by
  cases launchStep_cases ht with
  | nothing | dropped | taken | prepared | unprepared | refused | stale =>
    exact ⟨h.same rfl ⟨rfl, rfl⟩ ⟨rfl, rfl⟩, rfl⟩
  | rung child pending hl hcompleted hchild hpending =>
    rcases hpending with rfl | ⟨-, hlazy, -⟩
    · exact ⟨h.same rfl ⟨rfl, rfl⟩ ⟨rfl, rfl⟩, rfl⟩
    · cases h.lazyMode.symm.trans hlazy

/-- Whatever happens to a descriptor without refills, its counters keep the balance. -/
theorem plain_step_balance {x : Xfer} {base : Nat} (p : State × Ledger) (l : Label) (q : State × Ledger)
    (inv : Plain p.1 ∧ p.2.credited = false ∧ Balance base p.1.desc p.2)
    (h : audited x p l = some q) : Plain q.1 ∧ q.2.credited = false ∧ Balance base q.1.desc q.2 := by
  obtain ⟨s, g⟩ := p
  obtain ⟨t, g'⟩ := q
  obtain ⟨plain, hcredited, balance⟩ := inv
  obtain ⟨ht, hg⟩ := (Machine.watched_eq_some (step x) note).mp h
  simp only at ht hg plain hcredited balance ⊢
  subst hg
  cases l with
  | done =>
    cases ht
    obtain ⟨hplain, hkeeps⟩ := doneInterrupt_plain plain
    exact ⟨hplain, hkeeps g hcredited, doneInterrupt_balance balance fun _ => hcredited⟩
  | launchRun =>
    simp only [step] at ht
    split at ht
    · cases ht
      exact ⟨plain.same rfl ⟨rfl, rfl⟩ ⟨rfl, rfl⟩, hcredited, balance⟩
    · cases ht
  | lazyRun => simp [step, plain.lazy.2] at ht
  | shadowRun => simp [step, plain.shadow.2] at ht
  | launch env =>
    obtain ⟨hplain, hdesc⟩ := launchStep_plain plain ht
    rw [hdesc]
    exact ⟨hplain, hcredited, balance⟩
  | lazy env => simp [step, lazyStep, plain.lazy.1] at ht
  | shadow env => simp [step, shadowStep, plain.shadow.1] at ht

/-! ### Runs with refills -/

/-- The chunk for the build after the next that the worker holds. -/
def Shadow.next : Shadow → Option Chunk
  | .turn _ next | .precopy _ next | .launch _ next => next
  | _ => none

/-- The plan of a refill under way counts the bytes of its table on top of the others. -/
def RefillCounts (x : Xfer) (s : State) : Prop :=
  match s.lazy with
  | .prepare c plan | .commit c (some plan) => Counts x.regionSz s.desc.allocSz c plan.allocSz
  | _ => True

/-- What the workers' counts say, beside the balance. A table that is credited is not
credited again: it does not run, and no build is announced for a Done of it. -/
structure Books (x : Xfer) (s : State) (g : Ledger) : Prop where
  balance : Balance x.regionSz s.desc g
  credited : g.credited = true → s.xferStarted = false ∧ s.rung ≠ [] ∧
    s.desc.shadowState ≠ .ready ∧ s.desc.shadowState ≠ .building
  refill : RefillCounts x s
  shadow : ∀ u, s.desc.shadowChunk = some u → s.shadow ≠ .failed →
    Counts x.regionSz 0 u s.desc.shadowAllocSz
  spare : ∀ u, s.desc.shadowNextChunk = some u ∨ s.shadow.next = some u →
    Sized x.regionSz u ∧ size u = 0

theorem doneInterrupt_books {x : Xfer} {k n : Nat} {s : State} {g : Ledger} (cover : Cover x k n s)
    (inv : Books x s g) : Books x (doneInterrupt s) (note s .done g) := by
  have hfresh : s.xferStarted = true → g.credited = false := by
    intro hstarted
    refine Bool.eq_false_iff.mpr fun hcredited => ?_
    cases hstarted.symm.trans (inv.credited hcredited).1
  have balance := doneInterrupt_balance inv.balance hfresh
  by_cases hcounts : s.xferStarted = true ∧ s.completed = false
  · obtain ⟨hstarted, hcompleted⟩ := hcounts
    obtain ⟨hrung, hne⟩ := cover.base.started hstarted
    obtain ⟨child, hchunks⟩ : ∃ child, s.desc.chunks = [child] :=
      List.length_eq_one_iff.mp
        (Nat.le_antisymm cover.base.single (List.length_pos_iff.mpr hne))
    have hleft : (note s .done g).credited = true → (doneInterrupt s).desc.chunks ≠ [] := by
      simp only [note, completes, stays, hstarted, hcompleted, hchunks]
      intro hstays hnil
      simp [hnil] at hstays
    have hout := doneInterrupt_outcome hstarted hcompleted hchunks
    generalize doneInterrupt s = t at hout balance hleft ⊢
    cases hout with
    | finished | unexpected =>
      exact ⟨balance, fun hc => absurd rfl (hleft hc), inv.refill, inv.shadow, inv.spare⟩
    | handed =>
      exact ⟨balance, fun _ => ⟨rfl, hrung, (by rintro ⟨⟩), (by rintro ⟨⟩)⟩, inv.refill, inv.shadow, inv.spare⟩
    | refill hlazy hidle | stuck hlazy hidle =>
      have hidle' : s.desc.shadowState = .idle := hidle
      refine ⟨balance, fun _ => ⟨rfl, hrung, ?_, ?_⟩, inv.refill, inv.shadow, inv.spare⟩
      · simp [credit, hidle', lazyError]
      · simp [credit, hidle', lazyError]
  · obtain ⟨hdone, hnote⟩ := doneInterrupt_uncounted hcounts
    rw [hdone, hnote]
    exact {inv with credited := fun hc => ⟨rfl, (inv.credited hc).2⟩}

theorem launchStep_books {x : Xfer} {k n : Nat} {s t : State} {g : Ledger} {env : Env}
    (cover : Cover x k n s) (inv : Books x s g) (h : launchStep env s = some t) : Books x t g := by
  cases launchStep_cases h with
  | nothing | dropped | taken | prepared | unprepared | refused | stale => exact {inv with}
  | rung child pending hl hcompleted hchild hpending =>
    have hrung := cover.base.staging (by simp [State.staging, hl, Launch.holding])
    have hcredited : g.credited = true → False := fun hc => (inv.credited hc).2.1 hrung
    exact {inv with credited := fun hc => (hcredited hc).elim}

theorem lazyRefillChunkPrepare_counts {x : Xfer} {supply : Supply} {d : Desc} {c child : Chunk}
    {plan : Plan} (hd : d.allocSz < 2 ^ 32)
    (h : lazyRefillChunkPrepare x supply d child = (c, some plan)) :
    Counts x.regionSz d.allocSz c plan.allocSz := by
  simp only [lazyRefillChunkPrepare] at h
  split at h
  · cases h
  · split at h
    · cases h
    · split at h
      · cases h
        refine Counts.fill ⟨rfl, ?_⟩
        show d.allocSz = (d.allocSz + 0) % 2 ^ 32
        rw [Nat.add_zero, Nat.mod_eq_of_lt hd]
      · cases h

/-- A table joins the descriptor in the place of the completed one. -/
theorem Balance.link {base : Nat} {d d' : Desc} {g : Ledger} {c : Chunk} (h : Balance base d g)
    (hc : Counts base d.allocSz c d'.allocSz) (hxfer : d'.xferSz = d.xferSz)
    (hchunks : d'.chunks = [c]) :
    Balance base d' {g with linked := g.linked ++ [c], credited := false} where
  allocSz := by
    rw [hc.accum, h.allocSz]
    simp only [sizes_append, sizes_cons, sizes_nil]
    omega
  xferSz := hxfer.trans h.xferSz
  sized := by
    rw [hchunks]
    exact List.forall_mem_singleton.mpr hc.sized
  le := by
    have hle := h.le
    simp only [Ledger.outstanding, hchunks, sizes_append, sizes_cons, sizes_nil, Bool.false_eq_true,
      if_false]
    omega

/-- The completed table leaves the list. -/
theorem Balance.unlink {base : Nat} {d : Desc} {g : Ledger} {c : Chunk} {rest : List Chunk}
    {r : RefillState} (h : Balance base d g) (hchunks : d.chunks = c :: rest) :
    Balance base {d with chunks := rest, lazyRefillState := r} g where
  allocSz := h.allocSz
  xferSz := h.xferSz
  sized u hu := h.sized u (by simp [hchunks, hu])
  le := by
    have hle := h.le
    have htail := sizes_tail_le rest
    simp only [Ledger.outstanding, hchunks, List.tail_cons] at hle ⊢
    split at hle
    · next hcredited =>
      simp only [hcredited, if_true]
      omega
    · next hcredited =>
      simp only [hcredited, Bool.false_eq_true, if_false]
      rw [sizes_cons] at hle
      omega

/-- A refill changes the ledger where it commits only. -/
theorem note_lazy {s : State} (env : Env) (g : Ledger)
    (h : ∀ child plan, s.lazy ≠ .commit child plan) : note s (.lazy env) g = g := by
  simp only [note, completes, links]
  cases hl : s.lazy with
  | commit child plan => exact absurd hl (h child plan)
  | _ => rfl

theorem lazyStep_books {x : Xfer} {k n : Nat} {s t : State} {g : Ledger} {env : Env}
    (cover : Cover x k n s) (inv : Books x s g) (h : lazyStep x env s = some t) :
    Books x t (note s (.lazy env) g) := by
  have hrefill := inv.refill
  cases lazyStep_cases h with
  | waited ret hl | unfilled child c hl =>
    rw [note_lazy env g (by simp [hl])]
    exact {inv with refill := trivial}
  | unclaimed ret r hl | gaveUp ret hl =>
    rw [note_lazy env g (by simp [hl])]
    exact {inv with balance := {inv.balance with}, refill := trivial}
  | claimed ret child rest hl hchunks =>
    rw [note_lazy env g (by simp [hl])]
    exact {inv with balance := inv.balance.unlink hchunks, refill := trivial}
  | filled child c plan hl hprepare =>
    rw [note_lazy env g (by simp [hl])]
    have hlt : s.desc.allocSz < 2 ^ 32 := by
      rw [inv.balance.allocSz]
      exact Nat.mod_lt _ (by decide)
    exact {inv with refill := lazyRefillChunkPrepare_counts hlt hprepare}
  | prepared child plan hl =>
    rw [note_lazy env g (by simp [hl])]
    simp only [RefillCounts, hl] at hrefill
    refine {inv with refill := ?_}
    split
    · exact hrefill
    · trivial
  | dropped child plan r hl hquit =>
    have hnote : note s (.lazy env) g = g := by
      cases plan with
      | none => simp [note, completes, links, hl]
      | some plan =>
        simp only [note, completes, links, hl]
        rw [if_pos (hquit.resolve_left (Option.some_ne_none plan))]
    rw [hnote]
    exact {inv with balance := {inv.balance with}, refill := trivial}
  | failed child hl =>
    have hnote : note s (.lazy env) g = g := by simp [note, completes, links, hl]
    rw [hnote]
    exact {inv with balance := {inv.balance with}, refill := trivial}
  | refilled child plan hl hgo =>
    have hnote : note s (.lazy env) g = {g with linked := g.linked ++ [child], credited := false} := by
      simp only [note, completes, links, hl]
      rw [if_neg hgo]
    have hinit : s.desc.lazyWorkInitialized = true := by
      by_contra hinit
      cases hl.symm.trans (cover.shadowed (Bool.eq_false_iff.mpr hinit)).lazy.1
    have place := (cover.fixed hinit).place
    simp only [RefillAt, hl] at place
    simp only [RefillCounts, hl] at hrefill
    rw [hnote]
    refine ⟨inv.balance.link hrefill rfl ?_, (by rintro ⟨⟩), trivial, inv.shadow, inv.spare⟩
    simp [ring, place.1]

/-! ### The shadow worker -/

section Worker
variable {x : Xfer} {k n : Nat} {s t : State} {g : Ledger} {env : Env}

/-- Only the place of the worker changes, and it has no chunk but what it had or what is
new and empty. -/
theorem Books.shadow_at (inv : Books x s g) (hs : s.shadow ≠ .failed) (w : Shadow)
    (hnext : ∀ u, w.next = some u → Sized x.regionSz u ∧ size u = 0) :
    Books x {s with shadow := w} g :=
  {inv with
    shadow := fun u hu _ => inv.shadow u hu hs
    spare := fun u hu => hu.elim (fun hu => inv.spare u (.inl hu)) (hnext u)}

/-- The worker has given up its table. -/
theorem Books.shadow_gone (inv : Books x s g) (next : Option Chunk) (lazyMode err : Bool)
    (hnext : ∀ u, next = some u → Sized x.regionSz u ∧ size u = 0) :
    Books x {s with
      hwErr := err, shadow := .idle,
      desc := {s.desc with
        shadowChunk := none, shadowNextChunk := next, shadowState := .idle, lazyMode := lazyMode}} g :=
  {inv with
    balance := {inv.balance with}
    credited := fun hc => ⟨(inv.credited hc).1, (inv.credited hc).2.1, (by rintro ⟨⟩), (by rintro ⟨⟩)⟩
    shadow := by rintro _ ⟨⟩
    spare := fun u hu => hu.elim (hnext u) (by rintro ⟨⟩)}

/-- The worker goes to the copy, with the chunk for the build after the next. -/
theorem consumeHandoff_books {c : Chunk} (inv : Books x s g) (hs : s.shadow ≠ .failed) :
    Books x (consumeHandoff c s) g :=
  {inv with
    balance := {inv.balance with}
    shadow := fun u hu _ => inv.shadow u hu hs
    spare := fun u hu => hu.elim (fun hu => by cases hu) fun hu => inv.spare u (.inl hu)}

theorem shadowFillChunk_counts {supply : Supply} {d d' : Desc} {c c' : Chunk}
    (hc : Counts x.regionSz 0 c d.shadowAllocSz)
    (h : shadowFillChunk x supply d c = (d', some c')) :
    Counts x.regionSz 0 c' d'.shadowAllocSz := by
  simp only [shadowFillChunk] at h
  split at h
  · cases h
  · split at h
    · cases h
      exact Counts.fill ⟨hc.sized, hc.accum⟩
    · cases h

theorem shadowFillChunk_counters {supply : Supply} {d d' : Desc} {c : Chunk} {r : Option Chunk}
    (h : shadowFillChunk x supply d c = (d', r)) :
    d'.allocSz = d.allocSz ∧ d'.xferSz = d.xferSz ∧ d'.shadowChunk = d.shadowChunk := by
  simp only [shadowFillChunk] at h
  split at h
  · cases h
    simp
  · split at h <;> cases h <;> simp

/-- The descriptor has other fields, but the same counters and tables. -/
theorem Balance.same {base : Nat} {d d' : Desc} (h : Balance base d g) (halloc : d'.allocSz = d.allocSz)
    (hxfer : d'.xferSz = d.xferSz) (hchunks : d'.chunks = d.chunks) : Balance base d' g where
  allocSz := halloc.trans h.allocSz
  xferSz := hxfer.trans h.xferSz
  sized := by rw [hchunks]; exact h.sized
  le := by rw [hchunks]; exact h.le

theorem refill_of_idle (h : s.lazy = .idle) : RefillCounts x s := by simp only [RefillCounts, h]

theorem fill_books {c : Chunk} (hlazy : s.lazy = .idle) (hchunk : s.desc.shadowChunk = some c)
    (inv : Books x s g) (hs : s.shadow = .fill c) (h : shadowStep x env s = some t) :
    Books x t g := by
  have hcounts := inv.shadow c hchunk (by simp [hs])
  have filled {d : Desc} {r u : Option Chunk} {w : Shadow} (hw : w.next = none)
      (hfill : shadowFillChunk x env.supply s.desc c = (d, r))
      (hshadow : ∀ v, u = some v → w ≠ .failed → Counts x.regionSz 0 v d.shadowAllocSz) :
      Books x {s with desc := {d with shadowChunk := u}, shadow := w} g := by
    obtain ⟨hchunks, -, -, hstate, hnext, -⟩ := shadowFillChunk_same hfill
    obtain ⟨halloc, hxfer, -⟩ := shadowFillChunk_counters hfill
    refine ⟨inv.balance.same halloc hxfer hchunks, ?_, refill_of_idle hlazy, hshadow, ?_⟩
    · simp only [hstate]
      exact inv.credited
    · simp only [hnext, hw]
      exact fun v hv => inv.spare v (.inl (hv.resolve_right (by rintro ⟨⟩)))
  simp only [shadowStep, hs] at h
  split at h
  · next d c' hfill =>
    cases h
    refine filled rfl hfill fun v hv _ => ?_
    cases hv
    exact shadowFillChunk_counts hcounts hfill
  · next d hfill =>
    cases h
    exact filled (u := d.shadowChunk) rfl hfill fun _ _ hne => absurd rfl hne

theorem turn_books {c : Chunk} {next : Option Chunk} (inv : Books x s g)
    (hs : s.shadow = .turn c next) (h : shadowStep x env s = some t) : Books x t g := by
  have hlive : s.shadow ≠ .failed := by simp [hs]
  have hspare : ∀ u, next = some u → Sized x.regionSz u ∧ size u = 0 :=
    fun u hu => inv.spare u (.inr (by simp [hs, Shadow.next, hu]))
  have given (st : ShadowState) (u : Option Chunk) (w : Shadow) (unexpected : Bool)
      (hst : g.credited = true → st ≠ .ready ∧ st ≠ .building)
      (hu : ∀ v, u = some v → Sized x.regionSz v ∧ size v = 0) (hw : w.next = none) :
      Books x {s with
        shadow := w, unexpected := unexpected,
        desc := {s.desc with shadowState := st, shadowNextChunk := u}} g :=
    {inv with
      balance := {inv.balance with}
      credited := fun hc => ⟨(inv.credited hc).1, (inv.credited hc).2.1, hst hc⟩
      shadow := fun v hv _ => inv.shadow v hv hlive
      spare := fun v hv => hu v (hv.resolve_right (by simp [hw]))}
  have kept : ∀ v, s.desc.shadowNextChunk = some v → Sized x.regionSz v ∧ size v = 0 :=
    fun v hv => inv.spare v (.inl hv)
  have idle : g.credited = true → ShadowState.idle ≠ .ready ∧ ShadowState.idle ≠ .building :=
    fun _ => ⟨(by rintro ⟨⟩), (by rintro ⟨⟩)⟩
  simp only [shadowStep, hs] at h
  cases hstate : s.desc.shadowState with
  | building =>
    simp only [hstate, Option.some.injEq] at h
    subst h
    refine given .ready next (.readStarted c) s.unexpected (fun hc => ?_) hspare rfl
    exact absurd hstate (inv.credited hc).2.2.2
  | isrPending =>
    simp only [hstate, Option.some.injEq] at h
    subst h
    exact inv.shadow_at hlive _ hspare
  | cancelled =>
    simp only [hstate, Option.some.injEq] at h
    subst h
    exact given .idle s.desc.shadowNextChunk .idle s.unexpected idle kept rfl
  | idle | ready =>
    simp only [hstate, Option.some.injEq] at h
    subst h
    exact given .idle s.desc.shadowNextChunk .idle true idle kept rfl

/-- The worker finds the table stopped and counts it in the place of the Done. -/
theorem handoff_books {c : Chunk} (hrung : s.rung ≠ []) (hstarted : s.xferStarted = false)
    (inv : Books x s g) (hs : s.shadow = .handoff c) (h : shadowStep x env s = some t) :
    Books x t (note s (.shadow env) g) := by
  have hlive : s.shadow ≠ .failed := by simp [hs]
  simp only [shadowStep, hs] at h
  split at h
  · next hready =>
    cases hchunks : s.desc.chunks with
    | nil =>
      have hnote : note s (.shadow env) g = g := by simp [note, completes, links, hs, hchunks]
      simp only [hchunks, Option.some.injEq] at h
      subst h
      rw [hnote]
      exact inv.shadow_at hlive _ (by rintro _ ⟨⟩)
    | cons old rest =>
      have hnote : note s (.shadow env) g =
          {g with completed := g.completed ++ [old], credited := true} := by
        simp only [note, completes, hs, hchunks, List.head?_cons]
        rw [if_pos hready]
        rfl
      have hfresh : g.credited = false :=
        Bool.eq_false_iff.mpr fun hc => (inv.credited hc).2.2.1 hready.2.1
      simp only [hchunks, Option.some.injEq] at h
      subst h
      rw [hnote]
      refine ⟨?_, fun _ => ⟨hstarted, hrung, (by rintro ⟨⟩), (by rintro ⟨⟩)⟩, inv.refill,
        fun u hu _ => inv.shadow u hu hlive,
        fun u hu => hu.elim (fun hu => by cases hu) fun hu => inv.spare u (.inl hu)⟩
      refine inv.balance.complete hfresh hchunks ?_ ?_ true ?_ <;> rfl
  · next hready =>
    have hnote : note s (.shadow env) g = g := by
      simp only [note, completes, links, hs]
      rw [if_neg hready]
    cases h
    rw [hnote]
    exact inv.shadow_at hlive _ (by rintro _ ⟨⟩)

/-- The built table takes the place of the completed one. -/
theorem launch_books {c : Chunk} {next : Option Chunk} (allowed : Bool) (hlazy : s.lazy = .idle)
    (hchunk : s.desc.shadowChunk = some c) (hsingle : s.desc.chunks.length ≤ 1) (inv : Books x s g)
    (hs : s.shadow = .launch c next) :
    Books x (shadowLaunch allowed c next s) (note s (.shadow env) g) := by
  have hspare : ∀ u, next = some u → Sized x.regionSz u ∧ size u = 0 :=
    fun u hu => inv.spare u (.inr (by simp [hs, Shadow.next, hu]))
  have hcounts := inv.shadow c hchunk (by simp [hs])
  simp only [shadowLaunch]
  split
  · next hquit =>
    have hnote : note s (.shadow env) g = g := by
      simp only [note, completes, links, hs]
      rw [if_pos hquit]
    rw [hnote]
    exact {inv with
      balance := {inv.balance with}
      credited := fun hc => ⟨(inv.credited hc).1, (inv.credited hc).2.1, (by rintro ⟨⟩), (by rintro ⟨⟩)⟩
      shadow := fun u hu _ => inv.shadow u hu (by simp [hs])
      spare := fun u hu => hu.elim (fun hu => inv.spare u (.inl hu)) (by rintro ⟨⟩)}
  · next hgo =>
    have hnote : note s (.shadow env) g = {g with linked := g.linked ++ [c], credited := false} := by
      simp only [note, completes, links, hs]
      rw [if_neg hgo]
    have hlist : c :: s.desc.chunks.tail = [c] := by
      rw [List.cons_eq_cons, ← List.length_eq_zero_iff, List.length_tail]
      exact ⟨rfl, by omega⟩
    have hswap : Counts x.regionSz s.desc.allocSz c (swapChunks c s.desc).allocSz := by
      refine ⟨hcounts.sized, ?_⟩
      have := hcounts.accum
      simp only [swapChunks]
      omega
    have balance : Balance x.regionSz (swapChunks c s.desc)
        {g with linked := g.linked ++ [c], credited := false} :=
      inv.balance.link hswap rfl hlist
    have kept : ∀ v, s.desc.shadowNextChunk = some v → Sized x.regionSz v ∧ size v = 0 :=
      fun v hv => inv.spare v (.inl hv)
    rw [hnote]
    split
    · exact ⟨{balance with}, (by rintro ⟨⟩), refill_of_idle hlazy, (by rintro _ ⟨⟩),
        fun u hu => hu.elim (kept u) (by rintro ⟨⟩)⟩
    · split
      · split
        · next u =>
          refine ⟨{balance with}, (by rintro ⟨⟩), refill_of_idle hlazy, fun v hv _ => ?_,
            fun v hv => hv.elim (by rintro ⟨⟩) (by rintro ⟨⟩)⟩
          cases hv
          obtain ⟨hsized, hempty⟩ := hspare u rfl
          refine ⟨hsized, ?_⟩
          show 0 = (0 + size u) % 2 ^ 32
          rw [hempty, Nat.add_zero, Nat.zero_mod]
        · exact ⟨balance, (by rintro ⟨⟩), refill_of_idle hlazy, (by rintro _ ⟨⟩),
            fun u hu => hu.elim (kept u) (by rintro ⟨⟩)⟩
      · exact ⟨{balance with}, (by rintro ⟨⟩), refill_of_idle hlazy, (by rintro _ ⟨⟩),
          fun u hu => hu.elim (kept u) (by rintro ⟨⟩)⟩

/-- The place of the worker is the hand-over or the launch of its table. -/
def Shadow.handsOver : Shadow → Bool
  | .handoff _ | .launch _ _ => true
  | _ => false

theorem note_shadow (env : Env) (g : Ledger) (h : s.shadow.handsOver = false) :
    note s (.shadow env) g = g := by
  revert h
  simp only [note, completes, links]
  cases s.shadow with
  | handoff c | launch c next => exact fun h => by cases h
  | _ => exact fun _ => rfl

/-- Where the worker hands nothing over, the ledger stays as it is. -/
theorem shadowStep_kept (hlazy : s.lazy = .idle) (place : ShadowAt x n s) (inv : Books x s g)
    (hkept : s.shadow.handsOver = false) (h : shadowStep x env s = some t) : Books x t g := by
  cases hs : s.shadow with
  | idle => simp [shadowStep, hs] at h
  | handoff c | launch c next =>
    rw [hs] at hkept
    cases hkept
  | entry =>
    have hlive : s.shadow ≠ .failed := by simp [hs]
    simp only [shadowStep, hs] at h
    split at h
    · cases h
      exact inv.shadow_at hlive _ (by rintro _ ⟨⟩)
    · split at h
      · cases h
        exact consumeHandoff_books inv hlive
      · cases h
        exact inv.shadow_at hlive _ (by rintro _ ⟨⟩)
  | fill c =>
    simp only [ShadowAt, hs] at place
    exact fill_books hlazy place.2.1.chunk inv hs h
  | turn c next => exact turn_books inv hs h
  | prealloc c =>
    simp only [shadowStep, hs, Option.some.injEq] at h
    subst h
    refine inv.shadow_at (by simp [hs]) _ fun u hu => ?_
    simp only [Shadow.next] at hu
    split at hu
    · cases hu
      exact ⟨rfl, rfl⟩
    · cases hu
  | prebuild c | readStarted c | readStatus c =>
    simp only [shadowStep, hs, Option.some.injEq] at h
    subst h
    exact inv.shadow_at (by simp [hs]) _ (by split <;> rintro _ ⟨⟩)
  | clearStarted c =>
    simp only [shadowStep, hs, Option.some.injEq] at h
    subst h
    exact {inv.shadow_at (by simp [hs]) (.handoff c) (by rintro _ ⟨⟩) with
      credited := fun hc => ⟨rfl, (inv.credited hc).2⟩}
  | recheck c =>
    have hlive : s.shadow ≠ .failed := by simp [hs]
    simp only [shadowStep, hs] at h
    split at h
    · cases h
      exact consumeHandoff_books inv hlive
    · cases h
      exact inv.shadow_at hlive _ (by rintro _ ⟨⟩)
  | precopy c next =>
    have hspare : ∀ u, next = some u → Sized x.regionSz u ∧ size u = 0 :=
      fun u hu => inv.spare u (.inr (by simp [hs, Shadow.next, hu]))
    simp only [shadowStep, hs] at h
    split at h
    · cases h
      exact inv.shadow_at (by simp [hs]) _ hspare
    · cases h
      exact inv.shadow_at (by simp [hs]) _ (by rintro _ ⟨⟩)
  | failed =>
    simp only [shadowStep, hs, Option.some.injEq] at h
    subst h
    exact inv.shadow_gone s.desc.shadowNextChunk _ _ fun u hu => inv.spare u (.inl hu)
  | precopyFailed cancelled =>
    simp only [shadowStep, hs, Option.some.injEq] at h
    subst h
    exact inv.shadow_gone none _ _ (by rintro _ ⟨⟩)
  | noChunk | queueNext =>
    simp only [shadowStep, hs, Option.some.injEq] at h
    subst h
    exact {inv.shadow_at (by simp [hs]) .idle (by rintro _ ⟨⟩) with}
  | setAborted =>
    simp only [shadowStep, hs, Option.some.injEq] at h
    subst h
    exact {inv.shadow_at (by simp [hs]) .clearLazy (by rintro _ ⟨⟩) with}
  | clearLazy =>
    simp only [shadowStep, hs, Option.some.injEq] at h
    subst h
    exact {inv.shadow_at (by simp [hs]) .idle (by rintro _ ⟨⟩) with balance := {inv.balance with}}

theorem shadowStep_books (cover : Cover x k n s) (inv : Books x s g)
    (h : shadowStep x env s = some t) : Books x t (note s (.shadow env) g) := by
  have hrun : s.shadow ≠ .idle := fun hs => by simp [shadowStep, hs] at h
  have hinit : s.desc.lazyWorkInitialized = false :=
    Bool.eq_false_iff.mpr fun hinit => hrun (cover.fixed hinit).idle.2.1
  have sh := cover.shadowed hinit
  have place := sh.place
  cases hkept : s.shadow.handsOver with
  | false =>
    rw [note_shadow env g hkept]
    exact shadowStep_kept sh.lazy.1 place inv hkept h
  | true =>
    unfold Shadow.handsOver at hkept
    split at hkept
    · next c hs =>
      simp only [ShadowAt, hs] at place
      exact handoff_books (sh.launched (.inr hrun)) place.2.2.2 inv hs h
    · next c next hs =>
      simp only [ShadowAt, hs] at place
      simp only [shadowStep, hs, Option.some.injEq] at h
      subst h
      exact launch_books env.yes sh.lazy.1 place.2.1.chunk cover.base.single inv hs
    · cases hkept

end Worker

/-! ### Runs -/

theorem step_books {x : Xfer} (p : State × Ledger) (l : Label) (q : State × Ledger)
    (inv : (∃ k n, Cover x k n p.1) ∧ Books x p.1 p.2) (h : audited x p l = some q) :
    (∃ k n, Cover x k n q.1) ∧ Books x q.1 q.2 := by
  obtain ⟨s, g⟩ := p
  obtain ⟨t, g'⟩ := q
  obtain ⟨⟨k, n, cover⟩, books⟩ := inv
  obtain ⟨ht, hg⟩ := (Machine.watched_eq_some (step x) note).mp h
  simp only at ht hg cover books ⊢
  subst hg
  refine ⟨step_cover s l t ⟨k, n, cover⟩ ht, ?_⟩
  cases l with
  | done =>
    cases ht
    exact doneInterrupt_books cover books
  | launchRun =>
    simp only [step] at ht
    split at ht
    · cases ht
      exact {books with}
    · cases ht
  | lazyRun =>
    simp only [step] at ht
    split at ht
    · cases ht
      exact {books with refill := trivial}
    · cases ht
  | shadowRun =>
    simp only [step] at ht
    split at ht
    · next hready =>
      cases ht
      exact {books.shadow_at (by simp [hready.2]) .entry (by rintro _ ⟨⟩) with}
    · cases ht
  | launch env => exact launchStep_books cover books ht
  | lazy env => exact lazyStep_books cover books ht
  | shadow env => exact shadowStep_books cover books ht

theorem opened_books {x : Xfer} {supplies : List Supply} {ok : Bool} {d : Desc} (hmax : 1 ≤ x.llMax)
    (h : deviceTransfer x supplies ok = some d) :
    (∃ k n, Cover x k n (opened d).1) ∧ Books x (opened d).1 (opened d).2 := by
  obtain ⟨n, c, hfirst, hprep, hfilled⟩ := deviceTransfer_prepared hmax h
  have opening := deviceTransfer_opening h
  have hchunks : d.chunks = [c] := by cases hprep <;> assumption
  refine ⟨⟨0, n, issue_cover hfirst hfilled hprep⟩, ?_⟩
  simp only [opened, issue_staged hfirst hfilled hchunks]
  refine ⟨opening.balance, (by rintro ⟨⟩), trivial, fun u hu _ => opening.shadow u hu, fun u hu => ?_⟩
  rcases hu with hu | hu
  · cases opening.spare.symm.trans hu
  · cases hu

theorem opened_plain {x : Xfer} {passes : List Pass} {left : Nat} {d : Desc}
    (h : build x passes left = some d) :
    Plain (opened d).1 ∧ (opened d).2.credited = false ∧
      Balance x.regionSz (opened d).1.desc (opened d).2 := by
  have opening := build_opening h
  obtain ⟨r, hr, rfl⟩ := Option.map_eq_some_iff.mp h
  simp only [opened, issue, startTransfer_desc]
  exact ⟨startTransfer_plain ⟨rfl, ⟨rfl, rfl⟩, rfl, rfl⟩, trivial, opening.balance⟩

/-- In every run of a descriptor of any kind the counters keep the balance. -/
theorem run_balance {x : Xfer} {r : Request} {d : Desc} {ls : List Label} {p : State × Ledger}
    (hmax : 1 ≤ x.llMax) (hprep : prepare x r = some d)
    (h : Machine.run (audited x) (opened d) ls = some p) : Balance x.regionSz p.1.desc p.2 := by
  have plain {passes : List Pass} {left : Nat} (hbuild : build x passes left = some d) :
      Balance x.regionSz p.1.desc p.2 :=
    (Machine.invariant (audited x) plain_step_balance (opened_plain hbuild) h).2.2
  cases r with
  | scatterGather supplies ok =>
    exact (Machine.invariant (audited x) step_books (opened_books hmax hprep) h).2.balance
  | cyclic r left =>
    simp only [prepare] at hprep
    split at hprep
    · cases hprep
    · exact plain hprep
  | interleaved r left =>
    simp only [prepare] at hprep
    split at hprep
    · cases hprep
    · exact plain hprep

/-- **The counters count the region.** In every run of a descriptor of any kind, the counters
are those of the ledger exactly as long as the region's size, counted once for each completed
table, is a multiple of 2^32, and the bytes of all tables fit into 32 bits. -/
theorem run_accounted_iff {x : Xfer} {r : Request} {d : Desc} {ls : List Label} {s : State}
    {g : Ledger} (hmax : 1 ≤ x.llMax) (hprep : prepare x r = some d)
    (h : Machine.run (audited x) (opened d) ls = some (s, g)) :
    Accounted s.desc g ↔
      g.completed.length * x.regionSz % 2 ^ 32 = 0 ∧ sizes g.linked < 2 ^ 32 :=
  (run_balance hmax hprep h).accounted_iff

/-- A channel with a region of 4096 bytes, which holds 169 bursts. -/
def smallXfer : Xfer := ⟨.read, 169, 4096, false, 0, false, [], 0, 0x100⟩

/-- A cyclic transfer of one burst more. -/
def smallRequest : Request := .cyclic ⟨0x1000, 16, 170⟩ 172

/-- The ledger and the counters of the descriptor after the labels. -/
def audit (x : Xfer) (r : Request) (ls : List Label) : Option (State × Ledger) :=
  (prepare x r).bind fun d => Machine.run (audited x) (opened d) ls

theorem launched_accounted :
    ∃ d s g, prepare smallXfer smallRequest = some d ∧
      Machine.run (audited smallXfer) (opened d) [.launchRun] = some (s, g) ∧
      sizes g.linked = 2720 ∧ Accounted s.desc g := by
  have hend : (audit smallXfer smallRequest [.launchRun]).map
      (fun p => (p.2.completed.length * smallXfer.regionSz % 2 ^ 32, sizes p.2.linked)) =
      some (0, 2720) := by
    decide +kernel
  obtain ⟨⟨s, g⟩, hs, hsums⟩ := Option.map_eq_some_iff.mp hend
  obtain ⟨d, hprep, hrun⟩ := Option.bind_eq_some_iff.mp hs
  simp only [Prod.mk.injEq] at hsums
  refine ⟨d, s, g, hprep, hrun, hsums.2, ?_⟩
  refine (run_accounted_iff (by decide) hprep hrun).mpr ⟨hsums.1, ?_⟩
  rw [hsums.2]
  decide

/-- The first Done of 2720 bytes makes `xfer_sz` 6800: 2704 bytes of the first table and the
4096 of the region. -/
theorem region_counted :
    ¬ ∀ (x : Xfer) (r : Request) (d : Desc) (ls : List Label) (s : State) (g : Ledger),
      1 ≤ x.llMax → prepare x r = some d →
      Machine.run (audited x) (opened d) ls = some (s, g) → Accounted s.desc g := by
  intro hall
  have hend : (audit smallXfer smallRequest
      (.launchRun :: List.replicate 3 (.launch good) ++ [.done])).map
      (fun p => (p.1.completed, p.1.desc.allocSz, p.1.desc.xferSz)) = some (false, 2720, 6800) := by
    decide +kernel
  obtain ⟨⟨s, g⟩, hs, hcounters⟩ := Option.map_eq_some_iff.mp hend
  obtain ⟨d, hprep, hrun⟩ := Option.bind_eq_some_iff.mp hs
  simp only [Prod.mk.injEq] at hcounters
  have hle := (hall _ _ d _ s g (by decide) hprep hrun).le
  omega

end DxNpuDriver.Edma.Transfer
