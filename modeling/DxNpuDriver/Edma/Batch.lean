import DxNpuDriver.Edma.Fill
import DxNpuDriver.Edma.Memory

/-! Filling a table from the burst pool (`dw_edma_fill_sg_bursts` with `dw-edma-mem.c`).

`Fill` says what a fill does to the table and takes what the allocator gives for granted.
Here the bursts have a place: a call takes a batch from the free list of the pool, links
what it needs of it, goes on with single allocations when the batch is used up, and gives
the rest of the batch back. Without their places its bursts are those of `Fill`
(`fillSgBursts_plain`), and whatever the batch had that is not in the table is on the free
list again.

The counters have their widths: `*alloc_accum` has 32 bits, unlike the bytes of a transfer,
and so has the number that is returned, as an `int`. `exact_iff` says for which calls that
makes no difference. -/
namespace DxNpuDriver.Edma.Batch
open Extent
open Fill (Dir SgEntry Cursor canMergeSgBurst u64Max bytes sgBytes)
open Memory (pushAll)

/-- `struct dw_edma_burst`, where it stands, beside its content. -/
abbrev Node := Memory.Burst

/-- `struct dw_edma_chunk`, with the anchor that every chunk is given before it is filled. -/
structure Chunk where
  bursts : List (Node × Fill.Burst)
  burstsAlloc : Nat
  llRegionSz : Nat
  cb : Bool

/-- The chunk as `Fill` has it. -/
def Chunk.plain (c : Chunk) : Fill.Chunk :=
  ⟨true, c.bursts.map Prod.snd, c.burstsAlloc, c.llRegionSz, c.cb⟩

/-- What there is: the free list of the pool, the last burst on top, and what the single
allocations get beyond it: bursts that other channels have given back meanwhile, and
dynamic ones. -/
structure Supply where
  size : Nat
  pool : List Nat
  singles : List Node
  fits : pool.length ≤ size

/-- `dw_edma_alloc_burst` of a chunk with an anchor. -/
def allocBurst (pool : List Nat) (singles : List Node) : Option (Node × List Nat × List Node) :=
  match pool with
  | i :: pool => some (.pool i, pool, singles)
  | [] =>
    match singles with
    | b :: singles => some (b, [], singles)
    | [] => none

/-- `dw_edma_last_data_burst`. -/
def lastDataBurst (c : Chunk) : Option (Node × Fill.Burst) := c.bursts.getLast?

/-- `dw_edma_extend_sg_burst`. -/
def extendSgBurst (c : Chunk) (last : Node × Fill.Burst) (len : Nat) : Chunk :=
  {c with
    bursts := c.bursts.dropLast ++ [(last.1, {last.2 with sz := last.2.sz + len})]
    llRegionSz := c.llRegionSz + len}

/-- `dw_edma_init_sg_burst`. -/
def initSgBurst (dir : Dir) (c : Chunk) (node : Node) (hostAddr devAddr len : Nat) : Chunk :=
  let burst : Fill.Burst :=
    match dir with
    | .write => ⟨devAddr, hostAddr, len⟩
    | .read => ⟨hostAddr, devAddr, len⟩
  {c with
    bursts := c.bursts ++ [(node, burst)]
    burstsAlloc := c.burstsAlloc + 1
    llRegionSz := c.llRegionSz + len}

/-- The variables of the loop; `batch` is what is left of it. -/
structure Progress where
  chunk : Chunk
  batch : List Nat
  pool : List Nat
  singles : List Node
  remaining : Nat
  addr : Nat
  allocAccum : Nat
  consumed : Nat
  failed : Bool

/-- An entry goes to the last burst, to one of the batch, or to a single one. -/
def placeEntry (dir : Dir) (e : SgEntry) (p : Progress) : Option Progress :=
  match (lastDataBurst p.chunk).filter fun last => canMergeSgBurst dir last.2 e.addr p.addr e.len with
  | some last => some {p with chunk := extendSgBurst p.chunk last e.len}
  | none =>
    match p.batch with
    | i :: batch =>
      some {p with chunk := initSgBurst dir p.chunk (.pool i) e.addr p.addr e.len, batch := batch}
    | [] =>
      (allocBurst p.pool p.singles).map fun (node, pool, singles) =>
        {p with
          chunk := initSgBurst dir p.chunk node e.addr p.addr e.len
          pool := pool
          singles := singles}

/-- The `while` of `dw_edma_fill_sg_bursts`. -/
def fillLoop (dir : Dir) (need : Nat) : List SgEntry → Progress → Progress × List SgEntry
  | [], p => (p, [])
  | e :: sg, p =>
    if p.consumed < need ∧ 0 < p.remaining then
      if u64Max - e.len < p.addr ∨ u64Max - e.len < e.addr then ({p with failed := true}, e :: sg)
      else
        match placeEntry dir e p with
        | none => (p, e :: sg)
        | some p =>
          fillLoop dir need sg
            {p with
              addr := p.addr + e.len
              remaining := p.remaining - 1
              allocAccum := (p.allocAccum + e.len) % 2 ^ 32
              consumed := p.consumed + 1}
    else (p, e :: sg)

/-- What a call leaves, with the batch it took and the free list of the pool. -/
structure Filled where
  ret : Int
  chunk : Chunk
  cur : Cursor
  allocAccum : Nat
  batch : List Nat
  pool : List Nat

def EINVAL : Int := 22

/-- `dw_edma_fill_sg_bursts`; what it returns is a `u32` as an `int`. -/
def fillSgBursts (dir : Dir) (llMax batchMax : Nat) (supply : Supply) (c : Chunk) (cur : Cursor)
    (allocAccum : UInt32) : Filled :=
  if cur.sg = [] ∨ cur.remaining = 0 ∨ llMax ≤ c.burstsAlloc ∨ batchMax = 0 then
    ⟨0, c, cur, allocAccum.toNat, [], supply.pool⟩
  else
    let need := min cur.remaining (min (llMax - c.burstsAlloc) batchMax)
    -- `dw_edma_alloc_burst_batch`
    let batch := supply.pool.take need
    let (p, sg) := fillLoop dir need cur.sg
      ⟨c, batch, supply.pool.drop need, supply.singles, cur.remaining, cur.addr, allocAccum.toNat,
        0, false⟩
    let pool := pushAll supply.size (p.batch.map .pool) p.pool
    if p.failed then ⟨-EINVAL, p.chunk, cur, p.allocAccum, batch, pool⟩
    else if sg = [] ∧ p.remaining ≠ 0 then ⟨-EINVAL, p.chunk, cur, p.allocAccum, batch, pool⟩
    else
      ⟨(p.consumed : Int).bmod (2 ^ 32), p.chunk, ⟨sg, p.remaining, p.addr⟩, p.allocAccum, batch,
        pool⟩

theorem fillSgBursts_nothing {dir : Dir} {llMax batchMax : Nat} {supply : Supply} {c : Chunk}
    {cur : Cursor} {allocAccum : UInt32}
    (h : cur.sg = [] ∨ cur.remaining = 0 ∨ llMax ≤ c.burstsAlloc ∨ batchMax = 0) :
    fillSgBursts dir llMax batchMax supply c cur allocAccum =
      ⟨0, c, cur, allocAccum.toNat, [], supply.pool⟩ :=
  if_pos h

/-- The check for wrapping does not wrap. -/
theorem len_le (e : SgEntry) : e.len ≤ u64Max :=
  le_trans (Nat.le_of_lt_succ e.dmaLen.toNat_lt) (by decide)

/-! ### Without the places -/

section Plain
variable {dir : Dir} {allocated : Nat}

/-- What the allocator has for a call that asks for `need` bursts. -/
def Supply.plain (s : Supply) (need : Nat) : Fill.Supply :=
  ⟨true, s.pool.length, (s.pool.length - need) + s.singles.length⟩

def Progress.plain (p : Progress) (allocated : Nat) : Fill.Progress :=
  ⟨p.chunk.plain, p.remaining, p.addr, p.allocAccum, allocated - p.batch.length,
    p.pool.length + p.singles.length, p.consumed, p.failed⟩

theorem lastDataBurst_plain (c : Chunk) :
    Fill.lastDataBurst c.plain = (lastDataBurst c).map Prod.snd := by
  simp only [Fill.lastDataBurst, Chunk.plain, if_true, lastDataBurst, List.getLast?_map]

theorem extendSgBurst_plain (c : Chunk) (last : Node × Fill.Burst) (len : Nat) :
    (extendSgBurst c last len).plain = Fill.extendSgBurst c.plain last.2 len := by
  simp only [extendSgBurst, Chunk.plain, Fill.extendSgBurst, List.map_append, List.map_dropLast,
    List.map_cons, List.map_nil]

theorem initSgBurst_plain (c : Chunk) (node : Node) (hostAddr devAddr len : Nat) :
    (initSgBurst dir c node hostAddr devAddr len).plain =
      Fill.initSgBurst dir c.plain hostAddr devAddr len := by
  cases dir <;>
    simp only [initSgBurst, Chunk.plain, Fill.initSgBurst, List.map_append, List.map_cons,
      List.map_nil]

theorem placeEntry_plain {e : SgEntry} {p : Progress} (hle : p.batch.length ≤ allocated) :
    Fill.placeEntry dir allocated e (p.plain allocated) =
      (placeEntry dir e p).map fun q =>
        (q.chunk.plain, allocated - q.batch.length, q.pool.length + q.singles.length) := by
  have hlast : (Fill.lastDataBurst (p.plain allocated).chunk).filter
        (canMergeSgBurst dir · e.addr (p.plain allocated).addr e.len) =
      ((lastDataBurst p.chunk).filter fun last =>
        canMergeSgBurst dir last.2 e.addr p.addr e.len).map Prod.snd := by
    rw [Progress.plain, lastDataBurst_plain]
    cases lastDataBurst p.chunk with
    | none => rfl
    | some last =>
      simp only [Option.map_some, Option.filter_some]
      split <;> rfl
  unfold Fill.placeEntry placeEntry
  rw [hlast]
  cases (lastDataBurst p.chunk).filter fun last => canMergeSgBurst dir last.2 e.addr p.addr e.len with
  | some last =>
    simp only [Option.map_some, Progress.plain, extendSgBurst_plain]
  | none =>
    simp only [Option.map_none]
    cases hbatch : p.batch with
    | cons i batch =>
      rw [hbatch, List.length_cons] at hle
      have hused : (p.plain allocated).used < allocated := by
        simp only [Progress.plain, hbatch, List.length_cons]
        omega
      have hleft : allocated - (batch.length + 1) + 1 = allocated - batch.length := by omega
      rw [if_pos hused]
      simp only [Option.map_some, Progress.plain, hbatch, List.length_cons, initSgBurst_plain, hleft]
    | nil =>
      have hused : ¬(p.plain allocated).used < allocated := by
        simp only [Progress.plain, hbatch, List.length_nil]
        omega
      rw [if_neg hused]
      cases hpool : p.pool with
      | cons i pool =>
        have hsingle : 0 < (p.plain allocated).single := by
          simp only [Progress.plain, hpool, List.length_cons]
          omega
        have hleft : pool.length + 1 + p.singles.length - 1 = pool.length + p.singles.length := by omega
        rw [if_pos hsingle]
        simp only [allocBurst, Option.map_some, Progress.plain, hpool, hbatch, List.length_cons,
          initSgBurst_plain, hleft]
      | nil =>
        cases hsingles : p.singles with
        | cons b singles =>
          have hsingle : 0 < (p.plain allocated).single := by
            simp only [Progress.plain, hpool, hsingles, List.length_cons]
            omega
          rw [if_pos hsingle]
          simp only [allocBurst, Option.map_some, Progress.plain, hpool, hbatch, hsingles,
            List.length_nil, List.length_cons, initSgBurst_plain, Nat.zero_add, Nat.add_sub_cancel]
        | nil =>
          have hsingle : ¬0 < (p.plain allocated).single := by
            simp only [Progress.plain, hpool, hsingles, List.length_nil]
            omega
          rw [if_neg hsingle]
          rfl

/-- What placing an entry leaves as it is. -/
theorem placeEntry_same {e : SgEntry} {p q : Progress} (h : placeEntry dir e p = some q) :
    q.remaining = p.remaining ∧ q.addr = p.addr ∧ q.allocAccum = p.allocAccum ∧
      q.consumed = p.consumed ∧ q.failed = p.failed ∧ q.batch.length ≤ p.batch.length := by
  unfold placeEntry at h
  split at h
  · obtain rfl := Option.some.inj h
    exact ⟨rfl, rfl, rfl, rfl, rfl, Nat.le_refl _⟩
  · split at h
    case h_1 i batch hbatch =>
      obtain rfl := Option.some.inj h
      exact ⟨rfl, rfl, rfl, rfl, rfl, by simp only [hbatch, List.length_cons]; omega⟩
    case h_2 hbatch =>
      obtain ⟨r, -, rfl⟩ := Option.map_eq_some_iff.mp h
      exact ⟨rfl, rfl, rfl, rfl, rfl, Nat.le_refl _⟩

theorem fillLoop_plain {need : Nat} {sg : List SgEntry} {p : Progress}
    (hle : p.batch.length ≤ allocated) :
    Fill.fillLoop dir need allocated sg (p.plain allocated) =
      ((fillLoop dir need sg p).1.plain allocated, (fillLoop dir need sg p).2) := by
  induction sg generalizing p with
  | nil => rfl
  | cons e sg ih =>
    unfold Fill.fillLoop fillLoop
    by_cases hgo : p.consumed < need ∧ 0 < p.remaining
    · rw [if_pos (show (p.plain allocated).consumed < need ∧ 0 < (p.plain allocated).remaining from hgo),
        if_pos hgo]
      by_cases hrange : u64Max - e.len < p.addr ∨ u64Max - e.len < e.addr
      · rw [if_pos (show u64Max - e.len < (p.plain allocated).addr ∨ _ from hrange), if_pos hrange]
        rfl
      · rw [if_neg (show ¬(u64Max - e.len < (p.plain allocated).addr ∨ _) from hrange), if_neg hrange,
          placeEntry_plain hle]
        cases hplace : placeEntry dir e p with
        | none => rfl
        | some q =>
          obtain ⟨hremaining, haddr, haccum, hconsumed, hfailed, hbatch⟩ := placeEntry_same hplace
          simp only [Option.map_some]
          rw [← ih (by simpa using hbatch.trans hle)]
          simp only [Progress.plain, hremaining, haddr, haccum, hconsumed, hfailed]
    · rw [if_neg (show ¬((p.plain allocated).consumed < need ∧ 0 < (p.plain allocated).remaining) from hgo),
        if_neg hgo]

end Plain

/-! ### How far a fill goes -/

/-- The burst that an entry gets when it cannot be merged. -/
def entryBurst (dir : Dir) (e : SgEntry) (addr : Nat) : Fill.Burst :=
  match dir with
  | .write => ⟨addr, e.addr, e.len⟩
  | .read => ⟨e.addr, addr, e.len⟩

/-- How many bursts the entries need beyond the last one. -/
def newBursts (dir : Dir) : Option Fill.Burst → Nat → List SgEntry → Nat
  | _, _, [] => 0
  | last, addr, e :: sg =>
    match last.filter (canMergeSgBurst dir · e.addr addr e.len) with
    | some last => newBursts dir (some {last with sz := last.sz + e.len}) (addr + e.len) sg
    | none => newBursts dir (some (entryBurst dir e addr)) (addr + e.len) sg + 1

/-- No entry passes the end of the address space, on either side. -/
def Within : Nat → List SgEntry → Prop
  | _, [] => True
  | addr, e :: sg => addr + e.len ≤ u64Max ∧ e.addr + e.len ≤ u64Max ∧ Within (addr + e.len) sg

/-- The first `k` entries are there, and can be placed with `left` bursts. -/
structure Fits (dir : Dir) (need left : Nat) (last : Option Fill.Burst) (addr : Nat)
    (sg : List SgEntry) (k : Nat) : Prop where
  need : k ≤ need
  entries : k ≤ sg.length
  within : Within addr (sg.take k)
  bursts : newBursts dir last addr (sg.take k) ≤ left

section Fits
variable {dir : Dir} {need left allocated : Nat} {last : Option Fill.Burst} {addr k : Nat}
  {e : SgEntry} {sg : List SgEntry}

theorem fits_zero : Fits dir need left last addr sg 0 where
  need := Nat.zero_le _
  entries := Nat.zero_le _
  within := by rw [List.take_zero, Within]; trivial
  bursts := by rw [List.take_zero, newBursts]; exact Nat.zero_le _

theorem fits_cons_succ : Fits dir need left last addr (e :: sg) (k + 1) ↔
    0 < need ∧ addr + e.len ≤ u64Max ∧ e.addr + e.len ≤ u64Max ∧
      match last.filter (canMergeSgBurst dir · e.addr addr e.len) with
      | some last =>
        Fits dir (need - 1) left (some {last with sz := last.sz + e.len}) (addr + e.len) sg k
      | none =>
        0 < left ∧
          Fits dir (need - 1) (left - 1) (some (entryBurst dir e addr)) (addr + e.len) sg k := by
  constructor
  · rintro ⟨hneed, hentries, hwithin, hbursts⟩
    rw [List.length_cons] at hentries
    rw [List.take_succ_cons, Within] at hwithin
    rw [List.take_succ_cons, newBursts] at hbursts
    refine ⟨by omega, hwithin.1, hwithin.2.1, ?_⟩
    split at hbursts
    · exact ⟨by omega, by omega, hwithin.2.2, hbursts⟩
    · exact ⟨by omega, by omega, by omega, hwithin.2.2, by omega⟩
  · rintro ⟨hneed, hdev, hhost, h⟩
    have hwithin : ∀ rest, Within (addr + e.len) rest → Within addr (e :: rest) :=
      fun rest hrest => ⟨hdev, hhost, hrest⟩
    split at h
    · next hmerge =>
      refine ⟨by have := h.need; omega, by simpa using h.entries, ?_, ?_⟩
      · exact hwithin _ h.within
      · rw [List.take_succ_cons, newBursts, hmerge]
        exact h.bursts
    · next hmerge =>
      refine ⟨by have := h.2.need; omega, by simpa using h.2.entries, ?_, ?_⟩
      · exact hwithin _ h.2.within
      · rw [List.take_succ_cons, newBursts, hmerge]
        have := h.2.bursts
        dsimp only
        omega

/-- The loop stopped behind `n` entries, which are all that fit. -/
structure Reached (dir : Dir) (need allocated : Nat) (sg : List SgEntry) (p : Fill.Progress)
    (r : Fill.Progress) (n : Nat) : Prop where
  consumed : r.consumed = p.consumed + n
  greatest : ∀ k, Fits dir (need - p.consumed) (p.left allocated) (Fill.lastDataBurst p.chunk) p.addr
    sg k ↔ k ≤ n
  failed : r.failed = true ↔
    n < need - p.consumed ∧ n < sg.length ∧ ¬Within p.addr (sg.take (n + 1))
  allocAccum : p.allocAccum < 2 ^ 32 →
    r.allocAccum = (p.allocAccum + total SgEntry.len (sg.take n)) % 2 ^ 32
  llRegionSz : r.chunk.llRegionSz = p.chunk.llRegionSz + total SgEntry.len (sg.take n)
  burstsAlloc : r.chunk.burstsAlloc ≤ p.chunk.burstsAlloc + n

/-- The next entry does not fit. -/
theorem Reached.stop {p r : Fill.Progress} (hchunk : r.chunk = p.chunk)
    (hconsumed : r.consumed = p.consumed) (haccum : r.allocAccum = p.allocAccum)
    (hnone : ∀ k, ¬Fits dir (need - p.consumed) (p.left allocated) (Fill.lastDataBurst p.chunk) p.addr
      sg (k + 1))
    (hfailed : r.failed = true ↔
      0 < need - p.consumed ∧ 0 < sg.length ∧ ¬Within p.addr (sg.take 1)) :
    Reached dir need allocated sg p r 0 where
  consumed := hconsumed
  greatest k := by
    cases k with
    | zero => exact ⟨fun _ => Nat.le_refl 0, fun _ => fits_zero⟩
    | succ k => exact ⟨fun h => absurd h (hnone k), fun h => absurd h (Nat.not_succ_le_zero k)⟩
  failed := hfailed
  allocAccum h := by rw [haccum, List.take_zero, total_nil, Nat.add_zero, Nat.mod_eq_of_lt h]
  llRegionSz := by rw [hchunk, List.take_zero, total_nil, Nat.add_zero]
  burstsAlloc := by rw [hchunk, Nat.add_zero]

/-- The progress after an entry has been placed. -/
def placed (p : Fill.Progress) (e : SgEntry) (chunk : Fill.Chunk) (used single : Nat) :
    Fill.Progress :=
  {p with
    chunk := chunk
    used := used
    single := single
    addr := p.addr + e.len
    remaining := p.remaining - 1
    allocAccum := (p.allocAccum + e.len) % 2 ^ 32
    consumed := p.consumed + 1}

theorem Reached.cons {p r : Fill.Progress} {chunk : Fill.Chunk} {used single n : Nat}
    (h : Reached dir need allocated sg (placed p e chunk used single) r n)
    (hneed : p.consumed < need) (hdev : p.addr + e.len ≤ u64Max) (hhost : e.addr + e.len ≤ u64Max)
    (hsz : chunk.llRegionSz = p.chunk.llRegionSz + e.len)
    (halloc : chunk.burstsAlloc ≤ p.chunk.burstsAlloc + 1)
    (hfits : ∀ k,
      Fits dir (need - p.consumed) (p.left allocated) (Fill.lastDataBurst p.chunk) p.addr (e :: sg)
        (k + 1) ↔
      Fits dir (need - p.consumed - 1) ((allocated - used) + single) (Fill.lastDataBurst chunk)
        (p.addr + e.len) sg k) :
    Reached dir need allocated (e :: sg) p r (n + 1) where
  consumed := by
    have hrest := h.consumed
    rw [placed] at hrest
    dsimp only at hrest
    omega
  greatest k := by
    cases k with
    | zero => exact ⟨fun _ => Nat.zero_le _, fun _ => fits_zero⟩
    | succ k => rw [hfits, Nat.sub_sub, Nat.succ_le_succ_iff]; exact h.greatest k
  failed := by
    rw [h.failed, List.take_succ_cons, Within, List.length_cons]
    simp only [placed]
    constructor
    · rintro ⟨hn, hlen, hout⟩
      exact ⟨by omega, by omega, fun hin => hout hin.2.2⟩
    · rintro ⟨hn, hlen, hout⟩
      exact ⟨by omega, by omega, fun hin => hout ⟨hdev, hhost, hin⟩⟩
  allocAccum _ := by
    have htail := h.allocAccum (Nat.mod_lt _ (by decide))
    rw [placed] at htail
    rw [htail, List.take_succ_cons, total_cons, Nat.mod_add_mod, Nat.add_assoc]
  llRegionSz := by
    rw [h.llRegionSz, List.take_succ_cons, total_cons, placed, hsz, Nat.add_assoc]
  burstsAlloc := by
    have hrest := h.burstsAlloc
    rw [placed] at hrest
    dsimp only at hrest
    omega

theorem placeEntry_merged {p : Fill.Progress} {last : Fill.Burst}
    (h : (Fill.lastDataBurst p.chunk).filter (canMergeSgBurst dir · e.addr p.addr e.len) = some last) :
    Fill.placeEntry dir allocated e p =
      some (Fill.extendSgBurst p.chunk last e.len, p.used, p.single) := by
  simp only [Fill.placeEntry, h]

theorem placeEntry_new {p : Fill.Progress}
    (h : (Fill.lastDataBurst p.chunk).filter (canMergeSgBurst dir · e.addr p.addr e.len) = none)
    (hleft : 0 < p.left allocated) :
    ∃ used single, Fill.placeEntry dir allocated e p =
        some (Fill.initSgBurst dir p.chunk e.addr p.addr e.len, used, single) ∧
      (allocated - used) + single = p.left allocated - 1 := by
  simp only [Fill.Progress.left] at hleft ⊢
  simp only [Fill.placeEntry, h]
  by_cases hused : p.used < allocated
  · exact ⟨_, _, if_pos hused, by omega⟩
  · refine ⟨p.used, p.single - 1, ?_, by omega⟩
    rw [if_neg hused, if_pos (by omega)]

theorem placeEntry_none {p : Fill.Progress}
    (h : (Fill.lastDataBurst p.chunk).filter (canMergeSgBurst dir · e.addr p.addr e.len) = none)
    (hleft : ¬0 < p.left allocated) : Fill.placeEntry dir allocated e p = none := by
  simp only [Fill.Progress.left] at hleft
  simp only [Fill.placeEntry, h]
  rw [if_neg (by omega), if_neg (by omega)]

theorem lastDataBurst_extend {c : Fill.Chunk} (hhead : c.head = true) (last : Fill.Burst) (len : Nat) :
    Fill.lastDataBurst (Fill.extendSgBurst c last len) = some {last with sz := last.sz + len} := by
  simp only [Fill.lastDataBurst, Fill.extendSgBurst, hhead, if_true, List.getLast?_concat]

theorem lastDataBurst_init {c : Fill.Chunk} (hhead : c.head = true) (e : SgEntry) (addr : Nat) :
    Fill.lastDataBurst (Fill.initSgBurst dir c e.addr addr e.len) = some (entryBurst dir e addr) := by
  cases dir <;>
    simp only [Fill.lastDataBurst, Fill.initSgBurst, hhead, if_true, List.getLast?_concat, entryBurst]

/-- **The loop takes as many entries as fit.** -/
theorem fillLoop_reached {p : Fill.Progress} (hhead : p.chunk.head = true) (hok : p.failed = false)
    (hneed : need ≤ p.consumed + p.remaining) :
    ∃ n, Reached dir need allocated sg p (Fill.fillLoop dir need allocated sg p).1 n := by
  induction sg generalizing p with
  | nil =>
    refine ⟨0, .stop rfl rfl rfl (fun k h => absurd h.entries (Nat.not_succ_le_zero k)) ?_⟩
    simp only [Fill.fillLoop, hok, List.length_nil, Nat.lt_irrefl, false_and, and_false,
      Bool.false_eq_true]
  | cons e sg ih =>
    unfold Fill.fillLoop
    by_cases hgo : p.consumed < need ∧ 0 < p.remaining
    case neg =>
      rw [if_neg hgo]
      refine ⟨0, .stop rfl rfl rfl (fun k h => absurd h.need (by omega)) ?_⟩
      rw [hok]
      simp only [Bool.false_eq_true, false_iff]
      omega
    rw [if_pos hgo]
    by_cases hout : u64Max - e.len < p.addr ∨ u64Max - e.len < e.addr
    · rw [if_pos hout]
      refine ⟨0, .stop rfl rfl rfl (fun k h => ?_) ?_⟩
      · obtain ⟨-, hdev, hhost, -⟩ := fits_cons_succ.mp h
        omega
      · simp only [List.take_succ_cons, Within, true_iff, List.length_cons]
        exact ⟨by omega, by omega, by omega⟩
    · rw [if_neg hout]
      have hlen := len_le e
      have hdev : p.addr + e.len ≤ u64Max := by omega
      have hhost : e.addr + e.len ≤ u64Max := by omega
      cases hmerge : (Fill.lastDataBurst p.chunk).filter (canMergeSgBurst dir · e.addr p.addr e.len) with
      | some last =>
        rw [placeEntry_merged hmerge]
        obtain ⟨n, hn⟩ := @ih (placed p e (Fill.extendSgBurst p.chunk last e.len) p.used p.single) hhead
          hok (by rw [placed]; dsimp only; omega)
        refine ⟨n + 1, .cons hn hgo.1 hdev hhost rfl (Nat.le_succ _) (fun k => ?_)⟩
        rw [fits_cons_succ, hmerge, lastDataBurst_extend hhead]
        exact ⟨fun h => h.2.2.2, fun h => ⟨by omega, hdev, hhost, h⟩⟩
      | none =>
        by_cases hleft : 0 < p.left allocated
        · obtain ⟨used, single, hplace, hrest⟩ := placeEntry_new hmerge hleft
          rw [hplace]
          obtain ⟨n, hn⟩ := @ih (placed p e (Fill.initSgBurst dir p.chunk e.addr p.addr e.len) used single)
            hhead hok (by rw [placed]; dsimp only; omega)
          refine ⟨n + 1, .cons hn hgo.1 hdev hhost rfl (Nat.le_refl _) (fun k => ?_)⟩
          rw [fits_cons_succ, hmerge, lastDataBurst_init hhead, hrest]
          exact ⟨fun h => h.2.2.2.2, fun h => ⟨by omega, hdev, hhost, hleft, h⟩⟩
        · rw [placeEntry_none hmerge hleft]
          refine ⟨0, .stop rfl rfl rfl (fun k h => ?_) ?_⟩
          · rw [fits_cons_succ, hmerge] at h
            exact hleft h.2.2.2.1
          · rw [hok]
            simp only [Bool.false_eq_true, false_iff]
            exact fun h => h.2.2 ⟨hdev, hhost, by rw [List.take_zero, Within]; trivial⟩

end Fits

/-! ### Where the batch goes -/

/-- The bursts of the list, without their content. -/
def Chunk.nodes (c : Chunk) : List Node := c.bursts.map Prod.fst

/-- The free list takes back whatever it gave. -/
theorem pushAll_pool {size : Nat} {is pool : List Nat} (h : pool.length + is.length ≤ size) :
    pushAll size (is.map .pool) pool = is.reverse ++ pool := by
  induction is generalizing pool with
  | nil => rfl
  | cons i is ih =>
    rw [List.length_cons] at h
    have hpush : Memory.push size pool (.pool i) = i :: pool := if_pos (by omega)
    calc pushAll size ((i :: is).map .pool) pool
        = pushAll size (is.map .pool) (i :: pool) := by
          simp only [pushAll, List.map_cons, List.foldl_cons, hpush]
      _ = is.reverse ++ i :: pool := ih (by rw [List.length_cons]; omega)
      _ = (i :: is).reverse ++ pool := by
          rw [List.reverse_cons, List.append_assoc, List.singleton_append]

/-- The bursts `used` of the batch are in the list now. -/
structure Handed (p q : Progress) (used : List Nat) : Prop where
  batch : p.batch = used ++ q.batch
  nodes : List.Sublist (p.chunk.nodes ++ used.map Memory.Burst.pool) q.chunk.nodes
  pool : q.pool.length ≤ p.pool.length

theorem Handed.refl (p : Progress) : Handed p p [] where
  batch := rfl
  nodes := by rw [List.map_nil, List.append_nil]
  pool := Nat.le_refl _

theorem Handed.trans {p q r : Progress} {used used' : List Nat} (h : Handed p q used)
    (h' : Handed q r used') : Handed p r (used ++ used') where
  batch := by rw [h.batch, h'.batch, List.append_assoc]
  nodes := by
    rw [List.map_append, ← List.append_assoc]
    exact (h.nodes.append_right _).trans h'.nodes
  pool := h'.pool.trans h.pool

section Handed
variable {dir : Dir} {e : SgEntry} {p q : Progress}

theorem nodes_extendSgBurst {c : Chunk} {last : Node × Fill.Burst} (h : lastDataBurst c = some last)
    (len : Nat) : (extendSgBurst c last len).nodes = c.nodes := by
  have hsplit : c.bursts = c.bursts.dropLast ++ [last] := (List.dropLast_append_getLast? last h).symm
  calc (extendSgBurst c last len).nodes
      = (c.bursts.dropLast ++ [last]).map Prod.fst := by
        simp only [Chunk.nodes, extendSgBurst, List.map_append, List.map_cons, List.map_nil]
    _ = c.nodes := by rw [← hsplit, Chunk.nodes]

theorem nodes_initSgBurst (c : Chunk) (node : Node) (hostAddr devAddr len : Nat) :
    (initSgBurst dir c node hostAddr devAddr len).nodes = c.nodes ++ [node] := by
  simp only [Chunk.nodes, initSgBurst, List.map_append, List.map_cons, List.map_nil]

theorem allocBurst_pool {pool pool' : List Nat} {singles singles' : List Node} {node : Node}
    (h : allocBurst pool singles = some (node, pool', singles')) : pool'.length ≤ pool.length := by
  cases pool with
  | cons i pool =>
    cases h
    exact Nat.le_succ _
  | nil =>
    cases singles with
    | cons b singles =>
      cases h
      exact Nat.le_refl _
    | nil => cases h

theorem placeEntry_handed (h : placeEntry dir e p = some q) : ∃ used, Handed p q used := by
  unfold placeEntry at h
  split at h
  · next last hlast =>
    obtain rfl := Option.some.inj h
    have hnodes := nodes_extendSgBurst (Option.filter_eq_some_iff.mp hlast).1 e.len
    refine ⟨[], rfl, ?_, Nat.le_refl _⟩
    rw [hnodes, List.map_nil, List.append_nil]
  · split at h
    case h_1 i batch hbatch =>
      obtain rfl := Option.some.inj h
      refine ⟨[i], hbatch, ?_, Nat.le_refl _⟩
      rw [nodes_initSgBurst]
      exact List.Sublist.refl _
    case h_2 hbatch =>
      obtain ⟨⟨node, pool, singles⟩, halloc, rfl⟩ := Option.map_eq_some_iff.mp h
      refine ⟨[], rfl, ?_, ?_⟩
      · rw [nodes_initSgBurst, List.map_nil, List.append_nil]
        exact List.sublist_append_left _ _
      · exact allocBurst_pool halloc

theorem fillLoop_handed {need : Nat} {sg : List SgEntry} :
    ∃ used, Handed p (fillLoop dir need sg p).1 used := by
  induction sg generalizing p with
  | nil => exact ⟨[], .refl p⟩
  | cons e sg ih =>
    unfold fillLoop
    split
    · split
      · exact ⟨[], (Handed.refl p).batch, (Handed.refl p).nodes, Nat.le_refl _⟩
      · cases hplace : placeEntry dir e p with
        | none => exact ⟨[], .refl p⟩
        | some q =>
          obtain ⟨used, hused⟩ := placeEntry_handed hplace
          obtain ⟨used', hused'⟩ := @ih
            {q with
              addr := q.addr + e.len
              remaining := q.remaining - 1
              allocAccum := (q.allocAccum + e.len) % 2 ^ 32
              consumed := q.consumed + 1}
          exact ⟨used ++ used', hused.trans ⟨hused'.batch, hused'.nodes, hused'.pool⟩⟩
    · exact ⟨[], .refl p⟩

end Handed

/-! ### What a call does -/

/-- `need`: how many entries a call takes at most. -/
def need (llMax batchMax : Nat) (c : Chunk) (cur : Cursor) : Nat :=
  min cur.remaining (min (llMax - c.burstsAlloc) batchMax)

/-- The call can take the first `k` entries. -/
def CanTake (dir : Dir) (llMax batchMax : Nat) (supply : Supply) (c : Chunk) (cur : Cursor) (k : Nat) :
    Prop :=
  Fits dir (need llMax batchMax c cur) (supply.pool.length + supply.singles.length)
    (Fill.lastDataBurst c.plain) cur.addr cur.sg k

/-- The entry whose turn it is passes the end of the address space, or the list ends before
`remaining` does. -/
def Rejected (dir : Dir) (llMax batchMax : Nat) (supply : Supply) (c : Chunk) (cur : Cursor) : Prop :=
  ∃ k, CanTake dir llMax batchMax supply c cur k ∧
    (k < need llMax batchMax c cur ∧ k < cur.sg.length ∧ ¬Within cur.addr (cur.sg.take (k + 1)) ∨
      cur.sg ≠ [] ∧ k = cur.sg.length ∧ k < cur.remaining)

/-- What a call has done when it has taken `n` entries. -/
structure Done (dir : Dir) (llMax : Nat) (c : Chunk) (cur : Cursor) (allocAccum : UInt32) (f : Filled)
    (n : Nat) : Prop where
  entries : n ≤ cur.sg.length
  mapping : bytes dir f.chunk.plain.bursts = bytes dir c.plain.bursts ++ sgBytes cur.addr (cur.sg.take n)
  cursor : f.cur = ⟨cur.sg.drop n, cur.remaining - n, cur.addr + total SgEntry.len (cur.sg.take n)⟩
  remaining : n ≤ cur.remaining
  accum : f.allocAccum = allocAccum.toNat + total SgEntry.len (cur.sg.take n)
  region : f.chunk.llRegionSz = c.llRegionSz + total SgEntry.len (cur.sg.take n)
  counted : f.chunk.burstsAlloc = f.chunk.bursts.length
  bounded : f.chunk.burstsAlloc ≤ llMax
  returned : ∃ used rest, f.batch = used ++ rest ∧
    List.Sublist (c.nodes ++ used.map Memory.Burst.pool) f.chunk.nodes ∧ rest.reverse <+: f.pool

/-- A call that returns a number has taken so many entries, and one that returns an error has
left the cursor where it was. -/
def Exact (dir : Dir) (llMax : Nat) (c : Chunk) (cur : Cursor) (allocAccum : UInt32) (f : Filled) :
    Prop :=
  (0 ≤ f.ret → Done dir llMax c cur allocAccum f f.ret.toNat) ∧ (f.ret < 0 → f.cur = cur)

section Call
variable {dir : Dir} {llMax batchMax : Nat} {supply : Supply} {c : Chunk} {cur : Cursor}
  {allocAccum : UInt32} {n : Nat}

/-- What a call that takes `n` entries does, the widths of the counters apart. -/
structure Takes (dir : Dir) (llMax batchMax : Nat) (supply : Supply) (c : Chunk) (cur : Cursor)
    (allocAccum : UInt32) (f : Filled) (n : Nat) : Prop where
  greatest : ∀ k, CanTake dir llMax batchMax supply c cur k ↔ k ≤ n
  rejected : Rejected dir llMax batchMax supply c cur → f.ret < 0 ∧ f.cur = cur
  ret : ¬Rejected dir llMax batchMax supply c cur → f.ret = (n : Int).bmod (2 ^ 32)
  accum : f.allocAccum = (allocAccum.toNat + total SgEntry.len (cur.sg.take n)) % 2 ^ 32
  done : ¬Rejected dir llMax batchMax supply c cur →
    f.allocAccum = allocAccum.toNat + total SgEntry.len (cur.sg.take n) →
      Done dir llMax c cur allocAccum f n
  cursor : ¬Rejected dir llMax batchMax supply c cur → f.cur.sg = cur.sg.drop n

/-- A call that has nothing to do takes nothing. -/
theorem takes_nothing (hc : c.burstsAlloc = c.bursts.length) (hle : c.burstsAlloc ≤ llMax)
    (hnothing : cur.sg = [] ∨ cur.remaining = 0 ∨ llMax ≤ c.burstsAlloc ∨ batchMax = 0) :
    Takes dir llMax batchMax supply c cur allocAccum
      (fillSgBursts dir llMax batchMax supply c cur allocAccum) 0 := by
  have hnone : ∀ k, CanTake dir llMax batchMax supply c cur k → k = 0 := by
    intro k hk
    have hneed := hk.need
    have hentries := hk.entries
    rcases hnothing with h | h
    · rw [h, List.length_nil] at hentries
      exact Nat.le_zero.mp hentries
    · rw [need] at hneed
      omega
  have haccept : ¬Rejected dir llMax batchMax supply c cur := by
    rintro ⟨k, hk, ⟨hneed, hlen, -⟩ | ⟨hne, hlen, hrest⟩⟩
    · rcases hnothing with h | h
      · rw [h, List.length_nil] at hlen
        exact Nat.not_lt_zero k hlen
      · rw [need] at hneed
        omega
    · have hpos := List.length_pos_iff.mpr hne
      have := hnone k hk
      omega
  rw [fillSgBursts_nothing hnothing]
  constructor
  case greatest =>
    intro k
    exact ⟨fun hk => (hnone k hk).le, fun hk => by obtain rfl := Nat.le_zero.mp hk; exact fits_zero⟩
  case rejected => exact fun h => absurd h haccept
  case ret => exact fun _ => rfl
  case accum => exact (Nat.mod_eq_of_lt allocAccum.toNat_lt).symm
  case done =>
    intro _ _
    refine ⟨Nat.zero_le _, ?_, rfl, Nat.zero_le _, rfl, rfl, hc, hle, [], [], rfl, ?_, ?_⟩
    · rw [List.take_zero, sgBytes, layout, List.append_nil]
    · rw [List.map_nil, List.append_nil]
    · exact List.nil_prefix
  case cursor => exact fun _ => rfl

/-- The variables before the loop. -/
def start (llMax batchMax : Nat) (supply : Supply) (c : Chunk) (cur : Cursor) (allocAccum : UInt32) :
    Progress :=
  ⟨c, supply.pool.take (need llMax batchMax c cur), supply.pool.drop (need llMax batchMax c cur),
    supply.singles, cur.remaining, cur.addr, allocAccum.toNat, 0, false⟩

theorem start_left : ((start llMax batchMax supply c cur allocAccum).plain
      (start llMax batchMax supply c cur allocAccum).batch.length).left
        (start llMax batchMax supply c cur allocAccum).batch.length =
    supply.pool.length + supply.singles.length := by
  have hsplit := congrArg List.length (List.take_append_drop (need llMax batchMax c cur) supply.pool)
  rw [List.length_append] at hsplit
  simp only [Progress.plain, start, Fill.Progress.left]
  omega

theorem fillSgBursts_some
    (hsome : ¬(cur.sg = [] ∨ cur.remaining = 0 ∨ llMax ≤ c.burstsAlloc ∨ batchMax = 0)) :
    fillSgBursts dir llMax batchMax supply c cur allocAccum =
      let r := fillLoop dir (need llMax batchMax c cur) cur.sg
        (start llMax batchMax supply c cur allocAccum)
      let pool := pushAll supply.size (r.1.batch.map .pool) r.1.pool
      let batch := supply.pool.take (need llMax batchMax c cur)
      if r.1.failed then ⟨-EINVAL, r.1.chunk, cur, r.1.allocAccum, batch, pool⟩
      else if r.2 = [] ∧ r.1.remaining ≠ 0 then ⟨-EINVAL, r.1.chunk, cur, r.1.allocAccum, batch, pool⟩
      else
        ⟨(r.1.consumed : Int).bmod (2 ^ 32), r.1.chunk, ⟨r.2, r.1.remaining, r.1.addr⟩, r.1.allocAccum,
          batch, pool⟩ :=
  if_neg hsome

/-- The entry behind those that the call can take tells whether it is rejected. -/
theorem rejected_iff (hgreatest : ∀ k, CanTake dir llMax batchMax supply c cur k ↔ k ≤ n) :
    Rejected dir llMax batchMax supply c cur ↔
      n < need llMax batchMax c cur ∧ n < cur.sg.length ∧ ¬Within cur.addr (cur.sg.take (n + 1)) ∨
        cur.sg ≠ [] ∧ n = cur.sg.length ∧ n < cur.remaining := by
  constructor
  · rintro ⟨k, hk, ⟨hneed, hlen, hout⟩ | ⟨hne, rfl, hrest⟩⟩
    · have hkn := (hgreatest k).mp hk
      rcases Nat.lt_or_eq_of_le hkn with hlt | rfl
      · exact absurd ((hgreatest (k + 1)).mpr hlt).within hout
      · exact .inl ⟨hneed, hlen, hout⟩
    · have hle := (hgreatest _).mp hk
      have hge := ((hgreatest n).mpr (Nat.le_refl n)).entries
      obtain rfl : n = cur.sg.length := by omega
      exact .inr ⟨hne, rfl, hrest⟩
  · intro h
    exact ⟨n, (hgreatest n).mpr (Nat.le_refl n), h⟩

/-- What the loop of a call has done when it has taken `n` entries. -/
structure Looped (dir : Dir) (llMax batchMax : Nat) (supply : Supply) (c : Chunk) (cur : Cursor)
    (allocAccum : UInt32) (p : Progress) (sg : List SgEntry) (n : Nat) : Prop where
  greatest : ∀ k, CanTake dir llMax batchMax supply c cur k ↔ k ≤ n
  failed : p.failed = true ↔
    n < need llMax batchMax c cur ∧ n < cur.sg.length ∧ ¬Within cur.addr (cur.sg.take (n + 1))
  le_remaining : n ≤ cur.remaining
  rest : sg = cur.sg.drop n
  consumed : p.consumed = n
  remaining : p.remaining = cur.remaining - n
  addr : p.addr = cur.addr + total SgEntry.len (cur.sg.take n)
  accum : p.allocAccum = (allocAccum.toNat + total SgEntry.len (cur.sg.take n)) % 2 ^ 32
  region : p.chunk.llRegionSz = c.llRegionSz + total SgEntry.len (cur.sg.take n)
  alloc : p.chunk.burstsAlloc ≤ c.burstsAlloc + n
  counted : p.chunk.burstsAlloc = p.chunk.bursts.length
  mapping : bytes dir p.chunk.plain.bursts = bytes dir c.plain.bursts ++ sgBytes cur.addr (cur.sg.take n)
  handed : ∃ used, Handed (start llMax batchMax supply c cur allocAccum) p used

/-- What `Fill` says of the loop, and where its bursts come from. -/
theorem fillLoop_looped (hc : c.burstsAlloc = c.bursts.length) :
    let r := fillLoop dir (need llMax batchMax c cur) cur.sg
      (start llMax batchMax supply c cur allocAccum)
    ∃ n, Looped dir llMax batchMax supply c cur allocAccum r.1 r.2 n := by
  intro r
  have hplain := @fillLoop_plain dir (start llMax batchMax supply c cur allocAccum).batch.length
    (need llMax batchMax c cur) cur.sg (start llMax batchMax supply c cur allocAccum) (Nat.le_refl _)
  obtain ⟨n, hn⟩ := @fillLoop_reached dir (need llMax batchMax c cur)
    (start llMax batchMax supply c cur allocAccum).batch.length cur.sg
    ((start llMax batchMax supply c cur allocAccum).plain _) rfl rfl
    (by simp only [start, Progress.plain, need]; omega)
  obtain ⟨m, hm⟩ := Fill.fillLoop_advanced dir (need llMax batchMax c cur)
    (start llMax batchMax supply c cur allocAccum).batch.length cur.sg
    ((start llMax batchMax supply c cur allocAccum).plain _)
  obtain rfl : m = n := Nat.add_left_cancel (hm.consumed.symm.trans hn.consumed)
  have hgreatest := hn.greatest
  rw [start_left] at hgreatest
  rw [hplain] at hn hm
  have hcounted := (hm.counted (hc.trans (List.length_map _).symm)).1
  refine ⟨m, ?_⟩
  constructor
  case greatest => exact hgreatest
  case failed => exact hn.failed
  case le_remaining => exact hm.le_remaining
  case rest => exact hm.rest
  case consumed => exact hn.consumed.trans (Nat.zero_add m)
  case remaining => exact hm.remaining
  case addr => exact hm.addr
  case accum => exact hn.allocAccum allocAccum.toNat_lt
  case region => exact hn.llRegionSz
  case alloc => exact hn.burstsAlloc
  case counted => exact hcounted.trans (List.length_map _)
  case mapping => exact hm.bytes
  case handed => exact fillLoop_handed

section Looped
variable {p : Progress} {sg : List SgEntry}

theorem Looped.rejected_iff (h : Looped dir llMax batchMax supply c cur allocAccum p sg n)
    (hne : cur.sg ≠ []) :
    Rejected dir llMax batchMax supply c cur ↔ p.failed = true ∨ sg = [] ∧ p.remaining ≠ 0 := by
  have hle := ((h.greatest n).mpr (Nat.le_refl n)).entries
  have hended : sg = [] ∧ p.remaining ≠ 0 ↔ cur.sg ≠ [] ∧ n = cur.sg.length ∧ n < cur.remaining := by
    rw [h.rest, List.drop_eq_nil_iff, h.remaining]
    exact ⟨fun h => ⟨hne, by omega, by omega⟩, fun h => ⟨by omega, by omega⟩⟩
  rw [Batch.rejected_iff h.greatest, h.failed, hended]

/-- What is left of the batch is on top of the free list. -/
theorem Looped.returned (h : Looped dir llMax batchMax supply c cur allocAccum p sg n) :
    ∃ used rest, supply.pool.take (need llMax batchMax c cur) = used ++ rest ∧
      List.Sublist (c.nodes ++ used.map Memory.Burst.pool) p.chunk.nodes ∧
      rest.reverse <+: pushAll supply.size (p.batch.map .pool) p.pool := by
  obtain ⟨used, hused⟩ := h.handed
  have hsplit : supply.pool.take (need llMax batchMax c cur) = used ++ p.batch := hused.batch
  have hpool : p.pool.length ≤ (supply.pool.drop (need llMax batchMax c cur)).length := hused.pool
  refine ⟨used, p.batch, hsplit, hused.nodes, ?_⟩
  rw [pushAll_pool]
  · exact List.prefix_append _ _
  · have hlen := congrArg List.length hsplit
    have hfits := supply.fits
    rw [List.length_take, List.length_append] at hlen
    rw [List.length_drop] at hpool
    omega

end Looped

/-- A call that has something to do takes what the loop takes. -/
theorem takes_some (hc : c.burstsAlloc = c.bursts.length)
    (hsome : ¬(cur.sg = [] ∨ cur.remaining = 0 ∨ llMax ≤ c.burstsAlloc ∨ batchMax = 0)) :
    ∃ n, Takes dir llMax batchMax supply c cur allocAccum
      (fillSgBursts dir llMax batchMax supply c cur allocAccum) n := by
  have hcall := @fillSgBursts_some dir llMax batchMax supply c cur allocAccum hsome
  obtain ⟨n, hn⟩ := @fillLoop_looped dir llMax batchMax supply c cur allocAccum hc
  generalize fillLoop dir (need llMax batchMax c cur) cur.sg
    (start llMax batchMax supply c cur allocAccum) = r at hcall hn
  have hrejected := hn.rejected_iff fun hnil => hsome (.inl hnil)
  dsimp only at hcall
  by_cases hreject : Rejected dir llMax batchMax supply c cur
  case pos =>
    have herror : fillSgBursts dir llMax batchMax supply c cur allocAccum =
        ⟨-EINVAL, r.1.chunk, cur, r.1.allocAccum, supply.pool.take (need llMax batchMax c cur),
          pushAll supply.size (r.1.batch.map .pool) r.1.pool⟩ := by
      rw [hcall]
      by_cases hok : r.1.failed = true
      · rw [if_pos hok]
      · rw [if_neg hok, if_pos ((hrejected.mp hreject).resolve_left hok)]
    rw [herror]
    exact ⟨n, hn.greatest, fun _ => ⟨(by decide : -EINVAL < 0), rfl⟩, fun h => absurd hreject h, hn.accum,
      fun h => absurd hreject h, fun h => absurd hreject h⟩
  case neg =>
    obtain ⟨hok, hgo⟩ := not_or.mp (hrejected.not.mp hreject)
    rw [if_neg hok, if_neg hgo, hn.consumed] at hcall
    rw [hcall]
    refine ⟨n, hn.greatest, fun h => absurd h hreject, ?_, hn.accum, ?_, fun _ => hn.rest⟩
    case refine_1 =>
      intro _
      dsimp only
    case refine_2 =>
      intro _ hexact
      have hneed := (hn.greatest n).mpr (Nat.le_refl n)
      have halloc := hn.alloc
      constructor
      case entries => exact hneed.entries
      case mapping => exact hn.mapping
      case cursor => rw [hn.rest, hn.remaining, hn.addr]
      case remaining => exact hn.le_remaining
      case accum => exact hexact
      case region => exact hn.region
      case counted => exact hn.counted
      case bounded =>
        have hle := hneed.need
        rw [need] at hle
        dsimp only
        omega
      case returned => exact hn.returned

theorem takes (allocAccum : UInt32) (hc : c.burstsAlloc = c.bursts.length)
    (hle : c.burstsAlloc ≤ llMax) :
    ∃ n, Takes dir llMax batchMax supply c cur allocAccum
      (fillSgBursts dir llMax batchMax supply c cur allocAccum) n := by
  by_cases hnothing : cur.sg = [] ∨ cur.remaining = 0 ∨ llMax ≤ c.burstsAlloc ∨ batchMax = 0
  · exact ⟨0, takes_nothing hc hle hnothing⟩
  · exact takes_some hc hnothing

/-- The number of entries is what the cursor shows of a call that is not rejected. -/
theorem Takes.unique {f : Filled} {m : Nat}
    (h : Takes dir llMax batchMax supply c cur allocAccum f n)
    (hreject : ¬Rejected dir llMax batchMax supply c cur) (hm : m ≤ cur.sg.length)
    (hcur : f.cur.sg = cur.sg.drop m) : n = m := by
  have hn := ((h.greatest n).mpr (Nat.le_refl n)).entries
  have hlen := congrArg List.length ((h.cursor hreject).symm.trans hcur)
  rw [List.length_drop, List.length_drop] at hlen
  omega

theorem Takes.of_exact {f : Filled} (h : Takes dir llMax batchMax supply c cur allocAccum f n)
    (hreject : ¬Rejected dir llMax batchMax supply c cur) (hexact : Exact dir llMax c cur allocAccum f) :
    n < 2 ^ 31 ∧ allocAccum.toNat + total SgEntry.len (cur.sg.take n) < 2 ^ 32 := by
  by_cases hret : 0 ≤ f.ret
  · have hdone := hexact.1 hret
    have hn := h.unique hreject hdone.entries (by rw [hdone.cursor])
    have hbound : f.ret < 2 ^ 31 := by
      rw [h.ret hreject]
      exact Int.bmod_lt (by decide)
    refine ⟨by omega, ?_⟩
    have haccum := hdone.accum
    rw [← hn, h.accum] at haccum
    rw [← haccum]
    exact Nat.mod_lt _ (by decide)
  · obtain rfl := h.unique hreject (Nat.zero_le _) (by rw [hexact.2 (by omega), List.drop_zero])
    refine ⟨by decide, ?_⟩
    rw [List.take_zero, total_nil, Nat.add_zero]
    exact allocAccum.toNat_lt

theorem Takes.exact {f : Filled} (h : Takes dir llMax batchMax supply c cur allocAccum f n)
    (hbound : Rejected dir llMax batchMax supply c cur ∨
      n < 2 ^ 31 ∧ allocAccum.toNat + total SgEntry.len (cur.sg.take n) < 2 ^ 32) :
    Exact dir llMax c cur allocAccum f := by
  by_cases hreject : Rejected dir llMax batchMax supply c cur
  · obtain ⟨hret, hcur⟩ := h.rejected hreject
    exact ⟨fun hpos => by omega, fun _ => hcur⟩
  · obtain ⟨hn, haccum⟩ := hbound.resolve_left hreject
    have hret : f.ret = n := by
      rw [h.ret hreject]
      exact Int.bmod_eq_of_le (by omega) (by omega)
    have hdone := h.done hreject (by rw [h.accum, Nat.mod_eq_of_lt haccum])
    rw [Exact, hret, Int.toNat_natCast]
    exact ⟨fun _ => hdone, fun hneg => by omega⟩

theorem total_take_le {sg : List SgEntry} {k : Nat} (h : k ≤ n) :
    total SgEntry.len (sg.take k) ≤ total SgEntry.len (sg.take n) := by
  obtain ⟨d, rfl⟩ := Nat.exists_eq_add_of_le h
  rw [List.take_add, total_append]
  exact Nat.le_add_right _ _

/-- A table with more bursts than `ll_max` stays as it is. -/
theorem bounded_of_exact
    (h : Exact dir llMax c cur allocAccum
      (fillSgBursts dir llMax batchMax supply c cur allocAccum)) : c.burstsAlloc ≤ llMax := by
  by_contra hle
  rw [fillSgBursts_nothing (.inr (.inr (.inl (by omega))))] at h
  exact hle (h.1 (Int.le_refl 0)).bounded

end Call

/-- **A fill is exact.** The bursts of the table stay within `ll_max`, and a call that is not
rejected takes fewer than 2^31 entries, with which `*alloc_accum` stays below 2^32: just
then the call does what it returns. -/
theorem exact_iff {dir : Dir} {llMax batchMax : Nat} {supply : Supply} {c : Chunk} {cur : Cursor}
    {allocAccum : UInt32} (hc : c.burstsAlloc = c.bursts.length) :
    Exact dir llMax c cur allocAccum (fillSgBursts dir llMax batchMax supply c cur allocAccum) ↔
      c.burstsAlloc ≤ llMax ∧
        (Rejected dir llMax batchMax supply c cur ∨
          ∀ k, CanTake dir llMax batchMax supply c cur k →
            k < 2 ^ 31 ∧ allocAccum.toNat + total SgEntry.len (cur.sg.take k) < 2 ^ 32) := by
  constructor
  · intro h
    have hle := bounded_of_exact h
    obtain ⟨n, hn⟩ := takes allocAccum hc hle
    refine ⟨hle, or_iff_not_imp_left.mpr fun hreject k hk => ?_⟩
    have hkn := (hn.greatest k).mp hk
    obtain ⟨hlt, hsum⟩ := hn.of_exact hreject h
    exact ⟨by omega, (Nat.add_le_add_left (total_take_le hkn) _).trans_lt hsum⟩
  · rintro ⟨hle, h⟩
    obtain ⟨n, hn⟩ := takes allocAccum hc hle
    exact hn.exact (h.imp_right fun hall => hall n ((hn.greatest n).mpr (Nat.le_refl n)))

/-- A page that does not touch the burst before it. -/
theorem page_exact :
    Exact .read 2 ⟨[(.pool 0, ⟨0x10000, 0, 4096⟩)], 1, 4096, false⟩
      ⟨[⟨0x20000, 4096⟩, ⟨0x21000, 4096⟩], 2, 4096⟩ 4096
      (fillSgBursts .read 2 2 ⟨2, [1], [], by decide⟩ ⟨[(.pool 0, ⟨0x10000, 0, 4096⟩)], 1, 4096, false⟩
        ⟨[⟨0x20000, 4096⟩, ⟨0x21000, 4096⟩], 2, 4096⟩ 4096) := by
  refine (exact_iff rfl).mpr ⟨by decide, .inr fun k hk => ?_⟩
  have hneed : k ≤ 1 := hk.need
  obtain rfl | rfl : k = 0 ∨ k = 1 := by omega
  · decide
  · decide

/-- Behind tables of 0xfffff000 bytes a further page takes the count to zero. -/
theorem wrapped :
    ¬Exact .read 1 ⟨[], 0, 0, false⟩ ⟨[⟨0x10000, 4096⟩], 1, 0⟩ 0xfffff000
      (fillSgBursts .read 1 1 ⟨1, [0], [], by decide⟩ ⟨[], 0, 0, false⟩ ⟨[⟨0x10000, 4096⟩], 1, 0⟩
        0xfffff000) := by
  intro h
  have haccum := (h.1 (by decide)).accum
  revert haccum
  decide

end DxNpuDriver.Edma.Batch
