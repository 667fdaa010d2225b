import DxNpuDriver.Kernel
import DxNpuDriver.Lib.Extent
import Mathlib.Data.List.Basic
import Mathlib.Tactic.Common

/-! From scatter-gather entries to bursts (`dw_edma_fill_sg_bursts`).

A chunk is one descriptor table: a list of bursts, each a contiguous piece of host and
device memory. Filling walks the scatter-gather list, extends the last burst where the
entry touches it on both sides and else takes a new one, from the batch that the pool
gave at the start or by a single allocation. What the pool has is an argument.

`fillSgBursts_ok` says what a successful call does: for some number of entries, the
cursor moves over exactly these, and the table grows by exactly their bytes. -/
namespace DxNpuDriver.Edma.Fill
open Extent

/-- `enum dw_edma_dir`. -/
inductive Dir where
  | write | read
  deriving DecidableEq

/-- `sg_dma_address` and `sg_dma_len` of an entry. -/
structure SgEntry where
  dmaAddress : UInt64
  dmaLen : UInt32
  deriving DecidableEq

def SgEntry.addr (e : SgEntry) : Nat := e.dmaAddress.toNat

def SgEntry.len (e : SgEntry) : Nat := e.dmaLen.toNat

/-- `struct dw_edma_burst`. -/
structure Burst where
  sar : Nat
  dar : Nat
  sz : Nat
  deriving DecidableEq

/-- `struct dw_edma_chunk`. `head` tells whether `chunk->burst`, the anchor of the list,
is there; `bursts` is the list; `llRegionSz` is `ll_region.sz`. -/
structure Chunk where
  head : Bool
  bursts : List Burst
  burstsAlloc : Nat
  llRegionSz : Nat
  cb : Bool
  deriving DecidableEq

/-- `*sgp`, `*remainingp` and `*addrp`. The scatterlist is what follows the pointer; the
null pointer is the empty list. -/
structure Cursor where
  sg : List SgEntry
  remaining : Nat
  addr : Nat
  deriving DecidableEq

/-- What the burst allocator has for one table: the anchor, how many bursts for the
batch, and how many single allocations succeed before the first that does not. -/
structure Supply where
  head : Bool
  batch : Nat
  single : Nat
  deriving DecidableEq

def u32Max : Nat := 2 ^ 32 - 1
def u64Max : Nat := 2 ^ 64 - 1

/-! ### Bursts -/

/-- `dw_edma_last_data_burst`. -/
def lastDataBurst (c : Chunk) : Option Burst := if c.head then c.bursts.getLast? else none

def Burst.host (dir : Dir) (b : Burst) : Nat :=
  match dir with
  | .write => b.dar
  | .read => b.sar

def Burst.dev (dir : Dir) (b : Burst) : Nat :=
  match dir with
  | .write => b.sar
  | .read => b.dar

/-- `dw_edma_can_merge_sg_burst`. -/
def canMergeSgBurst (dir : Dir) (last : Burst) (hostAddr devAddr len : Nat) : Bool :=
  len ≠ 0 ∧ len ≤ u32Max - last.sz ∧
  last.sar ≤ u64Max - (last.sz + len) ∧ last.dar ≤ u64Max - (last.sz + len) ∧
  last.host dir + last.sz = hostAddr ∧ last.dev dir + last.sz = devAddr

/-- `dw_edma_extend_sg_burst` of the last burst. -/
def extendSgBurst (c : Chunk) (last : Burst) (len : Nat) : Chunk :=
  {c with bursts := c.bursts.dropLast ++ [{last with sz := last.sz + len}],
          llRegionSz := c.llRegionSz + len}

/-- `dw_edma_init_sg_burst`. The burst joins the list here, or has joined it in
`dw_edma_alloc_burst`. -/
def initSgBurst (dir : Dir) (c : Chunk) (hostAddr devAddr len : Nat) : Chunk :=
  let burst : Burst :=
    match dir with
    | .write => ⟨devAddr, hostAddr, len⟩
    | .read => ⟨hostAddr, devAddr, len⟩
  {c with bursts := c.bursts ++ [burst], burstsAlloc := c.burstsAlloc + 1,
          llRegionSz := c.llRegionSz + len}

/-- `dw_edma_alloc_burst` of a chunk that has no burst: the anchor. -/
def allocHead (c : Chunk) : Chunk := {c with head := true, burstsAlloc := 0}

/-! ### The loop -/

/-- The variables of the loop; `failed` is `ret == -EINVAL`. -/
structure Progress where
  chunk : Chunk
  remaining : Nat
  addr : Nat
  allocAccum : Nat
  used : Nat
  single : Nat
  consumed : Nat
  failed : Bool

/-- Where an entry's burst comes from: the chunk with it, and the allocations left. -/
def placeEntry (dir : Dir) (allocated : Nat) (e : SgEntry) (p : Progress) :
    Option (Chunk × Nat × Nat) :=
  match (lastDataBurst p.chunk).filter (canMergeSgBurst dir · e.addr p.addr e.len) with
  | some last => some (extendSgBurst p.chunk last e.len, p.used, p.single)
  | none =>
    let filled := initSgBurst dir p.chunk e.addr p.addr e.len
    if p.used < allocated then some (filled, p.used + 1, p.single)
    else if 0 < p.single then some (filled, p.used, p.single - 1)
    else none

/-- The `while` of `dw_edma_fill_sg_bursts`, with the list where it stops. -/
def fillLoop (dir : Dir) (need allocated : Nat) : List SgEntry → Progress → Progress × List SgEntry
  | [], p => (p, [])
  | e :: sg, p =>
    if p.consumed < need ∧ 0 < p.remaining then
      if u64Max - e.len < p.addr ∨ u64Max - e.len < e.addr then ({p with failed := true}, e :: sg)
      else
        match placeEntry dir allocated e p with
        | none => (p, e :: sg)
        | some (chunk, used, single) =>
          fillLoop dir need allocated sg
            {p with chunk := chunk, used := used, single := single,
                    addr := p.addr + e.len, remaining := p.remaining - 1,
                    allocAccum := (p.allocAccum + e.len) % 2 ^ 32, consumed := p.consumed + 1}
    else (p, e :: sg)

/-- What a call leaves: its result, the chunk, the cursor and `*alloc_accum`. -/
structure Filled where
  ret : Except Errno Nat
  chunk : Chunk
  cur : Cursor
  allocAccum : Nat

/-- `dw_edma_fill_sg_bursts`. -/
def fillSgBursts (dir : Dir) (llMax batchMax : Nat) (supply : Supply) (c : Chunk) (cur : Cursor)
    (allocAccum : Nat) : Filled :=
  if cur.sg = [] ∨ cur.remaining = 0 ∨ llMax ≤ c.burstsAlloc ∨ batchMax = 0 then
    ⟨.ok 0, c, cur, allocAccum⟩
  else
    let need := min cur.remaining (min (llMax - c.burstsAlloc) batchMax)
    let allocated := min need supply.batch
    let r := fillLoop dir need allocated cur.sg
      ⟨c, cur.remaining, cur.addr, allocAccum, 0, supply.single, 0, false⟩
    if r.1.failed then ⟨.error .EINVAL, r.1.chunk, cur, r.1.allocAccum⟩
    else if r.2 = [] ∧ r.1.remaining ≠ 0 then ⟨.error .EINVAL, r.1.chunk, cur, r.1.allocAccum⟩
    else ⟨.ok r.1.consumed, r.1.chunk, ⟨r.2, r.1.remaining, r.1.addr⟩, r.1.allocAccum⟩

/-! ### What a table copies -/

/-- Host and device address of every byte the bursts move. -/
def bytes (dir : Dir) (bursts : List Burst) : List (Nat × Nat) :=
  bursts.flatMap fun b => span (b.host dir) (b.dev dir) b.sz

@[simp] theorem bytes_nil (dir : Dir) : bytes dir [] = [] := rfl

@[simp] theorem bytes_append (dir : Dir) (as bs : List Burst) :
    bytes dir (as ++ bs) = bytes dir as ++ bytes dir bs := List.flatMap_append

@[simp] theorem bytes_singleton (dir : Dir) (b : Burst) :
    bytes dir [b] = span (b.host dir) (b.dev dir) b.sz := by
  simp only [bytes, List.flatMap_singleton]

/-- The entries at consecutive device addresses. -/
def sgBytes (addr : Nat) (sg : List SgEntry) : List (Nat × Nat) :=
  layout SgEntry.addr SgEntry.len addr sg

theorem bytes_initSgBurst (dir : Dir) (c : Chunk) (host dev len : Nat) :
    bytes dir (initSgBurst dir c host dev len).bursts = bytes dir c.bursts ++ span host dev len := by
  cases dir <;> simp only [initSgBurst, bytes_append, bytes_singleton, Burst.host, Burst.dev]

/-- A burst that can be merged with an entry touches it on both sides. -/
theorem touches_of_canMerge {dir : Dir} {last : Burst} {host dev len : Nat}
    (h : canMergeSgBurst dir last host dev len = true) :
    last.host dir + last.sz = host ∧ last.dev dir + last.sz = dev := by
  simp only [canMergeSgBurst, decide_eq_true_eq] at h
  exact h.2.2.2.2

theorem bytes_extendSgBurst {dir : Dir} {c : Chunk} {last : Burst} {host dev len : Nat}
    (hlast : lastDataBurst c = some last) (h : canMergeSgBurst dir last host dev len = true) :
    bytes dir (extendSgBurst c last len).bursts = bytes dir c.bursts ++ span host dev len := by
  have hget : c.bursts.getLast? = some last := by
    simp only [lastDataBurst] at hlast
    split at hlast
    · exact hlast
    · cases hlast
  have hsplit : c.bursts = c.bursts.dropLast ++ [last] :=
    (List.dropLast_append_getLast? last hget).symm
  obtain ⟨hhost, hdev⟩ := touches_of_canMerge h
  have hext : bytes dir [{last with sz := last.sz + len}] = bytes dir [last] ++ span host dev len := by
    rw [bytes_singleton, bytes_singleton, ← hhost, ← hdev]
    cases dir <;> exact span_add _ _ _ _
  calc bytes dir (extendSgBurst c last len).bursts
      = bytes dir c.bursts.dropLast ++ (bytes dir [last] ++ span host dev len) := by
        simp only [extendSgBurst, bytes_append, hext]
    _ = bytes dir (c.bursts.dropLast ++ [last]) ++ span host dev len := by
        rw [bytes_append, List.append_assoc]
    _ = bytes dir c.bursts ++ span host dev len := by rw [← hsplit]

/-- However an entry is placed, the table grows by its bytes. -/
theorem placeEntry_bytes {dir : Dir} {allocated : Nat} {e : SgEntry} {p : Progress}
    {r : Chunk × Nat × Nat} (h : placeEntry dir allocated e p = some r) :
    bytes dir r.1.bursts = bytes dir p.chunk.bursts ++ span e.addr p.addr e.len := by
  simp only [placeEntry] at h
  split at h
  · rename_i last hlast
    obtain ⟨hlast, hmerge⟩ := Option.filter_eq_some_iff.mp hlast
    cases h
    exact bytes_extendSgBurst hlast hmerge
  · split at h
    · cases h
      exact bytes_initSgBurst ..
    · split at h
      · cases h
        exact bytes_initSgBurst ..
      · cases h

theorem placeEntry_head {dir : Dir} {allocated : Nat} {e : SgEntry} {p : Progress}
    {r : Chunk × Nat × Nat} (h : placeEntry dir allocated e p = some r) :
    r.1.head = p.chunk.head := by
  simp only [placeEntry] at h
  split at h
  · cases h
    rfl
  · split at h
    · cases h
      rfl
    · split at h
      · cases h
        rfl
      · cases h

/-- The list of a table has `bursts_alloc` bursts. -/
def Counted (c : Chunk) : Prop := c.burstsAlloc = c.bursts.length

theorem placeEntry_counted {dir : Dir} {allocated : Nat} {e : SgEntry} {p : Progress}
    {r : Chunk × Nat × Nat} (h : placeEntry dir allocated e p = some r) (hc : Counted p.chunk) :
    Counted r.1 ∧ 0 < r.1.burstsAlloc := by
  simp only [Counted] at hc
  have hinit : Counted (initSgBurst dir p.chunk e.addr p.addr e.len) ∧
      0 < (initSgBurst dir p.chunk e.addr p.addr e.len).burstsAlloc := by
    simp [Counted, initSgBurst, hc]
  simp only [placeEntry] at h
  split at h
  · rename_i last hlast
    have hget := (Option.filter_eq_some_iff.mp hlast).1
    cases h
    have hne : p.chunk.bursts ≠ [] := by
      rintro hnil
      simp [lastDataBurst, hnil] at hget
    have hpos := List.length_pos_iff.mpr hne
    refine ⟨?_, by simpa only [extendSgBurst, hc] using hpos⟩
    simp only [Counted, extendSgBurst, hc, List.length_append, List.length_dropLast,
      List.length_singleton]
    omega
  · split at h
    · cases h
      exact hinit
    · split at h
      · cases h
        exact hinit
      · cases h

/-- The loop has gone over the first `n` entries: the cursor has moved over them and the
table has grown by their bytes. -/
structure Advanced (dir : Dir) (sg : List SgEntry) (p : Progress) (r : Progress × List SgEntry)
    (n : Nat) : Prop where
  le_length : n ≤ sg.length
  le_remaining : n ≤ p.remaining
  rest : r.2 = sg.drop n
  consumed : r.1.consumed = p.consumed + n
  remaining : r.1.remaining = p.remaining - n
  addr : r.1.addr = p.addr + total SgEntry.len (sg.take n)
  bytes : bytes dir r.1.chunk.bursts = bytes dir p.chunk.bursts ++ sgBytes p.addr (sg.take n)
  head : r.1.chunk.head = p.chunk.head
  counted : Counted p.chunk →
    Counted r.1.chunk ∧ (0 < n ∨ 0 < p.chunk.burstsAlloc → 0 < r.1.chunk.burstsAlloc)

theorem Advanced.refl {dir : Dir} {sg : List SgEntry} {p q : Progress} (hchunk : q.chunk = p.chunk)
    (hremaining : q.remaining = p.remaining) (haddr : q.addr = p.addr)
    (hconsumed : q.consumed = p.consumed) : Advanced dir sg p (q, sg) 0 where
  le_length := Nat.zero_le _
  le_remaining := Nat.zero_le _
  rest := rfl
  consumed := hconsumed
  remaining := hremaining
  addr := by simpa using haddr
  bytes := by simp [hchunk, sgBytes, layout]
  head := by rw [hchunk]
  counted h := by
    rw [hchunk]
    exact ⟨h, fun hpos => hpos.resolve_left (Nat.lt_irrefl 0)⟩

theorem fillLoop_advanced (dir : Dir) (need allocated : Nat) (sg : List SgEntry) (p : Progress) :
    ∃ n, Advanced dir sg p (fillLoop dir need allocated sg p) n := by
  induction sg generalizing p with
  | nil => exact ⟨0, .refl rfl rfl rfl rfl⟩
  | cons e sg ih =>
    simp only [fillLoop]
    split
    · rename_i hgo
      split
      · exact ⟨0, .refl rfl rfl rfl rfl⟩
      · cases hplace : placeEntry dir allocated e p with
        | none => exact ⟨0, .refl rfl rfl rfl rfl⟩
        | some r =>
          obtain ⟨n, hn⟩ := ih
            {p with chunk := r.1, used := r.2.1, single := r.2.2, addr := p.addr + e.len,
                    remaining := p.remaining - 1,
                    allocAccum := (p.allocAccum + e.len) % 2 ^ 32, consumed := p.consumed + 1}
          refine ⟨n + 1, ?_⟩
          constructor
          case le_length => simpa using hn.le_length
          case le_remaining =>
            have := hn.le_remaining
            simp only at this
            omega
          case rest => exact hn.rest
          case consumed => rw [hn.consumed]; simp only; omega
          case remaining => rw [hn.remaining]; simp only; omega
          case addr => rw [hn.addr]; simp only [List.take_succ_cons, total_cons]; omega
          case bytes =>
            rw [hn.bytes, placeEntry_bytes hplace]
            simp only [sgBytes, List.take_succ_cons, layout, List.append_assoc]
          case head => rw [hn.head]; exact placeEntry_head hplace
          case counted =>
            intro hc
            obtain ⟨hr, hpos⟩ := placeEntry_counted hplace hc
            obtain ⟨hcounted, hkept⟩ := hn.counted hr
            exact ⟨hcounted, fun _ => hkept (.inr hpos)⟩
    · exact ⟨0, .refl rfl rfl rfl rfl⟩

/-- What a call has done to the chunk and the cursor when it has taken `n` entries. -/
structure Exact (dir : Dir) (c : Chunk) (cur : Cursor) (f : Filled) (n : Nat) : Prop where
  le_length : n ≤ cur.sg.length
  le_remaining : n ≤ cur.remaining
  moved : f.cur = ⟨cur.sg.drop n, cur.remaining - n, cur.addr + total SgEntry.len (cur.sg.take n)⟩
  bytes : bytes dir f.chunk.bursts = bytes dir c.bursts ++ sgBytes cur.addr (cur.sg.take n)
  head : f.chunk.head = c.head
  counted : Counted c → Counted f.chunk ∧ (0 < n → 0 < f.chunk.burstsAlloc)

/-- **A fill is exact.** Whatever the allocator gives, a call that returns `n` has put the
bytes of the next `n` entries into the table and moved the cursor over them. -/
theorem fillSgBursts_ok {dir : Dir} {llMax batchMax : Nat} {supply : Supply} {c : Chunk}
    {cur : Cursor} {accum n : Nat}
    (h : (fillSgBursts dir llMax batchMax supply c cur accum).ret = .ok n) :
    Exact dir c cur (fillSgBursts dir llMax batchMax supply c cur accum) n := by
  simp only [fillSgBursts] at h ⊢
  split
  · rename_i hnone
    rw [if_pos hnone] at h
    cases h
    exact ⟨Nat.zero_le _, Nat.zero_le _, by simp, by simp [sgBytes, layout], rfl,
      fun hc => ⟨hc, (by rintro ⟨⟩)⟩⟩
  · rename_i hsome
    rw [if_neg hsome] at h
    obtain ⟨m, hm⟩ := fillLoop_advanced dir (min cur.remaining (min (llMax - c.burstsAlloc) batchMax))
      (min (min cur.remaining (min (llMax - c.burstsAlloc) batchMax)) supply.batch) cur.sg
      ⟨c, cur.remaining, cur.addr, accum, 0, supply.single, 0, false⟩
    generalize fillLoop dir _ _ cur.sg _ = r at h hm ⊢
    split at h
    · cases h
    · rename_i hret
      rw [if_neg hret]
      split at h
      · cases h
      · rename_i hend
        rw [if_neg hend]
        cases h
        have hmn : r.1.consumed = m := by simpa using hm.consumed
        rw [hmn]
        exact ⟨hm.le_length, hm.le_remaining, by simp only [hm.rest, hm.remaining, hm.addr],
          hm.bytes, hm.head, fun hc => ⟨(hm.counted hc).1, fun hpos => (hm.counted hc).2 (.inl hpos)⟩⟩

/-! ### What every entry keeps -/

/-- An entry lengthens the last burst or adds one. -/
theorem placeEntry_cases {dir : Dir} {allocated : Nat} {e : SgEntry} {p : Progress}
    {r : Chunk × Nat × Nat} (h : placeEntry dir allocated e p = some r) :
    (∃ last, lastDataBurst p.chunk = some last ∧ r.1 = extendSgBurst p.chunk last e.len) ∨
      r.1 = initSgBurst dir p.chunk e.addr p.addr e.len := by
  simp only [placeEntry] at h
  split at h
  · next last hlast =>
    cases h
    exact .inl ⟨last, (Option.filter_eq_some_iff.mp hlast).1, rfl⟩
  · split at h
    · cases h
      exact .inr rfl
    · split at h
      · cases h
        exact .inr rfl
      · cases h

section Keeps
variable {dir : Dir} {P : Chunk → Nat → Prop}

theorem fillLoop_keeps
    (extend : ∀ c last len accum, lastDataBurst c = some last → P c accum →
      P (extendSgBurst c last len) ((accum + len) % 2 ^ 32))
    (init : ∀ c host dev len accum, P c accum →
      P (initSgBurst dir c host dev len) ((accum + len) % 2 ^ 32))
    (need allocated : Nat) (sg : List SgEntry) (p : Progress) (h : P p.chunk p.allocAccum) :
    P (fillLoop dir need allocated sg p).1.chunk (fillLoop dir need allocated sg p).1.allocAccum := by
  induction sg generalizing p with
  | nil => exact h
  | cons e sg ih =>
    simp only [fillLoop]
    split
    · split
      · exact h
      · cases hplace : placeEntry dir allocated e p with
        | none => exact h
        | some r =>
          refine ih _ ?_
          rcases placeEntry_cases hplace with ⟨last, hlast, hr⟩ | hr
          · rw [hr]
            exact extend _ _ _ _ hlast h
          · rw [hr]
            exact init _ _ _ _ _ h
    · exact h

/-- What survives a longer burst and a further burst, with the count of bytes beside it,
survives a fill, whether it succeeds or not. -/
theorem fillSgBursts_keeps
    (extend : ∀ c last len accum, lastDataBurst c = some last → P c accum →
      P (extendSgBurst c last len) ((accum + len) % 2 ^ 32))
    (init : ∀ c host dev len accum, P c accum →
      P (initSgBurst dir c host dev len) ((accum + len) % 2 ^ 32))
    {llMax batchMax : Nat} {supply : Supply} {c : Chunk} {cur : Cursor} {accum : Nat}
    (h : P c accum) :
    P (fillSgBursts dir llMax batchMax supply c cur accum).chunk
      (fillSgBursts dir llMax batchMax supply c cur accum).allocAccum := by
  simp only [fillSgBursts]
  split
  · exact h
  · have loop := fillLoop_keeps extend init (min cur.remaining (min (llMax - c.burstsAlloc) batchMax))
      (min (min cur.remaining (min (llMax - c.burstsAlloc) batchMax)) supply.batch) cur.sg
      ⟨c, cur.remaining, cur.addr, accum, 0, supply.single, 0, false⟩ h
    split
    · exact loop
    · split
      · exact loop
      · exact loop

end Keeps

theorem fillSgBursts_cb {dir : Dir} {llMax batchMax : Nat} {supply : Supply} {c : Chunk}
    {cur : Cursor} {accum : Nat} :
    (fillSgBursts dir llMax batchMax supply c cur accum).chunk.cb = c.cb :=
  fillSgBursts_keeps (P := fun d _ => d.cb = c.cb) (fun _ _ _ _ _ h => h) (fun _ _ _ _ _ h => h) rfl

/-! ### Positions in the list -/

/-- The cursor after the first `k` of `len` entries, the first of which goes to `addr`. -/
def cursorAt (sgl : List SgEntry) (len addr k : Nat) : Cursor :=
  ⟨sgl.drop k, len - k, addr + total SgEntry.len (sgl.take k)⟩

/-- The bytes of the first `k` entries. -/
def bytesTo (sgl : List SgEntry) (addr k : Nat) : List (Nat × Nat) := sgBytes addr (sgl.take k)

/-- A fill that starts at position `k` and returns `n` ends at position `k + n`. -/
theorem fillSgBursts_cursorAt {dir : Dir} {llMax batchMax : Nat} {supply : Supply} {c : Chunk}
    {accum n : Nat} {sgl : List SgEntry} {len addr k : Nat}
    (h : (fillSgBursts dir llMax batchMax supply c (cursorAt sgl len addr k) accum).ret = .ok n) :
    let f := fillSgBursts dir llMax batchMax supply c (cursorAt sgl len addr k) accum
    f.cur = cursorAt sgl len addr (k + n) ∧ n ≤ len - k ∧ n ≤ sgl.length - k ∧
    ∃ new, bytes dir f.chunk.bursts = bytes dir c.bursts ++ new ∧
      bytesTo sgl addr (k + n) = bytesTo sgl addr k ++ new := by
  have hf := fillSgBursts_ok h
  refine ⟨?_, hf.le_remaining, by simpa [cursorAt] using hf.le_length, _, hf.bytes, ?_⟩
  · rw [hf.moved]
    simp only [cursorAt, List.drop_drop, Nat.sub_sub, List.take_add, total_append, Nat.add_assoc]
  · simp only [bytesTo, sgBytes, cursorAt, List.take_add, layout_append]

/-! ### Fills that cannot fail -/

/-- The bursts that can still be had. -/
def Progress.left (allocated : Nat) (p : Progress) : Nat := (allocated - p.used) + p.single

/-- With a burst to be had an entry is placed, and takes at most one. -/
theorem placeEntry_of_left (dir : Dir) {allocated : Nat} (e : SgEntry) {p : Progress}
    (h : 0 < p.left allocated) :
    ∃ r, placeEntry dir allocated e p = some r ∧
      p.left allocated ≤ (allocated - r.2.1) + r.2.2 + 1 := by
  simp only [Progress.left] at h ⊢
  simp only [placeEntry]
  split
  · exact ⟨_, rfl, by simp only; omega⟩
  · split
    · exact ⟨_, rfl, by simp only; omega⟩
    · split
      · exact ⟨_, rfl, by simp only; omega⟩
      · omega

/-- The addresses of the next entries do not wrap, on either side. -/
def InRange (addr : Nat) (sg : List SgEntry) : Prop :=
  addr + total SgEntry.len sg ≤ u64Max ∧ ∀ e ∈ sg, e.addr + e.len ≤ u64Max

theorem fillLoop_full (dir : Dir) {need allocated : Nat} {sg : List SgEntry} {p : Progress}
    (hrange : InRange p.addr sg) (hsg : p.remaining ≤ sg.length) (hok : p.failed = false)
    (hneed : p.consumed ≤ need) (hremaining : need ≤ p.consumed + p.remaining)
    (hleft : need ≤ p.consumed + p.left allocated) :
    (fillLoop dir need allocated sg p).1.failed = false ∧
    (fillLoop dir need allocated sg p).1.consumed = need := by
  induction sg generalizing p with
  | nil =>
    simp only [List.length_nil, Nat.le_zero] at hsg
    exact ⟨hok, by simp only [fillLoop]; omega⟩
  | cons e sg ih =>
    simp only [fillLoop]
    split
    · rename_i hgo
      obtain ⟨htotal, hentries⟩ := hrange
      simp only [total_cons] at htotal
      have he := hentries e List.mem_cons_self
      rw [if_neg (by omega)]
      have hburst : 0 < p.left allocated := by omega
      obtain ⟨⟨chunk, used, single⟩, hr, hr'⟩ := placeEntry_of_left dir e hburst
      simp only [hr]
      apply ih
      case hrange =>
        exact ⟨by simp only; omega, fun e' he' => hentries e' (List.mem_cons_of_mem _ he')⟩
      case hsg => simp only [List.length_cons] at hsg ⊢; omega
      case hok => exact hok
      case hneed => simp only; omega
      case hremaining => simp only; omega
      case hleft => simp only [Progress.left] at hleft hr' ⊢; omega
    · rename_i hstop
      exact ⟨hok, by simp only; omega⟩

/-- A new table is filled as far as it goes: by `ll_max` entries or by all that remain. -/
theorem fillSgBursts_full {dir : Dir} {llMax : Nat} {supply : Supply} {c : Chunk} {cur : Cursor}
    {accum : Nat} (hempty : c.burstsAlloc = 0) (hmax : 0 < llMax) (hcur : 0 < cur.remaining)
    (hsg : cur.remaining ≤ cur.sg.length) (hrange : InRange cur.addr cur.sg)
    (hsupply : llMax ≤ supply.batch + supply.single) :
    (fillSgBursts dir llMax llMax supply c cur accum).ret = .ok (min cur.remaining llMax) := by
  have hne : cur.sg ≠ [] := by
    rintro hnil
    simp only [hnil, List.length_nil] at hsg
    omega
  have hgo : ¬(cur.sg = [] ∨ cur.remaining = 0 ∨ llMax ≤ c.burstsAlloc ∨ llMax = 0) := by
    rw [hempty]
    simp only [hne, false_or]
    omega
  have hneed : min cur.remaining (min (llMax - c.burstsAlloc) llMax) = min cur.remaining llMax := by
    omega
  simp only [fillSgBursts, if_neg hgo, hneed]
  obtain ⟨n, hn⟩ := fillLoop_advanced dir (min cur.remaining llMax)
    (min (min cur.remaining llMax) supply.batch) cur.sg
    ⟨c, cur.remaining, cur.addr, accum, 0, supply.single, 0, false⟩
  have hfull := @fillLoop_full dir (min cur.remaining llMax)
    (min (min cur.remaining llMax) supply.batch) cur.sg
    ⟨c, cur.remaining, cur.addr, accum, 0, supply.single, 0, false⟩
    hrange hsg rfl (Nat.zero_le _) (by simp only; omega) (by simp only [Progress.left]; omega)
  generalize fillLoop dir _ _ cur.sg _ = r at hn hfull ⊢
  have hend : ¬(r.2 = [] ∧ r.1.remaining ≠ 0) := by
    rintro ⟨hrest, hrem⟩
    rw [hn.rest, List.drop_eq_nil_iff] at hrest
    have := hn.remaining
    simp only at this
    omega
  rw [if_neg (by rw [hfull.1]; rintro ⟨⟩), if_neg hend, hfull.2]

end DxNpuDriver.Edma.Fill
