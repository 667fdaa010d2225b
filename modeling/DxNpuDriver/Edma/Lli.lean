import DxNpuDriver.Edma.Batch
import DxNpuDriver.Lib.Bytes

/-! The descriptor table (`dw_edma_v0_core_write_chunk` in `dw-edma-v0-core.c`).

Before the table is written, bursts that touch on the host side are merged once more, and
given back to the pool. Of the device side nothing is asked, which a table that was filled
entry by entry does not need, and sizes are added in 32 bits, which such a table may exceed:
`bytes_iff` says when the table moves what the bursts were to move.

`table_fits` is about the table as such: what stands where in the host buffer, which of its
elements interrupt, and that what is copied to the device is the table. -/
namespace DxNpuDriver.Edma.Lli
open Extent
open Fill (Dir Cursor bytes u32Max u64Max)
open Memory (pushAll)
open Batch (Node Chunk Supply fillSgBursts EINVAL)

/-- `EDMA_LL_SZ` and `EDMA_CHUNK_SIZE`; a host buffer has the latter. -/
def EDMA_LL_SZ : Nat := 24
def EDMA_CHUNK_SIZE : Nat := 1024 * 1024

/-- `sizeof(struct dw_edma_v0_llp)`. -/
def llpSize : Nat := 16

/-! `enum dw_edma_control`, as bit numbers. -/

def CB : Nat := 0
def TCB : Nat := 1
def LLP : Nat := 2
def LIE : Nat := 3
def RIE : Nat := 4

def BIT (n : Nat) : Nat := 1 <<< n

/-- The region for the table in the device, of `struct dx_edma_region`; `mapped` tells whether
`vaddr` is there. -/
structure Region where
  paddr : UInt64
  mapped : Bool
  sz : Nat

/-- `ll_max` of a channel with such a region (`dw_edma_channel_setup`). -/
def llMax (region : Region) : UInt32 := UInt32.ofNat (region.sz / EDMA_LL_SZ) - 1

/-! ### Merging -/

/-- `contd`: the host side of `curr` follows that of `ptr`. -/
def contd (dir : Dir) (ptr curr : Fill.Burst) : Bool :=
  match dir with
  | .write => curr.dar = (ptr.dar + ptr.sz) % 2 ^ 64
  | .read => curr.sar = (ptr.sar + ptr.sz) % 2 ^ 64

/-- `ptr->sz += curr->sz`. -/
def absorb (ptr curr : Node × Fill.Burst) : Node × Fill.Burst :=
  (ptr.1, {ptr.2 with sz := (ptr.2.sz + curr.2.sz) % 2 ^ 32})

/-- The bursts behind `ptr`: the list from `ptr` on, and what is given back. -/
def mergeLoop (dir : Dir) (ptr : Node × Fill.Burst) :
    List (Node × Fill.Burst) → List (Node × Fill.Burst) × List Node
  | [] => ([ptr], [])
  | curr :: rest =>
    if contd dir ptr.2 curr.2 then
      let r := mergeLoop dir (absorb ptr curr) rest
      (r.1, curr.1 :: r.2)
    else
      let r := mergeLoop dir curr rest
      (ptr :: r.1, r.2)

/-! ### Writing -/

/-- `dw_edma_v0_gen_lli`; `lli` is the start of the buffer. -/
def genLli (cb : Bool) (burst : Fill.Burst) (idx : Nat) (remain : Int) (lli : Bytes) : Bytes :=
  let control := if cb then BIT CB else 0
  let control := if remain = 0 then control ||| (BIT LIE ||| BIT RIE) else control
  let offset := idx * EDMA_LL_SZ
  let lli := lli.setWord offset control
  let lli := lli.setWord (offset + 4) burst.sz
  let lli := lli.setWord (offset + 8) burst.sar
  let lli := lli.setWord (offset + 12) (burst.sar / 2 ^ 32)
  let lli := lli.setWord (offset + 16) burst.dar
  lli.setWord (offset + 20) (burst.dar / 2 ^ 32)

/-- `dw_edma_v0_gen_llp`, for the element `idx`. -/
def genLlp (cb : Bool) (paddr : UInt64) (idx : Nat) (lli : Bytes) : Bytes :=
  let control := BIT LLP ||| BIT TCB
  let control := if cb then control else control ||| BIT CB
  let offset := idx * EDMA_LL_SZ
  let lli := lli.setWord offset control
  let lli := lli.setWord (offset + 8) paddr.toNat
  lli.setWord (offset + 12) (paddr.toNat / 2 ^ 32)

/-- The loop over the list, with `i` and `j`; it leaves the buffer and `i`. -/
def writeLoop (cb : Bool) : List Fill.Burst → Nat → Int → Bytes → Bytes × Nat
  | [], i, _, lli => (lli, i)
  | child :: rest, i, j, lli => writeLoop cb rest (i + 1) (j - 1) (genLli cb child i (j - 1) lli)

/-- What a call leaves: its result, the chunk, the free list and the host buffer. -/
structure Written where
  ret : Int
  chunk : Chunk
  pool : List Nat
  host : Bytes

/-- `dw_edma_v0_core_write_chunk`. -/
def writeChunk (dir : Dir) (region : Region) (size : Nat) (c : Chunk) (pool : List Nat) (host : Bytes) :
    Written :=
  if !region.mapped then ⟨-EINVAL, c, pool, host⟩
  else
    match c.bursts with
    | [] => ⟨-EINVAL, c, pool, host⟩
    | ptr :: rest =>
      let (bursts, freed) := mergeLoop dir ptr rest
      let c := {c with bursts := bursts, burstsAlloc := c.burstsAlloc - freed.length}
      let (host, i) := writeLoop c.cb (bursts.map Prod.snd) 0 c.burstsAlloc host
      ⟨0, c, pushAll size freed pool, genLlp c.cb region.paddr i host⟩

/-- The number of bytes that `dw_edma_v0_core_xfer_llm_desc` and `dw_edma_v0_core_precopy_lli` copy
from the host buffer to the region. -/
def copied (c : Chunk) : Nat := (c.burstsAlloc + 1) * EDMA_LL_SZ % 2 ^ 32

/-! ### Reading -/

/-- `struct dw_edma_v0_lli` with the index `i`: its control word, and the rest as a burst. -/
def controlWord (lli : Bytes) (i : Nat) : Nat := lli.word (i * EDMA_LL_SZ)

def element (lli : Bytes) (i : Nat) : Fill.Burst :=
  ⟨lli.word (i * EDMA_LL_SZ + 8) + 2 ^ 32 * lli.word (i * EDMA_LL_SZ + 12),
    lli.word (i * EDMA_LL_SZ + 16) + 2 ^ 32 * lli.word (i * EDMA_LL_SZ + 20),
    lli.word (i * EDMA_LL_SZ + 4)⟩

/-- The pointer of `struct dw_edma_v0_llp`, in the place of element `i`. -/
def pointer (lli : Bytes) (i : Nat) : Nat :=
  lli.word (i * EDMA_LL_SZ + 8) + 2 ^ 32 * lli.word (i * EDMA_LL_SZ + 12)

/-- The data elements of the table of a chunk. -/
def table (w : Written) : List Fill.Burst := (List.range w.chunk.burstsAlloc).map (element w.host)

/-! ### What is written is read -/

section Words
variable {cb : Bool} {paddr : UInt64} {burst : Fill.Burst} {bursts : List Fill.Burst} {idx i b : Nat}
  {remain j : Int} {lli : Bytes}

/-- What the fields of an element hold of a burst. -/
def truncate (b : Fill.Burst) : Fill.Burst := ⟨b.sar % 2 ^ 64, b.dar % 2 ^ 64, b.sz % 2 ^ 32⟩

/-- The control word of a data element; `last` is the one that interrupts. -/
def dataControl (cb last : Bool) : Nat :=
  if last then (if cb then BIT CB else 0) ||| (BIT LIE ||| BIT RIE) else if cb then BIT CB else 0

def linkControl (cb : Bool) : Nat :=
  if cb then BIT LLP ||| BIT TCB else (BIT LLP ||| BIT TCB) ||| BIT CB

/-- Two words of 32 bits make one of 64. -/
theorem two_words (v : Nat) : v % 2 ^ 32 + 2 ^ 32 * (v / 2 ^ 32 % 2 ^ 32) = v % 2 ^ 64 := by
  omega

/-- Buffers that agree in the place of an element have the same element there. -/
theorem element_congr {lli' : Bytes}
    (h : ∀ b, i * EDMA_LL_SZ ≤ b → b + 4 ≤ (i + 1) * EDMA_LL_SZ → lli'.word b = lli.word b) :
    controlWord lli' i = controlWord lli i ∧ element lli' i = element lli i := by
  have hword : ∀ k, k + 4 ≤ 24 → lli'.word (i * EDMA_LL_SZ + k) = lli.word (i * EDMA_LL_SZ + k) :=
    fun k hk => h _ (by omega) (by rw [EDMA_LL_SZ]; omega)
  refine ⟨hword 0 (by omega), ?_⟩
  rw [element, hword 4 (by omega), hword 8 (by omega), hword 12 (by omega), hword 16 (by omega),
    hword 20 (by omega), element]

/-- An element is written in its place only. -/
theorem genLli_frame (h : b + 4 ≤ idx * EDMA_LL_SZ ∨ idx * EDMA_LL_SZ + 24 ≤ b) :
    (genLli cb burst idx remain lli).word b = lli.word b := by
  simp (disch := omega) only [genLli, Bytes.word_setWord_of_ne]

theorem genLli_control :
    controlWord (genLli cb burst idx remain lli) idx = dataControl cb (remain = 0) := by
  simp (disch := omega) only [controlWord, genLli, Bytes.word_setWord_of_ne, Bytes.word_setWord]
  by_cases hlast : remain = 0
  · rw [if_pos hlast, dataControl, decide_eq_true hlast]
    cases cb <;> rfl
  · rw [if_neg hlast, dataControl, decide_eq_false hlast]
    cases cb <;> rfl

theorem genLli_element : element (genLli cb burst idx remain lli) idx = truncate burst := by
  simp (disch := omega) only [element, genLli, Bytes.word_setWord_of_ne, Bytes.word_setWord, two_words,
    truncate]

theorem genLlp_frame (h : b + 4 ≤ idx * EDMA_LL_SZ) :
    (genLlp cb paddr idx lli).word b = lli.word b := by
  simp (disch := omega) only [genLlp, Bytes.word_setWord_of_ne]

theorem genLlp_control : controlWord (genLlp cb paddr idx lli) idx = linkControl cb := by
  simp (disch := omega) only [controlWord, genLlp, Bytes.word_setWord_of_ne, Bytes.word_setWord]
  cases cb <;> rfl

theorem genLlp_pointer : pointer (genLlp cb paddr idx lli) idx = paddr.toNat := by
  simp (disch := omega) only [pointer, genLlp, Bytes.word_setWord_of_ne, Bytes.word_setWord, two_words]
  exact Nat.mod_eq_of_lt paddr.toNat_lt

theorem writeLoop_index : (writeLoop cb bursts i j lli).2 = i + bursts.length := by
  induction bursts generalizing i j lli with
  | nil => rfl
  | cons burst bursts ih =>
    rw [writeLoop, ih, List.length_cons]
    omega

theorem writeLoop_frame (h : b + 4 ≤ i * EDMA_LL_SZ) :
    (writeLoop cb bursts i j lli).1.word b = lli.word b := by
  induction bursts generalizing i j lli with
  | nil => rfl
  | cons burst bursts ih =>
    rw [writeLoop, ih (by rw [EDMA_LL_SZ] at h ⊢; omega), genLli_frame (.inl h)]

/-- The loop writes an element for each burst; the one for which `j` comes to 0 interrupts. -/
theorem writeLoop_written {k : Nat} (hk : k < bursts.length) :
    controlWord (writeLoop cb bursts i j lli).1 (i + k) = dataControl cb (j = k + 1) ∧
      element (writeLoop cb bursts i j lli).1 (i + k) = truncate bursts[k] := by
  induction bursts generalizing i j lli k with
  | nil => exact absurd hk (Nat.not_lt_zero k)
  | cons burst bursts ih =>
    rw [writeLoop]
    cases k with
    | zero =>
      obtain ⟨hcontrol, helement⟩ :=
        @element_congr i (genLli cb burst i (j - 1) lli)
          (writeLoop cb bursts (i + 1) (j - 1) (genLli cb burst i (j - 1) lli)).1
          fun b _ hb => writeLoop_frame hb
      rw [Nat.add_zero i, hcontrol, helement, genLli_control, genLli_element]
      refine ⟨?_, rfl⟩
      congr 1
      rw [decide_eq_decide]
      omega
    | succ k =>
      have h := @ih (i + 1) (j - 1) (genLli cb burst i (j - 1) lli) k (Nat.lt_of_succ_lt_succ hk)
      rw [Nat.add_assoc, Nat.add_comm 1 k] at h
      rw [h.1, h.2]
      refine ⟨?_, rfl⟩
      congr 1
      rw [decide_eq_decide]
      omega

end Words

/-! ### The table of a chunk -/

section Table
variable {dir : Dir} {region : Region} {size : Nat} {c : Chunk} {pool : List Nat} {host : Bytes}

theorem mergeLoop_length (ptr : Node × Fill.Burst) (rest : List (Node × Fill.Burst)) :
    (mergeLoop dir ptr rest).1.length + (mergeLoop dir ptr rest).2.length = rest.length + 1 ∧
      0 < (mergeLoop dir ptr rest).1.length := by
  induction rest generalizing ptr with
  | nil => exact ⟨rfl, Nat.zero_lt_one⟩
  | cons curr rest ih =>
    unfold mergeLoop
    split
    · obtain ⟨hlen, hpos⟩ := ih (absorb ptr curr)
      exact ⟨by simp only [List.length_cons]; omega, hpos⟩
    · obtain ⟨hlen, hpos⟩ := ih curr
      exact ⟨by simp only [List.length_cons]; omega, by simp only [List.length_cons]; omega⟩

/-- What a call that is not refused does, for the chunk that it leaves. -/
structure Writes (region : Region) (c : Chunk) (w : Written) : Prop where
  ret : w.ret = 0
  cb : w.chunk.cb = c.cb
  counted : w.chunk.burstsAlloc = w.chunk.bursts.length
  pos : 0 < w.chunk.burstsAlloc
  le : w.chunk.burstsAlloc ≤ c.burstsAlloc
  data : ∀ i (hi : i < w.chunk.bursts.length),
    controlWord w.host i = dataControl c.cb (i + 1 = w.chunk.burstsAlloc) ∧
      element w.host i = truncate (w.chunk.bursts[i]).2
  link : controlWord w.host w.chunk.burstsAlloc = linkControl c.cb
  pointer : pointer w.host w.chunk.burstsAlloc = region.paddr.toNat

theorem writeChunk_refused (h : region.mapped = false ∨ c.bursts = []) :
    writeChunk dir region size c pool host = ⟨-EINVAL, c, pool, host⟩ := by
  unfold writeChunk
  rcases h with h | h
  · rw [h]
    rfl
  · rw [h]
    split <;> rfl

theorem writeChunk_eq (hmapped : region.mapped = true) {ptr : Node × Fill.Burst}
    {rest : List (Node × Fill.Burst)} (hlist : c.bursts = ptr :: rest) :
    writeChunk dir region size c pool host =
      let r := mergeLoop dir ptr rest
      let alloc := c.burstsAlloc - r.2.length
      let lli := (writeLoop c.cb (r.1.map Prod.snd) 0 alloc host).1
      ⟨0, {c with bursts := r.1, burstsAlloc := alloc}, pushAll size r.2 pool,
        genLlp c.cb region.paddr r.1.length lli⟩ := by
  have hindex : ∀ alloc : Int,
      (writeLoop c.cb ((mergeLoop dir ptr rest).1.map Prod.snd) 0 alloc host).2 =
        (mergeLoop dir ptr rest).1.length := by
    intro alloc
    rw [writeLoop_index, List.length_map, Nat.zero_add]
  unfold writeChunk
  rw [hmapped, hlist]
  simp only [Bool.not_true, Bool.false_eq_true, if_false]
  rw [hindex]

theorem writeChunk_writes (hmapped : region.mapped = true) (hne : c.bursts ≠ [])
    (hcount : c.burstsAlloc = c.bursts.length) :
    Writes region c (writeChunk dir region size c pool host) := by
  obtain ⟨ptr, rest, hlist⟩ := List.exists_cons_of_ne_nil hne
  obtain ⟨hlen, hpos⟩ := @mergeLoop_length dir ptr rest
  have hlists := congrArg List.length hlist
  rw [List.length_cons] at hlists
  rw [writeChunk_eq hmapped hlist]
  generalize mergeLoop dir ptr rest = r at hlen hpos
  have halloc : c.burstsAlloc - r.2.length = r.1.length := by omega
  dsimp only
  rw [halloc]
  constructor
  case ret => rfl
  case cb => rfl
  case counted => rfl
  case pos => exact hpos
  case le => dsimp only; omega
  case link => exact genLlp_control
  case pointer => exact genLlp_pointer
  case data =>
    intro i hi
    dsimp only at hi ⊢
    have hwritten := @writeLoop_written c.cb (r.1.map Prod.snd) 0 r.1.length host i
      (by rw [List.length_map]; exact hi)
    obtain ⟨hcontrol, helement⟩ := @element_congr i (writeLoop c.cb (r.1.map Prod.snd) 0 r.1.length host).1
      (genLlp c.cb region.paddr r.1.length (writeLoop c.cb (r.1.map Prod.snd) 0 r.1.length host).1)
      fun b _ hb => genLlp_frame (by rw [EDMA_LL_SZ] at hb ⊢; omega)
    rw [Nat.zero_add, List.getElem_map] at hwritten
    rw [hcontrol, helement, hwritten.1, hwritten.2]
    refine ⟨?_, rfl⟩
    congr 1
    rw [decide_eq_decide]
    omega

/-- Without the content of the bursts the merge is that of `Memory`, for some answers to
`contd`. -/
theorem mergeLoop_nodes (ptr : Node × Fill.Burst) (rest : List (Node × Fill.Burst)) :
    ∃ contds, ((mergeLoop dir ptr rest).1.map Prod.fst =
        ptr.1 :: (Memory.mergeLoop contds (rest.map Prod.fst)).1) ∧
      (mergeLoop dir ptr rest).2 = (Memory.mergeLoop contds (rest.map Prod.fst)).2 := by
  induction rest generalizing ptr with
  | nil => exact ⟨[], rfl, rfl⟩
  | cons curr rest ih =>
    unfold mergeLoop
    split
    · obtain ⟨contds, hkept, hfreed⟩ := ih (absorb ptr curr)
      refine ⟨true :: contds, hkept, ?_⟩
      simp only [List.map_cons, Memory.mergeLoop, if_true, hfreed]
    · obtain ⟨contds, hkept, hfreed⟩ := ih curr
      refine ⟨false :: contds, ?_, ?_⟩
      · simp only [List.map_cons, Memory.mergeLoop, hkept, Bool.false_eq_true, if_false]
      · simp only [List.map_cons, Memory.mergeLoop, hfreed, Bool.false_eq_true, if_false]

/-- So is the call: what it does to the bursts is a `Memory.writeChunk`. -/
theorem writeChunk_memory (hmapped : region.mapped = true) (hne : c.bursts ≠ []) {m : Memory.Store}
    {k : Nat} {head : Node} (hchunk : m.chunk k = some ⟨head, c.nodes⟩) (hpool : m.pool = pool) :
    ∃ contds m', Memory.writeChunk size contds k m = some m' ∧
      m'.chunk k = some ⟨head, (writeChunk dir region size c pool host).chunk.nodes⟩ ∧
      m'.pool = (writeChunk dir region size c pool host).pool := by
  obtain ⟨ptr, rest, hlist⟩ := List.exists_cons_of_ne_nil hne
  obtain ⟨contds, hkept, hfreed⟩ := @mergeLoop_nodes dir ptr rest
  rw [Chunk.nodes, hlist, List.map_cons] at hchunk
  rw [writeChunk_eq hmapped hlist]
  refine ⟨contds, _, by rw [Memory.writeChunk, hchunk], ?_, ?_⟩
  · rw [Memory.set_chunk_self, Chunk.nodes, hkept]
  · simp only [Memory.Store.set, hpool, hfreed]

/-- The table in a buffer: a data element for each burst, of which the last one interrupts, and
behind them the link element, which leads back to the start of the region. -/
structure WellFormed (cb : Bool) (paddr : UInt64) (bursts : List Fill.Burst) (lli : Bytes) : Prop where
  element : ∀ i (hi : i < bursts.length), element lli i = truncate bursts[i]
  data : ∀ i < bursts.length, (controlWord lli i).testBit LLP = false ∧
    (controlWord lli i).testBit TCB = false ∧ (controlWord lli i).testBit CB = cb
  interrupt : ∀ i < bursts.length, (controlWord lli i).testBit LIE = decide (i + 1 = bursts.length) ∧
    (controlWord lli i).testBit RIE = decide (i + 1 = bursts.length)
  link : (controlWord lli bursts.length).testBit LLP = true ∧
    (controlWord lli bursts.length).testBit TCB = true ∧
    (controlWord lli bursts.length).testBit CB = !cb
  quiet : (controlWord lli bursts.length).testBit LIE = false ∧
    (controlWord lli bursts.length).testBit RIE = false
  pointer : pointer lli bursts.length = paddr.toNat

theorem dataControl_bits (cb last : Bool) : (dataControl cb last).testBit LLP = false ∧
    (dataControl cb last).testBit TCB = false ∧ (dataControl cb last).testBit CB = cb ∧
    (dataControl cb last).testBit LIE = last ∧ (dataControl cb last).testBit RIE = last := by
  cases cb <;> cases last <;> decide

theorem linkControl_bits (cb : Bool) : (linkControl cb).testBit LLP = true ∧
    (linkControl cb).testBit TCB = true ∧ (linkControl cb).testBit CB = (!cb) ∧
    (linkControl cb).testBit LIE = false ∧ (linkControl cb).testBit RIE = false := by
  cases cb <;> decide

theorem Writes.wellFormed {w : Written} (h : Writes region c w) :
    WellFormed c.cb region.paddr (w.chunk.bursts.map Prod.snd) w.host := by
  have hlen : (w.chunk.bursts.map Prod.snd).length = w.chunk.burstsAlloc := by
    rw [List.length_map, h.counted]
  have hcontrol : ∀ i < (w.chunk.bursts.map Prod.snd).length,
      controlWord w.host i = dataControl c.cb (i + 1 = w.chunk.burstsAlloc) := by
    intro i hi
    rw [List.length_map] at hi
    exact (h.data i hi).1
  constructor
  case element =>
    intro i hi
    rw [List.length_map] at hi
    rw [(h.data i hi).2, List.getElem_map]
  case data =>
    intro i hi
    obtain ⟨hllp, htcb, hcb, -⟩ := dataControl_bits c.cb (i + 1 = w.chunk.burstsAlloc)
    rw [hcontrol i hi]
    exact ⟨hllp, htcb, hcb⟩
  case interrupt =>
    intro i hi
    obtain ⟨-, -, -, hlie, hrie⟩ := dataControl_bits c.cb (i + 1 = w.chunk.burstsAlloc)
    rw [hcontrol i hi, hlen]
    exact ⟨hlie, hrie⟩
  case link =>
    obtain ⟨hllp, htcb, hcb, -⟩ := linkControl_bits c.cb
    rw [hlen, h.link]
    exact ⟨hllp, htcb, hcb⟩
  case quiet =>
    obtain ⟨-, -, -, hlie, hrie⟩ := linkControl_bits c.cb
    rw [hlen, h.link]
    exact ⟨hlie, hrie⟩
  case pointer => rw [hlen, h.pointer]

/-- A buffer that agrees with the table up to the end of the link element has the same table. -/
theorem WellFormed.congr {cb : Bool} {paddr : UInt64} {bursts : List Fill.Burst} {lli lli' : Bytes}
    (h : WellFormed cb paddr bursts lli)
    (hsame : ∀ b, b + 4 ≤ (bursts.length + 1) * EDMA_LL_SZ → lli'.word b = lli.word b) :
    WellFormed cb paddr bursts lli' := by
  have helement : ∀ i ≤ bursts.length, controlWord lli' i = controlWord lli i ∧
      Lli.element lli' i = Lli.element lli i := by
    intro i hi
    refine element_congr fun b _ hb => hsame b (hb.trans ?_)
    exact Nat.mul_le_mul_right _ (Nat.succ_le_succ hi)
  constructor
  case element => exact fun i hi => (helement i hi.le).2.trans (h.element i hi)
  case data => exact fun i hi => by rw [(helement i hi.le).1]; exact h.data i hi
  case interrupt => exact fun i hi => by rw [(helement i hi.le).1]; exact h.interrupt i hi
  case link => rw [(helement _ (Nat.le_refl _)).1]; exact h.link
  case quiet => rw [(helement _ (Nat.le_refl _)).1]; exact h.quiet
  case pointer =>
    have hsar := congrArg Fill.Burst.sar (helement _ (Nat.le_refl _)).2
    exact hsar.trans h.pointer

/-- The table that a call leaves, and its copy. -/
structure Fits (region : Region) (c : Chunk) (w : Written) : Prop where
  counted : w.chunk.burstsAlloc = w.chunk.bursts.length
  pos : 1 ≤ w.chunk.burstsAlloc
  host : WellFormed c.cb region.paddr (w.chunk.bursts.map Prod.snd) w.host
  device : ∀ ll : Bytes, WellFormed c.cb region.paddr (w.chunk.bursts.map Prod.snd)
    (ll.copy 0 (copied w.chunk) w.host)
  contained : ∀ i < w.chunk.burstsAlloc, (i + 1) * EDMA_LL_SZ ≤ copied w.chunk
  linkContained : w.chunk.burstsAlloc * EDMA_LL_SZ + llpSize ≤ copied w.chunk
  insideHost : copied w.chunk ≤ EDMA_CHUNK_SIZE
  insideRegion : copied w.chunk ≤ region.sz

/-- **A table is well formed, and fits.** Merging keeps the count in step with the list, and
`ll_max` leaves room for the link element. -/
theorem table_fits {llMax : Nat} (hne : c.bursts ≠ []) (hcount : c.burstsAlloc = c.bursts.length)
    (hmax : c.burstsAlloc ≤ llMax) (hll : (llMax : Int) = region.sz / EDMA_LL_SZ - 1)
    (hhost : region.sz ≤ EDMA_CHUNK_SIZE) :
    let w := writeChunk dir region size c pool host
    if region.mapped then w.ret = 0 ∧ Fits region c w else w = ⟨-EINVAL, c, pool, host⟩ := by
  intro w
  split
  case isFalse hmapped => exact writeChunk_refused (.inl (by simpa using hmapped))
  case isTrue hmapped =>
    have hw : Writes region c w := writeChunk_writes hmapped hne hcount
    have hroom : (w.chunk.burstsAlloc + 1) * EDMA_LL_SZ ≤ region.sz := by
      have hle := hw.le
      rw [EDMA_LL_SZ] at hll ⊢
      omega
    have hcopied : copied w.chunk = (w.chunk.burstsAlloc + 1) * EDMA_LL_SZ :=
      Nat.mod_eq_of_lt ((hroom.trans hhost).trans_lt (by decide))
    have htable := hw.wellFormed
    refine ⟨hw.ret, hw.counted, hw.pos, htable, fun ll => htable.congr fun b hb => ?_, ?_, ?_, ?_, ?_⟩
    · rw [List.length_map, ← hw.counted] at hb
      rw [Bytes.word_copy_inside (Nat.zero_le b) (by rw [hcopied]; omega), Nat.sub_zero]
    · intro i hi
      rw [hcopied, EDMA_LL_SZ]
      omega
    · rw [hcopied, EDMA_LL_SZ, llpSize]
      omega
    · exact hcopied.trans_le (hroom.trans hhost)
    · exact hcopied.trans_le hroom

end Table

/-- What the channel setup computes. -/
theorem llMax_eq {region : Region} (hroom : EDMA_LL_SZ ≤ region.sz) (hhost : region.sz ≤ EDMA_CHUNK_SIZE) :
    ((llMax region).toNat : Int) = region.sz / EDMA_LL_SZ - 1 := by
  rw [EDMA_LL_SZ] at hroom
  rw [EDMA_CHUNK_SIZE] at hhost
  have hsub : (llMax region).toNat = region.sz / 24 - 1 := by
    rw [llMax, EDMA_LL_SZ, UInt32.toNat_sub, UInt32.toNat_ofNat', UInt32.toNat_one]
    omega
  rw [hsub, EDMA_LL_SZ]
  omega

/-- Three bursts, of which the second continues the first, in a region of 4 KiB. -/
theorem three_bursts_fit :
    let region : Region := ⟨0x4000, true, 4096⟩
    let c : Chunk := ⟨[(.pool 0, ⟨0x10000, 0, 4096⟩), (.pool 1, ⟨0x11000, 4096, 4096⟩),
      (.pool 2, ⟨0x20000, 8192, 4096⟩)], 3, 12288, true⟩
    let w := writeChunk .read region 3 c [] fun _ => 0
    w.ret = 0 ∧ Fits region c w := by
  intro region c w
  have hmax : c.burstsAlloc ≤ (llMax region).toNat := by decide
  have h := @table_fits .read region 3 c [] (fun _ => 0) (llMax region).toNat (List.cons_ne_nil _ _) rfl
    hmax (llMax_eq (by decide) (by decide)) (by decide)
  rwa [if_pos rfl] at h

/-! ### Tables that are filled -/

/-- On the given side, `b` starts where `a` ends. -/
def Follows (side : Fill.Burst → Nat) (a b : Fill.Burst) : Prop := side a + a.sz = side b

/-- The size of a burst has 32 bits, and it passes the end of neither address space. -/
structure Placed (dir : Dir) (b : Fill.Burst) : Prop where
  small : b.sz < 2 ^ 32
  host : b.host dir + b.sz ≤ u64Max
  dev : b.dev dir + b.sz ≤ u64Max

/-- Each burst starts in the device where the one before it ends, and the next one will start at
`addr`. -/
structure Sequential (dir : Dir) (bursts : List Fill.Burst) (addr : Nat) : Prop where
  chain : bursts.IsChain (Follows (Fill.Burst.dev dir))
  last : ∀ b ∈ bursts.getLast?, b.dev dir + b.sz = addr
  placed : ∀ b ∈ bursts, Placed dir b

section Sequential
variable {dir : Dir} {bursts : List Fill.Burst} {b : Fill.Burst} {addr : Nat} {e : Fill.SgEntry}

theorem sequential_nil : Sequential dir [] addr where
  chain := List.isChain_nil
  last := by rintro _ ⟨⟩
  placed := by rintro _ ⟨⟩

theorem sequential_concat : Sequential dir (bursts ++ [b]) addr ↔
    Sequential dir bursts (b.dev dir) ∧ b.dev dir + b.sz = addr ∧ Placed dir b := by
  constructor
  · rintro ⟨hchain, hlast, hplaced⟩
    rw [List.isChain_append] at hchain
    have hb : b ∈ bursts ++ [b] := List.mem_append_right _ (List.mem_singleton_self b)
    refine ⟨⟨hchain.1, fun x hx => hchain.2.2 x hx b rfl, fun x hx => ?_⟩, ?_, hplaced b hb⟩
    · exact hplaced x (List.mem_append_left _ hx)
    · exact hlast b (by rw [List.getLast?_concat]; rfl)
  · rintro ⟨h, hend, hplaced⟩
    constructor
    case chain =>
      rw [List.isChain_append]
      refine ⟨h.chain, List.isChain_singleton b, ?_⟩
      rintro x hx y ⟨⟩
      exact h.last x hx
    case last =>
      rw [List.getLast?_concat]
      rintro _ ⟨⟩
      exact hend
    case placed =>
      intro x hx
      rcases List.mem_append.mp hx with hx | hx
      · exact h.placed x hx
      · rw [List.mem_singleton.mp hx]
        exact hplaced

/-- The chunk of a fill, with the device address that comes next. -/
def Ordered (dir : Dir) (c : Chunk) (addr : Nat) : Prop :=
  c.burstsAlloc = c.bursts.length ∧ Sequential dir (c.bursts.map Prod.snd) addr

theorem extendSgBurst_ordered {c : Chunk} {last : Node × Fill.Burst} (h : Ordered dir c addr)
    (hlast : Batch.lastDataBurst c = some last)
    (hmerge : Fill.canMergeSgBurst dir last.2 e.addr addr e.len = true) (hhost : e.addr + e.len ≤ u64Max)
    (hdev : addr + e.len ≤ u64Max) :
    Ordered dir (Batch.extendSgBurst c last e.len) (addr + e.len) := by
  have hsplit : c.bursts = c.bursts.dropLast ++ [last] := (List.dropLast_append_getLast? last hlast).symm
  obtain ⟨hcount, hseq⟩ := h
  obtain ⟨htouch, hnext⟩ := Fill.touches_of_canMerge hmerge
  have hsmall : e.len ≤ u32Max - last.2.sz := by
    simp only [Fill.canMergeSgBurst, decide_eq_true_eq] at hmerge
    exact hmerge.2.1
  rw [hsplit, List.map_append, List.map_singleton, sequential_concat] at hseq
  obtain ⟨hinit, -, hplaced⟩ := hseq
  have hsz := hplaced.small
  refine ⟨?_, ?_⟩
  · have hlen := congrArg List.length hsplit
    rw [List.length_append] at hlen
    simp only [Batch.extendSgBurst, List.length_append, List.length_singleton] at hlen ⊢
    omega
  · rw [Batch.extendSgBurst, List.map_append, List.map_singleton, sequential_concat]
    have hhost' : ({last.2 with sz := last.2.sz + e.len} : Fill.Burst).host dir = last.2.host dir := by
      cases dir <;> rfl
    have hdev' : ({last.2 with sz := last.2.sz + e.len} : Fill.Burst).dev dir = last.2.dev dir := by
      cases dir <;> rfl
    rw [hdev']
    refine ⟨hinit, by rw [← Nat.add_assoc, hnext], ?_, ?_, ?_⟩
    · rw [u32Max] at hsmall
      show last.2.sz + e.len < 2 ^ 32
      omega
    · rw [hhost', ← Nat.add_assoc, htouch]
      exact hhost
    · rw [hdev', ← Nat.add_assoc, hnext]
      exact hdev

theorem initSgBurst_ordered {c : Chunk} {node : Node} (h : Ordered dir c addr)
    (hhost : e.addr + e.len ≤ u64Max) (hdev : addr + e.len ≤ u64Max) :
    Ordered dir (Batch.initSgBurst dir c node e.addr addr e.len) (addr + e.len) := by
  obtain ⟨hcount, hseq⟩ := h
  have hsmall : e.len < 2 ^ 32 := e.dmaLen.toNat_lt
  have hbursts : (Batch.initSgBurst dir c node e.addr addr e.len).bursts =
      c.bursts ++ [(node, Batch.entryBurst dir e addr)] := by
    cases dir <;> rfl
  have hburst : (Batch.entryBurst dir e addr).host dir = e.addr ∧
      (Batch.entryBurst dir e addr).dev dir = addr ∧ (Batch.entryBurst dir e addr).sz = e.len := by
    cases dir <;> exact ⟨rfl, rfl, rfl⟩
  obtain ⟨hhost', hdev', hsz⟩ := hburst
  refine ⟨?_, ?_⟩
  · simp only [Batch.initSgBurst, List.length_append, List.length_singleton, hcount]
  · rw [hbursts, List.map_append, List.map_singleton, sequential_concat, hdev', hsz]
    refine ⟨hseq, rfl, ?_, ?_, ?_⟩
    · rwa [hsz]
    · rwa [hhost', hsz]
    · rwa [hdev', hsz]

theorem placeEntry_ordered {p q : Batch.Progress} (hplace : Batch.placeEntry dir e p = some q)
    (h : Ordered dir p.chunk p.addr) (hhost : e.addr + e.len ≤ u64Max)
    (hdev : p.addr + e.len ≤ u64Max) : Ordered dir q.chunk (p.addr + e.len) := by
  unfold Batch.placeEntry at hplace
  split at hplace
  · next last hlast =>
    obtain rfl := Option.some.inj hplace
    obtain ⟨hget, hmerge⟩ := Option.filter_eq_some_iff.mp hlast
    exact extendSgBurst_ordered h hget hmerge hhost hdev
  · split at hplace
    · obtain rfl := Option.some.inj hplace
      exact initSgBurst_ordered h hhost hdev
    · obtain ⟨r, -, rfl⟩ := Option.map_eq_some_iff.mp hplace
      exact initSgBurst_ordered h hhost hdev

theorem fillLoop_ordered {need : Nat} {sg : List Fill.SgEntry} {p : Batch.Progress}
    (h : Ordered dir p.chunk p.addr) :
    Ordered dir (Batch.fillLoop dir need sg p).1.chunk (Batch.fillLoop dir need sg p).1.addr := by
  induction sg generalizing p with
  | nil => exact h
  | cons e sg ih =>
    unfold Batch.fillLoop
    split
    · split
      · exact h
      · next hin =>
        have hlen := Batch.len_le e
        cases hplace : Batch.placeEntry dir e p with
        | none => exact h
        | some q =>
          have hq := placeEntry_ordered hplace h (by omega) (by omega)
          rw [← (Batch.placeEntry_same hplace).2.1] at hq
          exact ih hq
    · exact h

/-- A call that does not fail leaves the chunk ordered up to the address that it leaves. -/
theorem fillSgBursts_ordered {ll batchMax : Nat} {supply : Supply} {c : Chunk} {cur : Cursor}
    {allocAccum : UInt32} (h : Ordered dir c cur.addr) :
    ∃ addr, Ordered dir (fillSgBursts dir ll batchMax supply c cur allocAccum).chunk addr ∧
      (0 ≤ (fillSgBursts dir ll batchMax supply c cur allocAccum).ret →
        (fillSgBursts dir ll batchMax supply c cur allocAccum).cur.addr = addr) := by
  by_cases hnothing : cur.sg = [] ∨ cur.remaining = 0 ∨ ll ≤ c.burstsAlloc ∨ batchMax = 0
  · rw [Batch.fillSgBursts_nothing hnothing]
    exact ⟨cur.addr, h, fun _ => rfl⟩
  · have hcall := @Batch.fillSgBursts_some dir ll batchMax supply c cur allocAccum hnothing
    have hloop := @fillLoop_ordered dir (Batch.need ll batchMax c cur) cur.sg
      (Batch.start ll batchMax supply c cur allocAccum) h
    have hfail : ¬(0 : Int) ≤ -EINVAL := by decide
    generalize Batch.fillLoop dir (Batch.need ll batchMax c cur) cur.sg
      (Batch.start ll batchMax supply c cur allocAccum) = r at hcall hloop
    dsimp only at hcall
    refine ⟨r.1.addr, ?_⟩
    rw [hcall]
    split
    · exact ⟨hloop, fun hret => absurd hret hfail⟩
    · split
      · exact ⟨hloop, fun hret => absurd hret hfail⟩
      · exact ⟨hloop, fun _ => rfl⟩

/-- Between two calls of `dw_edma_fill_sg_bursts` for one table: the calls before have not failed,
and the next one goes on where the last one stopped. -/
inductive Filling (dir : Dir) (ll : Nat) : Chunk → Cursor → Prop
  | new (sz : Nat) (cb : Bool) (cur : Cursor) : Filling dir ll ⟨[], 0, sz, cb⟩ cur
  | fill {c : Chunk} {cur : Cursor} (h : Filling dir ll c cur) (batchMax : Nat) (supply : Supply)
      (allocAccum : UInt32) (hret : 0 ≤ (fillSgBursts dir ll batchMax supply c cur allocAccum).ret) :
      Filling dir ll (fillSgBursts dir ll batchMax supply c cur allocAccum).chunk
        (fillSgBursts dir ll batchMax supply c cur allocAccum).cur

theorem Filling.ordered {ll : Nat} {c : Chunk} {cur : Cursor} (h : Filling dir ll c cur) :
    Ordered dir c cur.addr := by
  induction h with
  | new sz cb cur => exact ⟨rfl, sequential_nil⟩
  | fill _ batchMax supply allocAccum hret ih =>
    obtain ⟨addr, hordered, haddr⟩ := @fillSgBursts_ordered dir ll batchMax supply _ _ allocAccum ih
    rw [haddr hret]
    exact hordered

end Sequential

/-! ### What the table moves -/

/-- What `contd` asks, as long as the sum does not wrap. -/
abbrev Touches (dir : Dir) : Fill.Burst → Fill.Burst → Prop := Follows (Fill.Burst.host dir)

/-- Bursts that touch on the host side, one after the other, have fewer than 2^32 bytes. -/
def Short (dir : Dir) (bursts : List Fill.Burst) : Prop :=
  ∀ pre run post, bursts = pre ++ run ++ post → run.IsChain (Touches dir) →
    total Fill.Burst.sz run < 2 ^ 32

section Short
variable {dir : Dir} {a b : Fill.Burst} {rest : List Fill.Burst}

/-- `a` with the bytes of `b`. -/
def join (a b : Fill.Burst) : Fill.Burst := {a with sz := a.sz + b.sz}

theorem isChain_join {side : Fill.Burst → Nat} (hside : side (join a b) = side a)
    (h : Follows side a b) {run : List Fill.Burst} :
    (join a b :: run).IsChain (Follows side) ↔ (b :: run).IsChain (Follows side) := by
  cases run with
  | nil => simp only [List.isChain_singleton]
  | cons c run =>
    have hend : side (join a b) + (join a b).sz = side b + b.sz := by
      rw [hside, ← h]
      exact (Nat.add_assoc _ _ _).symm
    simp only [List.isChain_cons_cons, Follows, hend]

theorem host_join : (join a b).host dir = a.host dir := by cases dir <;> rfl

theorem dev_join : (join a b).dev dir = a.dev dir := by cases dir <;> rfl

theorem short_nil : Short dir [] := by
  intro pre run post heq _
  rw [(List.append_eq_nil_iff.mp (List.append_eq_nil_iff.mp heq.symm).1).2, total_nil]
  exact Nat.two_pow_pos 32

theorem short_of_append {pre post : List Fill.Burst} (h : Short dir (pre ++ rest ++ post)) :
    Short dir rest := by
  intro pre' run post' heq hchain
  refine h (pre ++ pre') run (post' ++ post) ?_ hchain
  rw [heq]
  simp only [List.append_assoc]

theorem short_tail (h : Short dir (a :: rest)) : Short dir rest :=
  @short_of_append dir rest [a] [] (by rwa [List.append_nil, List.singleton_append])

/-- A list of short runs, and a short run in front. -/
theorem short_cons : Short dir (a :: rest) ↔
    Short dir rest ∧ ∀ run post, rest = run ++ post → (a :: run).IsChain (Touches dir) →
      a.sz + total Fill.Burst.sz run < 2 ^ 32 := by
  constructor
  · intro h
    refine ⟨short_tail h, fun run post heq hchain => ?_⟩
    have hrun := h [] (a :: run) post (by rw [heq]; rfl) hchain
    rwa [total_cons] at hrun
  · rintro ⟨hrest, hfront⟩ pre run post heq hchain
    cases pre with
    | nil =>
      cases run with
      | nil => exact Nat.two_pow_pos 32
      | cons x run =>
        obtain ⟨rfl, htail⟩ := List.cons.inj heq
        rw [total_cons]
        exact hfront run post htail hchain
    | cons x pre =>
      obtain ⟨rfl, htail⟩ := List.cons.inj heq
      exact hrest pre run post htail hchain

/-- Joining bursts that touch does not change the runs. -/
theorem short_join (h : Touches dir a b) : Short dir (join a b :: rest) ↔ Short dir (a :: b :: rest) := by
  rw [@short_cons dir (join a b), @short_cons dir a, @short_cons dir b]
  have hsz : (join a b).sz = a.sz + b.sz := rfl
  constructor
  · rintro ⟨hrest, hjoin⟩
    refine ⟨⟨hrest, fun run post heq hchain => ?_⟩, fun run post heq hchain => ?_⟩
    · have hrun := hjoin run post heq ((isChain_join host_join h).mpr hchain)
      omega
    · cases run with
      | nil =>
        have hrun := hjoin [] rest rfl (List.isChain_singleton _)
        rw [total_nil] at hrun ⊢
        omega
      | cons x run =>
        obtain ⟨rfl, htail⟩ := List.cons.inj heq
        rw [List.isChain_cons_cons] at hchain
        have hrun := hjoin run post htail ((isChain_join host_join h).mpr hchain.2)
        rw [total_cons]
        omega
  · rintro ⟨⟨hrest, -⟩, hfront⟩
    refine ⟨hrest, fun run post heq hchain => ?_⟩
    have hchain' : (a :: b :: run).IsChain (Touches dir) :=
      List.isChain_cons_cons.mpr ⟨h, (isChain_join host_join h).mp hchain⟩
    have hrun := hfront (b :: run) post (by rw [heq, List.cons_append]) hchain'
    rw [total_cons] at hrun
    omega

/-- Between bursts that do not touch a run ends. -/
theorem short_apart (h : ¬Touches dir a b) (ha : a.sz < 2 ^ 32) :
    Short dir (a :: b :: rest) ↔ Short dir (b :: rest) := by
  rw [@short_cons dir a]
  refine and_iff_left fun run post heq hchain => ?_
  cases run with
  | nil => exact ha
  | cons x run =>
    obtain ⟨rfl, -⟩ := List.cons.inj heq
    rw [List.isChain_cons_cons] at hchain
    exact absurd hchain.1 h

end Short

section Merge
variable {dir : Dir} {a b : Fill.Burst} {ptr curr : Node × Fill.Burst}
  {rest : List (Node × Fill.Burst)}

theorem contd_iff (h : Placed dir a) : contd dir a b = true ↔ Touches dir a b := by
  have hhost := h.host
  rw [u64Max] at hhost
  cases dir with
  | write =>
    simp only [Fill.Burst.host] at hhost
    simp only [contd, decide_eq_true_eq, Follows, Fill.Burst.host]
    omega
  | read =>
    simp only [Fill.Burst.host] at hhost
    simp only [contd, decide_eq_true_eq, Follows, Fill.Burst.host]
    omega

theorem bytes_cons (a : Fill.Burst) (bursts : List Fill.Burst) :
    bytes dir (a :: bursts) = bytes dir [a] ++ bytes dir bursts := by
  rw [← Fill.bytes_append, List.singleton_append]

theorem length_bytes (bursts : List Fill.Burst) :
    (bytes dir bursts).length = total Fill.Burst.sz bursts := by
  induction bursts with
  | nil => rfl
  | cons a bursts ih =>
    rw [bytes_cons, List.length_append, ih, Fill.bytes_singleton, total_cons, span, List.length_map,
      List.length_range]

/-- Bursts that touch on both sides move what they move together. -/
theorem bytes_join (hhost : Touches dir a b) (hdev : Follows (Fill.Burst.dev dir) a b) :
    bytes dir [join a b] = bytes dir [a] ++ bytes dir [b] := by
  rw [Fill.bytes_singleton, Fill.bytes_singleton, Fill.bytes_singleton, host_join, dev_join, ← hhost,
    ← hdev]
  exact span_add ..

theorem placed_join (hhost : Touches dir a b) (hdev : Follows (Fill.Burst.dev dir) a b)
    (hsum : a.sz + b.sz < 2 ^ 32) (h : Placed dir b) : Placed dir (join a b) where
  small := hsum
  host := by
    have hend : a.host dir + (a.sz + b.sz) = b.host dir + b.sz := by rw [← hhost, Nat.add_assoc]
    rw [host_join]
    exact hend.trans_le h.host
  dev := by
    have hend : a.dev dir + (a.sz + b.sz) = b.dev dir + b.sz := by rw [← hdev, Nat.add_assoc]
    rw [dev_join]
    exact hend.trans_le h.dev

theorem short_singleton (h : a.sz < 2 ^ 32) : Short dir [a] := by
  refine short_cons.mpr ⟨short_nil, fun run post heq _ => ?_⟩
  rw [(List.append_eq_nil_iff.mp heq.symm).1, total_nil]
  exact h

/-- Merging loses bytes when a sum wraps, and never gains any. -/
theorem mergeLoop_total_le (ptr : Node × Fill.Burst) (rest : List (Node × Fill.Burst)) :
    total Fill.Burst.sz ((mergeLoop dir ptr rest).1.map Prod.snd) ≤
      total Fill.Burst.sz ((ptr :: rest).map Prod.snd) := by
  induction rest generalizing ptr with
  | nil => exact Nat.le_refl _
  | cons curr rest ih =>
    unfold mergeLoop
    simp only [List.map_cons, total_cons] at ih ⊢
    split
    · have hle := ih (absorb ptr curr)
      have hmod := Nat.mod_le (ptr.2.sz + curr.2.sz) (2 ^ 32)
      simp only [absorb] at hle
      dsimp only [absorb]
      omega
    · have hle := ih curr
      simp only [List.map_cons, total_cons]
      omega

/-- **Merging keeps the bytes of short runs, and of no others.** -/
theorem mergeLoop_bytes_iff
    (hchain : ((ptr :: rest).map Prod.snd).IsChain (Follows (Fill.Burst.dev dir)))
    (hplaced : ∀ b ∈ (ptr :: rest).map Prod.snd, Placed dir b) :
    bytes dir ((mergeLoop dir ptr rest).1.map Prod.snd) = bytes dir ((ptr :: rest).map Prod.snd) ↔
      Short dir ((ptr :: rest).map Prod.snd) := by
  induction rest generalizing ptr with
  | nil => exact iff_of_true rfl (short_singleton (hplaced ptr.2 List.mem_cons_self).small)
  | cons curr rest ih =>
    simp only [List.map_cons] at hchain hplaced ih ⊢
    have hptr := hplaced ptr.2 List.mem_cons_self
    have htail : ∀ b ∈ curr.2 :: rest.map Prod.snd, Placed dir b :=
      fun b hb => hplaced b (List.mem_cons_of_mem _ hb)
    have hcurr := htail curr.2 List.mem_cons_self
    obtain ⟨hdev, hrest⟩ := List.isChain_cons_cons.mp hchain
    unfold mergeLoop
    split
    · next hcontd =>
      have htouch := (contd_iff hptr).mp hcontd
      by_cases hsum : ptr.2.sz + curr.2.sz < 2 ^ 32
      · have habsorb : (absorb ptr curr).2 = join ptr.2 curr.2 := by
          rw [absorb, join, Nat.mod_eq_of_lt hsum]
        have hih := @ih (absorb ptr curr)
        rw [habsorb] at hih
        have hbytes : bytes dir (join ptr.2 curr.2 :: rest.map Prod.snd) =
            bytes dir (ptr.2 :: curr.2 :: rest.map Prod.snd) := by
          rw [bytes_cons, bytes_join htouch hdev, List.append_assoc, ← bytes_cons, ← bytes_cons]
        rw [← hbytes, ← short_join htouch]
        refine hih ((isChain_join dev_join hdev).mpr hrest) fun b hb => ?_
        rcases List.mem_cons.mp hb with rfl | hb
        · exact placed_join htouch hdev hsum hcurr
        · exact htail b (List.mem_cons_of_mem _ hb)
      · -- the sum wraps, and so many bytes do not come back
        have hlost := @mergeLoop_total_le dir (absorb ptr curr) rest
        have hmod : (absorb ptr curr).2.sz < ptr.2.sz + curr.2.sz :=
          lt_of_lt_of_le (Nat.mod_lt _ (Nat.two_pow_pos 32)) (Nat.le_of_not_lt hsum)
        rw [List.map_cons, total_cons] at hlost
        refine iff_of_false (fun heq => ?_) fun hshort => hsum ?_
        · have hlen := congrArg List.length heq
          rw [length_bytes, length_bytes, total_cons, total_cons] at hlen
          dsimp only at hlen
          omega
        · have hrun := hshort [] [ptr.2, curr.2] (rest.map Prod.snd) rfl
            (List.isChain_cons_cons.mpr ⟨htouch, List.isChain_singleton _⟩)
          rwa [total_cons, total_cons, total_nil, Nat.add_zero] at hrun
    · next hcontd =>
      have hapart : ¬Touches dir ptr.2 curr.2 := fun h => hcontd ((contd_iff hptr).mpr h)
      rw [short_apart hapart hptr.small, List.map_cons, bytes_cons,
        @bytes_cons dir ptr.2 (curr.2 :: rest.map Prod.snd), List.append_cancel_left_eq]
      exact ih hrest htail

theorem mergeLoop_truncate (h : ∀ b ∈ ptr :: rest, truncate b.2 = b.2) :
    ∀ b ∈ (mergeLoop dir ptr rest).1, truncate b.2 = b.2 := by
  induction rest generalizing ptr with
  | nil => exact h
  | cons curr rest ih =>
    have hptr := h ptr List.mem_cons_self
    have htail : ∀ b ∈ curr :: rest, truncate b.2 = b.2 := fun b hb => h b (List.mem_cons_of_mem _ hb)
    unfold mergeLoop
    split
    · refine ih fun b hb => ?_
      rcases List.mem_cons.mp hb with rfl | hb
      · rw [truncate, Fill.Burst.mk.injEq] at hptr
        simp only [absorb, truncate, hptr.1, hptr.2.1, Nat.mod_mod]
      · exact htail b (List.mem_cons_of_mem _ hb)
    · intro b hb
      rcases List.mem_cons.mp hb with rfl | hb
      · exact hptr
      · exact ih htail b hb

theorem Placed.truncate_eq (h : Placed dir a) : truncate a = a := by
  have hhost := h.host
  have hdev := h.dev
  rw [u64Max] at hhost hdev
  have haddrs : a.sar < 2 ^ 64 ∧ a.dar < 2 ^ 64 := by
    cases dir <;> simp only [Fill.Burst.host, Fill.Burst.dev] at hhost hdev <;> omega
  rw [truncate, Nat.mod_eq_of_lt haddrs.1, Nat.mod_eq_of_lt haddrs.2, Nat.mod_eq_of_lt h.small]

end Merge

/-- The table has the bursts of the chunk. -/
theorem Writes.table_eq {region : Region} {c : Chunk} {w : Written} (h : Writes region c w)
    (hwhole : ∀ b ∈ w.chunk.bursts, truncate b.2 = b.2) : table w = w.chunk.bursts.map Prod.snd := by
  refine List.ext_getElem ?_ fun i hi hi' => ?_
  · rw [table, List.length_map, List.length_range, List.length_map, h.counted]
  · rw [List.length_map] at hi'
    simp only [table, List.getElem_map, List.getElem_range]
    rw [(h.data i hi').2]
    exact hwhole _ (List.getElem_mem hi')

section Table
variable {dir : Dir} {region : Region} {ll batchMax size : Nat} {supply : Supply} {c : Chunk}
  {cur : Cursor} {allocAccum : UInt32} {pool : List Nat} {host : Bytes} {addr : Nat}

/-- The table of an ordered chunk. -/
theorem table_bytes_iff (h : Ordered dir c addr) (hmapped : region.mapped = true) :
    bytes dir (table (writeChunk dir region size c pool host)) = bytes dir c.plain.bursts ↔
      Short dir c.plain.bursts := by
  obtain ⟨hcount, hseq⟩ := h
  rw [Chunk.plain]
  dsimp only
  cases hlist : c.bursts with
  | nil =>
    rw [writeChunk_refused (.inr hlist), table]
    dsimp only
    rw [hcount, hlist]
    exact iff_of_true rfl short_nil
  | cons ptr rest =>
    have hw : Writes region c (writeChunk dir region size c pool host) :=
      writeChunk_writes hmapped (by rw [hlist]; exact List.cons_ne_nil _ _) hcount
    have hbursts : (writeChunk dir region size c pool host).chunk.bursts = (mergeLoop dir ptr rest).1 := by
      rw [writeChunk_eq hmapped hlist]
    rw [hlist] at hseq
    rw [hw.table_eq, hbursts]
    · exact mergeLoop_bytes_iff hseq.chain hseq.placed
    · rw [hbursts]
      exact mergeLoop_truncate fun b hb => (hseq.placed b.2 (List.mem_map_of_mem hb)).truncate_eq

/-- **A table moves what its bursts were to move** just when the bursts that are merged for it
have fewer than 2^32 bytes together. -/
theorem bytes_iff (hfilling : Filling dir ll c cur) (hmapped : region.mapped = true) :
    let filled := (fillSgBursts dir ll batchMax supply c cur allocAccum).chunk
    bytes dir (table (writeChunk dir region size filled pool host)) = bytes dir filled.plain.bursts ↔
      Short dir filled.plain.bursts := by
  obtain ⟨addr, hordered, -⟩ := @fillSgBursts_ordered dir ll batchMax supply c cur allocAccum
    hfilling.ordered
  exact table_bytes_iff hordered hmapped

end Table

/-- A page. -/
theorem page_moved :
    let filled := (fillSgBursts .write 169 169 ⟨1, [0], [], by decide⟩ ⟨[], 0, 4096, true⟩
      ⟨[⟨0x10000, 4096⟩], 1, 0x8000⟩ 0).chunk
    bytes .write (table (writeChunk .write ⟨0x4000, true, 4096⟩ 1 filled [] fun _ => 0)) =
      bytes .write filled.plain.bursts := by
  intro filled
  refine (bytes_iff (.new 4096 true _) rfl).mpr ?_
  have hone : filled.plain.bursts = [⟨0x8000, 0x10000, 4096⟩] := by decide
  rw [hone]
  exact short_singleton (by decide)

/-- Two entries of 2 GiB, one behind the other: they are two bursts, and the one that they are
merged to has size 0. -/
theorem wrapped_not_moved :
    let filled := (fillSgBursts .write 169 169 ⟨2, [0, 1], [], by decide⟩ ⟨[], 0, 4096, true⟩
      ⟨[⟨0x100000000, 0x80000000⟩, ⟨0x180000000, 0x80000000⟩], 2, 0⟩ 0).chunk
    bytes .write (table (writeChunk .write ⟨0x4000, true, 4096⟩ 2 filled [] fun _ => 0)) ≠
      bytes .write filled.plain.bursts := by
  intro filled h
  have hlen := congrArg List.length h
  rw [length_bytes, length_bytes] at hlen
  revert hlen
  decide

end DxNpuDriver.Edma.Lli
