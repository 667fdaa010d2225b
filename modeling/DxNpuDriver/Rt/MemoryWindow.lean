import DxNpuDriver.Kernel
import Mathlib.Algebra.Order.Ring.Int
import Mathlib.Tactic.Common

/-! The window of device memory (`dxrt_drv_message.c`).

`dxrt_write_mem`, `dxrt_read_mem` and `dxrt_cpu_cache_flush` take a base, an offset and a
size from user space and compare their sums with the memory the device has reported. The
sums are 64-bit sums: one that comes round stands for a low address, and an access that
ends past the top of the address space is taken for one that ends inside the window.
`dxrt_addr_end`, which the error messages use, keeps to the top instead.

`guarded_iff` says exactly which requests slip through. -/
namespace DxNpuDriver.Rt.MemoryWindow

/-- What the three functions look at. -/
structure Device where
  /-- `type` is DX_STD, and the build is the one with IS_STANDALONE. -/
  std : Bool
  standalone : Bool
  recovering : Bool
  memAddr : BitVec 64
  memSize : BitVec 64
  /-- `dxrt_fault_inject_skip_addr_check`. -/
  skipAddrCheck : Bool

/-- `dxrt_req_meminfo_t`; the `dxrt_meminfo_t` of the cache flush has no channel. -/
structure MemInfo where
  data : BitVec 64
  base : BitVec 64
  offset : BitVec 32
  size : BitVec 32
  ch : BitVec 32

/-- `meminfo.base + meminfo.offset`. -/
def MemInfo.ep (m : MemInfo) : BitVec 64 := m.base + m.offset.setWidth 64

/-- What the memory of the user holds where `msg->data` points: NULL, an address that
faults, or a request. -/
inductive Arg where
  | null
  | fault
  | info (m : MemInfo)

/-- The access a request comes to: a DMA of `size` bytes at the device address `ep`, or a
copy at an offset into `dma_buf`. -/
inductive Access where
  | dma (ep : BitVec 64) (size : BitVec 32)
  | dmaBuf (offset size : BitVec 32)

structure Outcome where
  ret : Ret
  access : Option Access

/-- The address check: the sums, as they come out, leave the window from `low` on. -/
def outside (low : BitVec 64) (dev : Device) (m : MemInfo) : Bool :=
  decide (m.ep < low) || decide (dev.memAddr + dev.memSize < m.ep + m.size.setWidth 64)

/-- The check of `dxrt_write_mem`, with its fault injection. -/
def writeMemPasses (dev : Device) (m : MemInfo) : Bool :=
  !outside dev.memAddr dev m || dev.skipAddrCheck

/-- The check of `dxrt_read_mem`, which may begin 1 MiB below the window. -/
def readMemPasses (dev : Device) (m : MemInfo) : Bool :=
  !outside (dev.memAddr - 0x100000) dev m || dev.skipAddrCheck

/-- The check of `dxrt_cpu_cache_flush`. -/
def cpuCacheFlushPasses (dev : Device) (m : MemInfo) : Bool := !outside dev.memAddr dev m

/-- `MAX_PCIE_CH_NUM`. -/
def maxPcieChNum : Nat := 3

/-- `dxrt_write_mem`, with what the DMA returns and whether the copy into `dma_buf`
faults. -/
def writeMem (dev : Device) (arg : Arg) (dma : Int) (fault : Bool) : Outcome :=
  if dev.recovering then ⟨.err .EBUSY, none⟩
  else match arg with
    | .null => ⟨.ok, none⟩
    | .fault => ⟨.err .EFAULT, none⟩
    | .info m =>
      if maxPcieChNum < m.ch.toNat then ⟨.err .EINVAL, none⟩
      else if !writeMemPasses dev m then ⟨.err .EINVAL, none⟩
      else if dev.standalone && dev.std then
        ⟨if fault then .err .EFAULT else .ok, some (.dmaBuf m.offset m.size)⟩
      else if m.data.toNat = 0 then ⟨.ok, none⟩
      else ⟨if dma = m.size.toNat then .ok else .err .ECOMM, some (.dma m.ep m.size)⟩

/-- `dxrt_read_mem`. -/
def readMem (dev : Device) (arg : Arg) (dma : Int) (fault : Bool) : Outcome :=
  if dev.recovering then ⟨.err .EBUSY, none⟩
  else match arg with
    | .null => ⟨.ok, none⟩
    | .fault => ⟨.err .EFAULT, none⟩
    | .info m =>
      if maxPcieChNum < m.ch.toNat then ⟨.err .EINVAL, none⟩
      else if !readMemPasses dev m then ⟨.err .EINVAL, none⟩
      else if dev.std then
        ⟨if fault then .err .EFAULT else .ok, some (.dmaBuf m.offset m.size)⟩
      else if m.data.toNat = 0 then ⟨.ok, none⟩
      else ⟨if dma = m.size.toNat then .ok else .err .ECOMM, some (.dma m.ep m.size)⟩

/-- `dxrt_cpu_cache_flush`, which accesses nothing. -/
def cpuCacheFlush (dev : Device) : Arg → Ret
  | .null => .ok
  | .fault => .err .EFAULT
  | .info m => if cpuCacheFlushPasses dev m then .ok else .err .EINVAL

/-- A write reaches the device only past the check. -/
theorem writeMem_access {dev : Device} {m : MemInfo} {dma : Int} {fault : Bool} {a : Access}
    (h : (writeMem dev (.info m) dma fault).access = some a) : writeMemPasses dev m = true := by
  by_contra hpass
  simp only [Bool.not_eq_true] at hpass
  simp [writeMem, hpass] at h
  grind

/-- A read reaches the device only past the check. -/
theorem readMem_access {dev : Device} {m : MemInfo} {dma : Int} {fault : Bool} {a : Access}
    (h : (readMem dev (.info m) dma fault).access = some a) : readMemPasses dev m = true := by
  by_contra hpass
  simp only [Bool.not_eq_true] at hpass
  simp [readMem, hpass] at h
  grind

/-! ### The window, in integers -/

/-- Where the request ends. -/
def MemInfo.finish (m : MemInfo) : Nat := m.base.toNat + m.offset.toNat + m.size.toNat

/-- The request lies in the window from `low` on. -/
def Inside (low : Int) (dev : Device) (m : MemInfo) : Prop :=
  low ≤ m.base.toNat + m.offset.toNat ∧ m.finish ≤ dev.memAddr.toNat + dev.memSize.toNat

/-- The three checks let a request through only if it lies in the window. -/
structure Guarded (dev : Device) (m : MemInfo) : Prop where
  write : writeMemPasses dev m = true → Inside dev.memAddr.toNat dev m
  read : readMemPasses dev m = true → Inside (dev.memAddr.toNat - 0x100000) dev m
  flush : cpuCacheFlushPasses dev m = true → Inside dev.memAddr.toNat dev m

/-- The request goes past the top of the address space, and what comes round of it lies in
the window from `low` on. -/
def Slips (low : BitVec 64) (dev : Device) (m : MemInfo) : Prop :=
  2 ^ 64 ≤ m.finish ∧ low.toNat ≤ (m.base.toNat + m.offset.toNat) % 2 ^ 64 ∧
    m.finish - 2 ^ 64 ≤ dev.memAddr.toNat + dev.memSize.toNat

instance (low : BitVec 64) (dev : Device) (m : MemInfo) : Decidable (Slips low dev m) :=
  inferInstanceAs (Decidable (_ ∧ _ ∧ _))

/-- What the check compares. -/
theorem outside_eq_false_iff {low : BitVec 64} {dev : Device} {m : MemInfo}
    (hwindow : dev.memAddr.toNat + dev.memSize.toNat < 2 ^ 64) :
    outside low dev m = false ↔
      low.toNat ≤ (m.base.toNat + m.offset.toNat) % 2 ^ 64 ∧
      m.finish % 2 ^ 64 ≤ dev.memAddr.toNat + dev.memSize.toNat := by
  have hoffset := m.offset.isLt
  have hsize := m.size.isLt
  have hep : m.ep.toNat = (m.base.toNat + m.offset.toNat) % 2 ^ 64 := by
    rw [MemInfo.ep, BitVec.toNat_add, BitVec.toNat_setWidth]
    omega
  have hend : (m.ep + m.size.setWidth 64).toNat = m.finish % 2 ^ 64 := by
    rw [BitVec.toNat_add, BitVec.toNat_setWidth, hep, MemInfo.finish]
    omega
  have htop : (dev.memAddr + dev.memSize).toNat = dev.memAddr.toNat + dev.memSize.toNat := by
    rw [BitVec.toNat_add, Nat.mod_eq_of_lt hwindow]
  simp only [outside, Bool.or_eq_false_iff, decide_eq_false_iff_not, BitVec.lt_def, hep, hend, htop,
    not_lt]

/-- A request that does not come round is judged by its integers. -/
theorem inside_of_passes {low : BitVec 64} {dev : Device} {m : MemInfo}
    (hwindow : dev.memAddr.toNat + dev.memSize.toNat < 2 ^ 64)
    (h : outside low dev m = false) (hslips : ¬ Slips low dev m) : Inside low.toNat dev m := by
  obtain ⟨hlow, hend⟩ := (outside_eq_false_iff hwindow).mp h
  have hbase := m.base.isLt
  have hoffset := m.offset.isLt
  have hsize := m.size.isLt
  have hfinish : m.finish < 2 ^ 64 := by
    by_contra hround
    refine hslips ⟨not_lt.mp hround, hlow, ?_⟩
    unfold MemInfo.finish at hend hround ⊢
    omega
  unfold Inside MemInfo.finish at *
  rw [Nat.mod_eq_of_lt hfinish] at hend
  rw [Nat.mod_eq_of_lt (by omega)] at hlow
  exact ⟨by omega, hend⟩

/-- A request that slips passes the check and ends past the window. -/
theorem Slips.passes {low : BitVec 64} {dev : Device} {m : MemInfo}
    (hwindow : dev.memAddr.toNat + dev.memSize.toNat < 2 ^ 64) (h : Slips low dev m) :
    outside low dev m = false ∧ ∀ i, ¬ Inside i dev m := by
  obtain ⟨hround, hlow, hend⟩ := h
  have hbase := m.base.isLt
  have hoffset := m.offset.isLt
  have hsize := m.size.isLt
  refine ⟨(outside_eq_false_iff hwindow).mpr ⟨hlow, ?_⟩, fun i inside => ?_⟩
  · unfold MemInfo.finish at *
    omega
  · have := inside.2
    omega

/-- **The address checks hold the window** for exactly those requests that do not slip:
whose end stays below 2^64, or whose sums come round to addresses outside the window. -/
theorem guarded_iff {dev : Device} {m : MemInfo}
    (hwindow : dev.memAddr.toNat + dev.memSize.toNat < 2 ^ 64) (hinject : dev.skipAddrCheck = false) :
    Guarded dev m ↔ ¬ Slips dev.memAddr dev m ∧ ¬ Slips (dev.memAddr - 0x100000) dev m := by
  have hwrite : writeMemPasses dev m = true ↔ outside dev.memAddr dev m = false := by
    simp [writeMemPasses, hinject]
  have hread : readMemPasses dev m = true ↔ outside (dev.memAddr - 0x100000) dev m = false := by
    simp [readMemPasses, hinject]
  have hflush : cpuCacheFlushPasses dev m = true ↔ outside dev.memAddr dev m = false := by
    simp [cpuCacheFlushPasses]
  constructor
  · intro guarded
    constructor
    · intro slips
      obtain ⟨hpass, hnot⟩ := slips.passes hwindow
      exact hnot _ (guarded.write (hwrite.mpr hpass))
    · intro slips
      obtain ⟨hpass, hnot⟩ := slips.passes hwindow
      exact hnot _ (guarded.read (hread.mpr hpass))
  · rintro ⟨hslips, hslipsRead⟩
    refine ⟨fun h => inside_of_passes hwindow (hwrite.mp h) hslips, fun h => ?_,
      fun h => inside_of_passes hwindow (hflush.mp h) hslips⟩
    obtain ⟨hlow, hend⟩ := inside_of_passes hwindow (hread.mp h) hslipsRead
    refine ⟨le_trans ?_ hlow, hend⟩
    -- below 1 MiB the lower bound of the check comes round as well, and is the stricter
    rw [BitVec.toNat_sub]
    have : (0x100000 : BitVec 64).toNat = 0x100000 := rfl
    have := dev.memAddr.isLt
    omega

/-- The window of a device without a mailbox. -/
def fpga : Device := ⟨false, false, false, 0x01000000, 0xFF000000, false⟩

/-- 4 KiB in the window. -/
theorem fpga_guarded : Guarded fpga ⟨0x7f0000000000, 0x80000000, 0x1000, 0x1000, 0⟩ :=
  (guarded_iff (by decide) rfl).mpr (by decide)

/-- 8 KiB that begin 4 KiB below the top of the address space. -/
theorem top_slips :
    ¬ ∀ dev : Device, ∀ m : MemInfo, dev.memAddr.toNat + dev.memSize.toNat < 2 ^ 64 →
      dev.skipAddrCheck = false → Guarded dev m := by
  intro h
  have inside := (h fpga ⟨0x7f0000000000, 0xFFFFFFFFFFFFF000, 0, 0x2000, 0⟩ (by decide) rfl).write
    (by decide)
  have := inside.2
  revert this
  decide

end DxNpuDriver.Rt.MemoryWindow
