import DxNpuDriver.Lib.Bytes
import DxNpuDriver.Rt.Payload

/-! What a mailbox copy carries (`dxrt_drv_message.c`, `dx_mmio_compat.h`).

`Rt/Payload` has the accesses of a copy; here are the bytes. A copy goes through a buffer of
`INTERNAL_BUFF_MAX` bytes, piece by piece, and a piece by words as long as the device's
address is aligned and by bytes from there on. `Moved` says that such a copy carries its
bytes to their places and changes no others.

A copy to or from user space may stop within a piece: the kernel says how many bytes it has
left, and the driver looks only at whether there are any. What a piece for the device lacks
never gets there, but what a piece for the user got before the fault is in user space. -/
namespace DxNpuDriver.Rt.MmioCopy
open Bytes (Moved)
open Payload (internalBuffMax)

/-! ### The loops -/

/-- The second loop of a copy, byte by byte. -/
def ioBytes (src dst : Bytes) (s d : Nat) : Nat → Bytes
  | 0 => dst
  | n + 1 => ioBytes src (Function.update dst d (src s)) (s + 1) (d + 1) n

/-- The first loop of a copy, by words as long as `io`, the device's address, is aligned. -/
def ioWords (src dst : Bytes) (io s d size : Nat) : Bytes :=
  if 4 ≤ size ∧ io % 4 = 0 then
    ioWords src (dst.setWord d (src.word s)) (io + 4) (s + 4) (d + 4) (size - 4)
  else ioBytes src dst s d size
termination_by size

/-- `dx_memcpy_toio32`. -/
def memcpyToio32 (device buffer : Bytes) (dest src size : Nat) : Bytes :=
  ioWords buffer device dest src dest size

/-- `dx_memcpy_fromio32`. -/
def memcpyFromio32 (buffer device : Bytes) (dest src size : Nat) : Bytes :=
  ioWords device buffer src src dest size

/-- `copy_from_user` with `left` of the `n` bytes left, which are zero in the buffer. -/
def copyFromUser (left : Nat) (buffer user : Bytes) (src n : Nat) : Bytes :=
  (buffer.copy 0 n fun _ => 0).copy 0 (n - left) fun i => user (src + i)

/-- `copy_to_user` with `left` of the `n` bytes left. -/
def copyToUser (left : Nat) (user buffer : Bytes) (dest n : Nat) : Bytes :=
  user.copy dest (n - left) buffer

/-- The loop of `dxrt_copy_from_user_io`; `left i` bytes of the `i`-th of the pieces to come
are left. -/
def fromUserPieces (left : Nat → Nat) (user buffer device : Bytes) (dest src remaining : Nat) :
    Ret × Bytes :=
  if remaining = 0 then (.ok, device)
  else
    let copySize := min remaining internalBuffMax
    let buffer := copyFromUser (left 0) buffer user src copySize
    if left 0 ≠ 0 then (.err .EFAULT, device)
    else
      fromUserPieces (fun i => left (i + 1)) user buffer (memcpyToio32 device buffer dest 0 copySize)
        (dest + copySize) (src + copySize) (remaining - copySize)
termination_by remaining
decreasing_by simp only [internalBuffMax]; omega

/-- The loop of `dxrt_copy_to_user_io`. -/
def toUserPieces (left : Nat → Nat) (device buffer user : Bytes) (dest src remaining : Nat) :
    Ret × Bytes :=
  if remaining = 0 then (.ok, user)
  else
    let copySize := min remaining internalBuffMax
    let buffer := memcpyFromio32 buffer device 0 src copySize
    let user := copyToUser (left 0) user buffer dest copySize
    if left 0 ≠ 0 then (.err .EFAULT, user)
    else
      toUserPieces (fun i => left (i + 1)) device buffer user (dest + copySize) (src + copySize)
        (remaining - copySize)
termination_by remaining
decreasing_by simp only [internalBuffMax]; omega

/-- What happens to a copy between the device and user space: whether its buffer is
allocated, with what in it, and how much of each piece is left. -/
structure Copying where
  kmalloc : Option Bytes
  left : Nat → Nat

/-- `dxrt_copy_from_user_io`: the return value, and the device after it. -/
def copyFromUserIo (c : Copying) (device user : Bytes) (dest src size : Nat) : Ret × Bytes :=
  match c.kmalloc with
  | none => (.err .ENOMEM, device)
  | some buffer => fromUserPieces c.left user buffer device dest src size

/-- `dxrt_copy_to_user_io`: the return value, and user space after it. -/
def copyToUserIo (c : Copying) (user device : Bytes) (dest src size : Nat) : Ret × Bytes :=
  match c.kmalloc with
  | none => (.err .ENOMEM, user)
  | some buffer => toUserPieces c.left device buffer user dest src size

/-! ### A piece -/

theorem ioBytes_moved (src dst : Bytes) (s d n : Nat) :
    Moved src s dst d n (ioBytes src dst s d n) := by
  induction n generalizing dst s d with
  | zero => exact Moved.nil src s dst d
  | succ n ih =>
    have := (Moved.byte src s dst d).append (ih (Function.update dst d (src s)) (s + 1) (d + 1))
    rw [Nat.add_comm 1 n] at this
    exact this

/-- Wherever the words end and the bytes begin. -/
theorem ioWords_moved (src dst : Bytes) (io s d size : Nat) :
    Moved src s dst d size (ioWords src dst io s d size) := by
  fun_induction ioWords src dst io s d size with
  | case1 dst io s d size h ih =>
    have := (Moved.word src s dst d).append ih
    rw [Nat.add_sub_cancel' h.1] at this
    exact this
  | case2 dst io s d size h => exact ioBytes_moved src dst s d size

/-- A piece that is whole in the buffer goes to the device. -/
theorem piece_toio {left : Nat} (h : left = 0) (user buffer device : Bytes) (dest src n : Nat) :
    Moved user src device dest n
      (memcpyToio32 device (copyFromUser left buffer user src n) dest 0 n) := by
  subst h
  have filled := Moved.copy user src (buffer.copy 0 n fun _ => 0) 0 n
  exact filled.trans (ioWords_moved _ device dest 0 dest n)

/-- As much of a piece as is copied goes to the user. -/
theorem piece_toUser (left : Nat) (device buffer user : Bytes) (dest src n : Nat) :
    Moved device src user dest (n - left)
      (copyToUser left user (memcpyFromio32 buffer device 0 src n) dest n) := by
  have read : Moved device src buffer 0 n (memcpyFromio32 buffer device 0 src n) :=
    ioWords_moved device buffer src src 0 n
  constructor
  · intro i hi
    rw [copyToUser, Bytes.copy_inside (by omega) (by omega), Nat.add_sub_cancel_left]
    have := read.inside i (by omega)
    rwa [Nat.zero_add] at this
  · intro c hc
    exact Bytes.copy_outside hc

/-! ### The pieces of a copy -/

/-- How the pieces of `size` bytes end, and how many bytes they carry. The first piece that
faults is the last one; of its `n` bytes of which `l` are left, `part n l` are carried. -/
inductive Pieces (part : Nat → Nat → Nat) (left : Nat → Nat) (size : Nat) : Ret → Nat → Prop
  | whole : (∀ i, i * internalBuffMax < size → left i = 0) → Pieces part left size .ok size
  | faulted (k : Nat) : k * internalBuffMax < size → (∀ i < k, left i = 0) → left k ≠ 0 →
      Pieces part left size (.err .EFAULT)
        (k * internalBuffMax + part (min (size - k * internalBuffMax) internalBuffMax) (left k))

theorem Pieces.nil (part : Nat → Nat → Nat) (left : Nat → Nat) : Pieces part left 0 .ok 0 := by
  apply Pieces.whole
  intro i hi
  cases hi

theorem Pieces.stop (part : Nat → Nat → Nat) {left : Nat → Nat} {size : Nat} (hsize : size ≠ 0)
    (h : left 0 ≠ 0) :
    Pieces part left size (.err .EFAULT) (part (min size internalBuffMax) (left 0)) := by
  have hend := @Pieces.faulted part left size 0 (by omega)
    (fun i hi => absurd hi (Nat.not_lt_zero i)) h
  rwa [Nat.zero_mul, Nat.zero_add, Nat.sub_zero] at hend

/-- A piece that does not fault, before those that follow it. -/
theorem Pieces.next {part : Nat → Nat → Nat} {left : Nat → Nat} {size n : Nat} {ret : Ret}
    (h0 : left 0 = 0)
    (h : Pieces part (fun i => left (i + 1)) (size - min size internalBuffMax) ret n) :
    Pieces part left size ret (min size internalBuffMax + n) := by
  cases h with
  | whole hall =>
    rw [Nat.add_sub_cancel' (Nat.min_le_left size internalBuffMax)]
    apply Pieces.whole
    intro i hi
    cases i with
    | zero => exact h0
    | succ i =>
      rw [Nat.succ_mul] at hi
      apply hall i
      omega
  | faulted k hk hbefore hleft =>
    have hmin : min size internalBuffMax = internalBuffMax := by omega
    rw [hmin] at hk
    have hend := @Pieces.faulted part left size (k + 1)
      (by rw [Nat.succ_mul]; omega) ?_ hleft
    · rw [Nat.succ_mul] at hend
      rwa [hmin, ← Nat.add_assoc, Nat.add_comm internalBuffMax, Nat.sub_sub,
        Nat.add_comm internalBuffMax]
    · intro i hi
      cases i with
      | zero => exact h0
      | succ i => exact hbefore i (Nat.lt_of_succ_lt_succ hi)

theorem fromUserPieces_moved (left : Nat → Nat) (user buffer device : Bytes)
    (dest src remaining : Nat) :
    ∃ n, Pieces (fun _ _ => 0) left remaining
        (fromUserPieces left user buffer device dest src remaining).1 n ∧
      Moved user src device dest n
        (fromUserPieces left user buffer device dest src remaining).2 := by
  fun_induction fromUserPieces left user buffer device dest src remaining with
  | case1 left buffer device dest src => exact ⟨0, Pieces.nil _ left, Moved.nil user src device dest⟩
  | case2 left buffer device dest src remaining hne hleft =>
    exact ⟨0, Pieces.stop _ hne hleft, Moved.nil user src device dest⟩
  | case3 left buffer device dest src remaining hne copySize filled hleft ih =>
    obtain ⟨n, hend, hmoved⟩ := ih
    have hwhole : left 0 = 0 := not_not.mp hleft
    have piece := piece_toio hwhole user buffer device dest src copySize
    exact ⟨copySize + n, hend.next hwhole, piece.append hmoved⟩

theorem toUserPieces_moved (left : Nat → Nat) (device buffer user : Bytes)
    (dest src remaining : Nat) :
    ∃ n, Pieces (fun n l => n - l) left remaining
        (toUserPieces left device buffer user dest src remaining).1 n ∧
      Moved device src user dest n
        (toUserPieces left device buffer user dest src remaining).2 := by
  fun_induction toUserPieces left device buffer user dest src remaining with
  | case1 left buffer user dest src => exact ⟨0, Pieces.nil _ left, Moved.nil device src user dest⟩
  | case2 left buffer user dest src remaining hne copySize filled user' hleft =>
    exact ⟨_, Pieces.stop _ hne hleft, piece_toUser (left 0) device buffer user dest src copySize⟩
  | case3 left buffer user dest src remaining hne copySize filled user' hleft ih =>
    obtain ⟨n, hend, hmoved⟩ := ih
    have hwhole : left 0 = 0 := not_not.mp hleft
    have piece := piece_toUser (left 0) device buffer user dest src copySize
    have hall : copySize - left 0 = copySize := by rw [hwhole, Nat.sub_zero]
    rw [hall] at piece
    exact ⟨copySize + n, hend.next hwhole, piece.append hmoved⟩

/-! ### The accesses

`Payload` has the same copies as lists of accesses. -/

/-- What `Payload` keeps of a copy: which of its pieces fault. -/
def Copying.payload (c : Copying) : Payload.Copying :=
  ⟨c.kmalloc.isSome, fun i => decide (c.left i ≠ 0)⟩

theorem fromUserPieces_accesses (fault : Nat → Bool) (left : Nat → Nat)
    (user buffer device : Bytes) (dest src remaining : Nat) :
    ∀ i, (∀ j, fault (i + j) = decide (left j ≠ 0)) →
      (fromUserPieces left user buffer device dest src remaining).1 =
          (Payload.fromUserPieces fault i dest remaining).1 ∧
        ∀ b, (fromUserPieces left user buffer device dest src remaining).2 b ≠ device b →
          Payload.Touches b (Payload.fromUserPieces fault i dest remaining).2 := by
  fun_induction fromUserPieces left user buffer device dest src remaining with
  | case1 left buffer device dest src =>
    intro i h
    rw [Payload.fromUserPieces, if_pos rfl]
    exact ⟨rfl, fun b hb => absurd rfl hb⟩
  | case2 left buffer device dest src remaining hne hleft =>
    intro i h
    have hfault : fault i = true := (h 0).trans (decide_eq_true hleft)
    rw [Payload.fromUserPieces, if_neg hne, if_pos hfault]
    exact ⟨rfl, fun b hb => absurd rfl hb⟩
  | case3 left buffer device dest src remaining hne copySize filled hleft ih =>
    intro i h
    have hfault : ¬ fault i = true := by
      have h0 := h 0
      rw [Nat.add_zero] at h0
      rw [h0, decide_eq_true_iff]
      exact hleft
    obtain ⟨hret, htouch⟩ := ih (i + 1) fun j => by
      rw [Nat.add_assoc, Nat.add_comm 1 j]
      exact h (j + 1)
    rw [Payload.fromUserPieces, if_neg hne, if_neg hfault]
    refine ⟨hret, fun b hb => ?_⟩
    by_cases hin : dest ≤ b ∧ b < dest + copySize
    · exact ((Payload.memcpyToio32_covers dest copySize).touches b hin.1 hin.2).left _
    · apply (htouch b ?_).right
      have piece := ioWords_moved filled device dest 0 dest copySize
      rw [show memcpyToio32 device filled dest 0 copySize b = device b from
        piece.outside b (by omega)]
      exact hb

/-- A copy returns what its accesses say it does, and where the device has changed there has
been an access. -/
theorem copyFromUserIo_accesses (c : Copying) (device user : Bytes) (dest src size : Nat) :
    (copyFromUserIo c device user dest src size).1 =
        (Payload.copyFromUserIo c.payload dest size).1 ∧
      ∀ b, (copyFromUserIo c device user dest src size).2 b ≠ device b →
        Payload.Touches b (Payload.copyFromUserIo c.payload dest size).2 := by
  obtain ⟨kmalloc, left⟩ := c
  cases kmalloc with
  | none => exact ⟨rfl, fun b hb => absurd rfl hb⟩
  | some buffer =>
    apply fromUserPieces_accesses _ left user buffer device dest src size 0
    intro j
    rw [Nat.zero_add]
    rfl

/-! ### Copies are exact -/

/-- What a copy of `size` bytes returns, and how many of them it has carried then. -/
def Carried (part : Nat → Nat → Nat) (c : Copying) (size : Nat) (ret : Ret) (n : Nat) : Prop :=
  match c.kmalloc with
  | none => ret = .err .ENOMEM ∧ n = 0
  | some _ => Pieces part c.left size ret n

/-- A copy that returns 0 has carried all of them. -/
theorem Carried.all {part : Nat → Nat → Nat} {c : Copying} {size n : Nat}
    (h : Carried part c size .ok n) : n = size := by
  unfold Carried at h
  split at h
  · cases h.1
  · cases h
    rfl

theorem copyFromUserIo_moved (c : Copying) (device user : Bytes) (dest src size : Nat) :
    ∃ n, Carried (fun _ _ => 0) c size (copyFromUserIo c device user dest src size).1 n ∧
      Moved user src device dest n (copyFromUserIo c device user dest src size).2 := by
  obtain ⟨kmalloc, left⟩ := c
  cases kmalloc with
  | none => exact ⟨0, ⟨rfl, rfl⟩, Moved.nil user src device dest⟩
  | some buffer => exact fromUserPieces_moved left user buffer device dest src size

theorem copyToUserIo_moved (c : Copying) (user device : Bytes) (dest src size : Nat) :
    ∃ n, Carried (fun n l => n - l) c size (copyToUserIo c user device dest src size).1 n ∧
      Moved device src user dest n (copyToUserIo c user device dest src size).2 := by
  obtain ⟨kmalloc, left⟩ := c
  cases kmalloc with
  | none => exact ⟨0, ⟨rfl, rfl⟩, Moved.nil device src user dest⟩
  | some buffer => exact toUserPieces_moved left device buffer user dest src size

/-- The copies between `size` bytes of the device at `io` and user space, at `src` on the way
there and at `dest` on the way back. -/
structure Exact (there back : Copying) (device user : Bytes) (io src dest size : Nat) : Prop where
  /-- Only whole pieces get to the device. -/
  fromUser : ∃ n, Carried (fun _ _ => 0) there size
      (copyFromUserIo there device user io src size).1 n ∧
    Moved user src device io n (copyFromUserIo there device user io src size).2
  /-- The user gets the whole pieces and what the kernel has copied of one that faults. -/
  toUser : ∃ n, Carried (fun n l => n - l) back size
      (copyToUserIo back user device dest io size).1 n ∧
    Moved device io user dest n (copyToUserIo back user device dest io size).2
  roundTrip : ∀ device', copyFromUserIo there device user io src size = (.ok, device') →
    ∀ user', copyToUserIo back user device' dest io size = (.ok, user') →
      Moved user src user dest size user'

/-- **Copies are exact**, for every size, every alignment and whatever is copied. -/
theorem copies_exact (there back : Copying) (device user : Bytes) (io src dest size : Nat) :
    Exact there back device user io src dest size := by
  constructor
  · exact copyFromUserIo_moved there device user io src size
  · exact copyToUserIo_moved back user device dest io size
  · intro device' hthere user' hback
    obtain ⟨n, hcarried, hto⟩ := copyFromUserIo_moved there device user io src size
    rw [hthere] at hcarried hto
    obtain ⟨k, hcarried', hfrom⟩ := copyToUserIo_moved back user device' dest io size
    rw [hback] at hcarried' hfrom
    rw [hcarried.all] at hto
    rw [hcarried'.all] at hfrom
    exact hto.trans hfrom

/-- Four of eight bytes that are read from the device get to the user, who is told that they
could not be copied: not only whole pieces are carried. -/
theorem part_of_piece_reaches_user :
    ¬ ∀ (c : Copying) (user device : Bytes) (dest src size : Nat),
      (copyToUserIo c user device dest src size).1 = .err .EFAULT →
        ∃ k, k * internalBuffMax ≤ size ∧
          Moved device src user dest (k * internalBuffMax)
            (copyToUserIo c user device dest src size).2 := by
  intro h
  obtain ⟨n, hend, hmoved⟩ := toUserPieces_moved (fun _ => 4) (fun _ => 1) (fun _ => 0) (fun _ => 0)
    0 0 8
  obtain ⟨k, hk, hwhole⟩ := h ⟨some fun _ => 0, fun _ => 4⟩ (fun _ => 0) (fun _ => 1) 0 0 8 (by
    show (toUserPieces _ _ _ _ _ _ _).1 = _
    rw [toUserPieces, if_neg (by decide), if_pos (by decide)])
  obtain rfl : k = 0 := by
    simp only [internalBuffMax] at hk
    omega
  have kept : (toUserPieces (fun _ => 4) (fun _ => 1) (fun _ => 0) (fun _ => 0) 0 0 8).2 0 = 0 :=
    hwhole.outside 0 (by decide)
  generalize (toUserPieces (fun _ => 4) (fun _ => 1) (fun _ => 0) (fun _ => 0) 0 0 8).1 = ret at hend
  cases hend with
  | whole hall => cases hall 0 (by decide)
  | faulted k hk hbefore hleft =>
    obtain rfl : k = 0 := by
      simp only [internalBuffMax] at hk
      omega
    have carried := hmoved.inside 0 (by decide)
    rw [Nat.add_zero, kept] at carried
    exact absurd carried (by decide)

end DxNpuDriver.Rt.MmioCopy
