import DxNpuDriver.Rt.Mailbox

/-! The payload of a mailbox message (`dxrt_drv_message.c`, `dx_mmio_compat.h`).

A message structure is a header of four words and a thousand words of data. Who copies a
payload compares its size with that of the whole structure, and copies it to the data, 16
bytes further on: a payload that fits into the structure but not into the data runs past
its end. The sizes come from two sides, from user space and, for a reply, from the device.

`enclosed_iff` says which sizes those are, for the four functions and whatever happens to
the copies. -/
namespace DxNpuDriver.Rt.Payload
open Mailbox (sizeofDeviceMessage)

/-- `offsetof(dxrt_device_message_t, data)` and `sizeof` of its data. -/
def offsetofData : Nat := 16
def sizeofData : Nat := 4000

/-- `INTERNAL_BUFF_MAX`. -/
def internalBuffMax : Nat := 1024

/-- What is done to the mailbox: an access of `width` bytes of a copy, the header of a
message, the doorbell. -/
inductive Event where
  | toIo (addr width : Nat)
  | fromIo (addr width : Nat)
  | msgToDev
  | bell
  deriving DecidableEq

/-! ### Copies -/

/-- The second loop of a copy, byte by byte. -/
def ioBytes (access : Nat → Nat → Event) (addr : Nat) : Nat → List Event
  | 0 => []
  | n + 1 => access addr 1 :: ioBytes access (addr + 1) n

/-- The first loop of a copy, by words as long as the address is aligned. -/
def ioWords (access : Nat → Nat → Event) (addr size : Nat) : List Event :=
  if 4 ≤ size ∧ addr % 4 = 0 then access addr 4 :: ioWords access (addr + 4) (size - 4)
  else ioBytes access addr size
termination_by size

/-- `dx_memcpy_toio32`. -/
def memcpyToio32 (dest size : Nat) : List Event := ioWords .toIo dest size

/-- `dx_memcpy_fromio32`. -/
def memcpyFromio32 (src size : Nat) : List Event := ioWords .fromIo src size

/-- The loop of `dxrt_copy_from_user_io`; `fault i` says whether the `i`-th piece faults in
user space. -/
def fromUserPieces (fault : Nat → Bool) (i dest remaining : Nat) : Ret × List Event :=
  if remaining = 0 then (.ok, [])
  else
    let copySize := min remaining internalBuffMax
    if fault i then (.err .EFAULT, [])
    else
      let (ret, events) := fromUserPieces fault (i + 1) (dest + copySize) (remaining - copySize)
      (ret, memcpyToio32 dest copySize ++ events)
termination_by remaining
decreasing_by simp only [internalBuffMax]; omega

/-- The loop of `dxrt_copy_to_user_io`, which reads the device before it can fault. -/
def toUserPieces (fault : Nat → Bool) (i src remaining : Nat) : Ret × List Event :=
  if remaining = 0 then (.ok, [])
  else
    let copySize := min remaining internalBuffMax
    if fault i then (.err .EFAULT, memcpyFromio32 src copySize)
    else
      let (ret, events) := toUserPieces fault (i + 1) (src + copySize) (remaining - copySize)
      (ret, memcpyFromio32 src copySize ++ events)
termination_by remaining
decreasing_by simp only [internalBuffMax]; omega

/-- What happens to a copy between the device and user space: whether its buffer is
allocated, and which of its pieces fault. -/
structure Copying where
  kmalloc : Bool
  fault : Nat → Bool

/-- `dxrt_copy_from_user_io`. -/
def copyFromUserIo (c : Copying) (dest size : Nat) : Ret × List Event :=
  if c.kmalloc then fromUserPieces c.fault 0 dest size else (.err .ENOMEM, [])

/-- `dxrt_copy_to_user_io`. -/
def copyToUserIo (c : Copying) (src size : Nat) : Ret × List Event :=
  if c.kmalloc then toUserPieces c.fault 0 src size else (.err .ENOMEM, [])

/-! ### The four functions -/

/-- What the functions come upon. -/
structure Env where
  /-- `type` is DX_STD. -/
  std : Bool
  /-- `dev->msg` is mapped. -/
  msg : Bool
  /-- `dxrt_dev_state_errno`. -/
  devStateErrno : Option Errno
  /-- `dxrt_fw_mbox_blocked`. -/
  mboxBlocked : Bool
  fromUser : Copying
  toUser : Copying
  /-- `dxrt_polling_ack`. -/
  pollingAck : Ret

/-- A size that the functions copy. -/
def copied (size : Nat) : Bool := decide (0 < size ∧ size < sizeofDeviceMessage)

/-- `dxrt_msg_general` on the message structure at `m`, without the kick that a CPU reset
is followed by. -/
def msgGeneral (env : Env) (m msgSize devMsgSize : Nat) : Ret × List Event :=
  if env.std then (.ok, [])
  else if !env.msg then (.ok, [])
  else match env.devStateErrno with
    | some e => (.err e, [])
    | none =>
      if env.mboxBlocked then (.err .EBUSY, [])
      else
        let (payloadRet, payload) :=
          if copied msgSize then copyFromUserIo env.fromUser (m + offsetofData) msgSize else (.ok, [])
        if payloadRet ≠ .ok then (.err .EFAULT, payload)
        else
          let (ret, reply) :=
            if copied devMsgSize ∧ env.pollingAck = .ok then
              copyToUserIo env.toUser (m + offsetofData) devMsgSize
            else (env.pollingAck, [])
          (ret, payload ++ [.msgToDev, .bell] ++ reply)

/-- `dxrt_soc_custom`, which copies its payload in one piece and does not look at
`dev->msg`. -/
def socCustom (env : Env) (m msgSize devMsgSize : Nat) : Ret × List Event :=
  if env.std then (.ok, [])
  else match env.devStateErrno with
    | some e => (.err e, [])
    | none =>
      if env.mboxBlocked then (.err .EBUSY, [])
      else if copied msgSize ∧ env.fromUser.kmalloc = false then (.err .ENOMEM, [])
      else if copied msgSize ∧ env.fromUser.fault 0 = true then (.err .EFAULT, [])
      else
        let payload := if copied msgSize then memcpyToio32 (m + offsetofData) msgSize else []
        let (ret, reply) :=
          if copied devMsgSize then copyToUserIo env.toUser (m + offsetofData) devMsgSize
          else (env.pollingAck, [])
        (ret, payload ++ [.msgToDev, .bell] ++ reply)

/-- `dxrt_reset_device`. -/
def resetDevice (env : Env) (m msgSize : Nat) : Ret × List Event :=
  if env.std then (.ok, [])
  else if !env.msg then (.ok, [])
  else
    let (ret, payload) :=
      if copied msgSize then copyFromUserIo env.fromUser (m + offsetofData) msgSize else (.ok, [])
    if ret ≠ .ok then (ret, payload) else (.ok, payload ++ [.msgToDev, .bell])

/-- `dxrt_wait_fw_reboot_complete` up to its wait; a payload that cannot be copied is
ignored. -/
def waitFwRebootComplete (env : Env) (m msgSize : Nat) : List Event :=
  if !env.msg then []
  else
    let payload :=
      if copied msgSize then (copyFromUserIo env.fromUser (m + offsetofData) msgSize).2 else []
    payload ++ [.msgToDev, .bell]

/-! ### What a copy touches -/

/-- The bytes an event touches, if it is an access of a copy. -/
def Event.span : Event → Option (Nat × Nat)
  | .toIo addr width | .fromIo addr width => some (addr, width)
  | .msgToDev | .bell => none

/-- The accesses of copies stay in `n` bytes from `lo` on. -/
def Within (lo n : Nat) (events : List Event) : Prop :=
  ∀ e ∈ events, ∀ addr width, e.span = some (addr, width) → lo ≤ addr ∧ addr + width ≤ lo + n

/-- An access of a copy touches the byte. -/
def Touches (b : Nat) (events : List Event) : Prop :=
  ∃ e ∈ events, ∃ addr width, e.span = some (addr, width) ∧ addr ≤ b ∧ b < addr + width

theorem Within.append {lo n : Nat} {as bs : List Event} (ha : Within lo n as) (hb : Within lo n bs) :
    Within lo n (as ++ bs) := by
  intro e he
  rcases List.mem_append.mp he with he | he
  · exact ha e he
  · exact hb e he

theorem Within.mono {lo n lo' n' : Nat} {as : List Event} (h : Within lo n as) (hlo : lo' ≤ lo)
    (hn : lo + n ≤ lo' + n') : Within lo' n' as := by
  intro e he addr width hspan
  obtain ⟨h1, h2⟩ := h e he addr width hspan
  exact ⟨Nat.le_trans hlo h1, Nat.le_trans h2 hn⟩

theorem within_header (lo n : Nat) : Within lo n [.msgToDev, .bell] := by
  intro e he addr width hspan
  rcases List.mem_pair.mp he with rfl | rfl <;> cases hspan

theorem within_nil (lo n : Nat) : Within lo n [] := by
  rintro e ⟨⟩

/-- Who returns early touches nothing. -/
theorem within_refused {c : Prop} [Decidable c] {lo n : Nat} {ret : Ret} {rest : Ret × List Event}
    (h : Within lo n rest.2) : Within lo n (if c then (ret, []) else rest).2 := by
  split
  · exact within_nil lo n
  · exact h

theorem Touches.left {b : Nat} {as : List Event} (h : Touches b as) (bs : List Event) :
    Touches b (as ++ bs) := by
  obtain ⟨e, he, rest⟩ := h
  exact ⟨e, List.mem_append_left _ he, rest⟩

theorem Touches.right {b : Nat} {bs : List Event} (h : Touches b bs) (as : List Event) :
    Touches b (as ++ bs) := by
  obtain ⟨e, he, rest⟩ := h
  exact ⟨e, List.mem_append_right _ he, rest⟩

/-- A byte that is touched lies in the bounds. -/
theorem Within.touches {lo n b : Nat} {as : List Event} (h : Within lo n as) (hb : Touches b as) :
    b < lo + n := by
  obtain ⟨e, he, addr, width, hspan, -, hlt⟩ := hb
  exact lt_of_lt_of_le hlt (h e he addr width hspan).2

/-- A copy touches its bytes and no others. -/
structure Covers (lo n : Nat) (events : List Event) : Prop where
  within : Within lo n events
  touches : ∀ b, lo ≤ b → b < lo + n → Touches b events

theorem Covers.append {lo n k : Nat} {as bs : List Event} (ha : Covers lo n as)
    (hb : Covers (lo + n) k bs) : Covers lo (n + k) (as ++ bs) where
  within := (ha.within.mono le_rfl (by omega)).append (hb.within.mono (by omega) (by omega))
  touches b h1 h2 := by
    by_cases hlt : b < lo + n
    · exact (ha.touches b h1 hlt).left bs
    · exact (hb.touches b (by omega) (by omega)).right as

theorem covers_nil (lo : Nat) : Covers lo 0 [] := by
  refine ⟨within_nil lo 0, fun b h1 h2 => ?_⟩
  omega

theorem covers_single {access : Nat → Nat → Event}
    (hspan : ∀ a w, (access a w).span = some (a, w)) (addr width : Nat) :
    Covers addr width [access addr width] := by
  constructor
  · intro e he a w h
    rw [List.mem_singleton.mp he, hspan] at h
    cases h
    exact ⟨le_rfl, le_rfl⟩
  · exact fun b h1 h2 => ⟨_, List.mem_singleton_self _, addr, width, hspan addr width, h1, h2⟩

theorem ioBytes_covers {access : Nat → Nat → Event}
    (hspan : ∀ a w, (access a w).span = some (a, w)) (addr size : Nat) :
    Covers addr size (ioBytes access addr size) := by
  induction size generalizing addr with
  | zero => exact covers_nil addr
  | succ n ih =>
    have := (covers_single hspan addr 1).append (ih (addr + 1))
    rw [Nat.add_comm 1 n] at this
    exact this

theorem ioWords_covers {access : Nat → Nat → Event}
    (hspan : ∀ a w, (access a w).span = some (a, w)) (addr size : Nat) :
    Covers addr size (ioWords access addr size) := by
  fun_induction ioWords access addr size with
  | case1 addr size h ih =>
    have hsplit : size = 4 + (size - 4) := by omega
    rw [hsplit]
    have := (covers_single hspan addr 4).append ih
    simpa using this
  | case2 addr size h => exact ioBytes_covers hspan addr size

theorem memcpyToio32_covers (dest size : Nat) : Covers dest size (memcpyToio32 dest size) :=
  ioWords_covers (fun _ _ => rfl) dest size

theorem memcpyFromio32_covers (src size : Nat) : Covers src size (memcpyFromio32 src size) :=
  ioWords_covers (fun _ _ => rfl) src size

/-- Whatever faults, a copy from user space stays in its bytes. -/
theorem fromUserPieces_within (fault : Nat → Bool) (i dest remaining : Nat) :
    Within dest remaining (fromUserPieces fault i dest remaining).2 := by
  fun_induction fromUserPieces fault i dest remaining with
  | case1 => exact within_nil _ _
  | case2 => exact within_nil _ _
  | case3 i dest remaining hne copySize hfault ret events hrest ih =>
    rw [hrest] at ih
    have hle : copySize ≤ remaining := Nat.min_le_left _ _
    have head := (memcpyToio32_covers dest copySize).within
    exact (head.mono le_rfl (by omega)).append (ih.mono (by omega) (by omega))

theorem toUserPieces_within (fault : Nat → Bool) (i src remaining : Nat) :
    Within src remaining (toUserPieces fault i src remaining).2 := by
  fun_induction toUserPieces fault i src remaining with
  | case1 => exact within_nil _ _
  | case2 i src remaining hne copySize hfault =>
    have hle : copySize ≤ remaining := Nat.min_le_left _ _
    exact (memcpyFromio32_covers src copySize).within.mono le_rfl (by omega)
  | case3 i src remaining hne copySize hfault ret events hrest ih =>
    rw [hrest] at ih
    have hle : copySize ≤ remaining := Nat.min_le_left _ _
    have head := (memcpyFromio32_covers src copySize).within
    exact (head.mono le_rfl (by omega)).append (ih.mono (by omega) (by omega))

/-- Where nothing faults, all of it is copied. -/
theorem fromUserPieces_all {fault : Nat → Bool} (h : ∀ i, fault i = false) (i dest remaining : Nat) :
    (fromUserPieces fault i dest remaining).1 = .ok ∧
      Covers dest remaining (fromUserPieces fault i dest remaining).2 := by
  fun_induction fromUserPieces fault i dest remaining with
  | case1 i dest => exact ⟨rfl, covers_nil dest⟩
  | case2 i dest remaining hne hfault => simp [h] at hfault
  | case3 i dest remaining hne copySize hfault ret events hrest ih =>
    rw [hrest] at ih
    have hle : copySize ≤ remaining := Nat.min_le_left _ _
    have := (memcpyToio32_covers dest copySize).append ih.2
    rw [Nat.add_sub_cancel' hle] at this
    exact ⟨ih.1, this⟩

theorem toUserPieces_all {fault : Nat → Bool} (h : ∀ i, fault i = false) (i src remaining : Nat) :
    (toUserPieces fault i src remaining).1 = .ok ∧
      Covers src remaining (toUserPieces fault i src remaining).2 := by
  fun_induction toUserPieces fault i src remaining with
  | case1 i src => exact ⟨rfl, covers_nil src⟩
  | case2 i src remaining hne copySize hfault => simp [h] at hfault
  | case3 i src remaining hne copySize hfault ret events hrest ih =>
    rw [hrest] at ih
    have hle : copySize ≤ remaining := Nat.min_le_left _ _
    have := (memcpyFromio32_covers src copySize).append ih.2
    rw [Nat.add_sub_cancel' hle] at this
    exact ⟨ih.1, this⟩

theorem copyFromUserIo_within (c : Copying) (dest size : Nat) :
    Within dest size (copyFromUserIo c dest size).2 := by
  unfold copyFromUserIo
  split
  · exact fromUserPieces_within _ _ _ _
  · exact within_nil _ _

theorem copyToUserIo_within (c : Copying) (src size : Nat) :
    Within src size (copyToUserIo c src size).2 := by
  unfold copyToUserIo
  split
  · exact toUserPieces_within _ _ _ _
  · exact within_nil _ _

/-- A copy that finds its buffer and does not fault. -/
def Copying.plain : Copying := ⟨true, fun _ => false⟩

theorem copyFromUserIo_plain (dest size : Nat) :
    (copyFromUserIo .plain dest size).1 = .ok ∧ Covers dest size (copyFromUserIo .plain dest size).2 :=
  fromUserPieces_all (fun _ => rfl) 0 dest size

theorem copyToUserIo_plain (src size : Nat) :
    (copyToUserIo .plain src size).1 = .ok ∧ Covers src size (copyToUserIo .plain src size).2 :=
  toUserPieces_all (fun _ => rfl) 0 src size

/-! ### The data and its end -/

/-- A size that is copied fits into the data. -/
def Fits (size : Nat) : Prop := copied size = true → size ≤ sizeofData

instance (size : Nat) : Decidable (Fits size) := inferInstanceAs (Decidable (_ → _))

/-- The accesses of copies stay in the data of the structure at `m`. -/
def InData (m : Nat) (events : List Event) : Prop := Within (m + offsetofData) sizeofData events

/-- Whatever the four functions come upon, their copies stay in the data. -/
structure Enclosed (m msgSize devMsgSize : Nat) : Prop where
  msgGeneral : ∀ env, InData m (msgGeneral env m msgSize devMsgSize).2
  socCustom : ∀ env, InData m (socCustom env m msgSize devMsgSize).2
  resetDevice : ∀ env, InData m (resetDevice env m msgSize).2
  waitFwRebootComplete : ∀ env, InData m (waitFwRebootComplete env m msgSize)

theorem Fits.inData {size : Nat} (h : Fits size) (hcopied : copied size = true) {m : Nat}
    {events : List Event} (hwithin : Within (m + offsetofData) size events) : InData m events :=
  hwithin.mono le_rfl (Nat.add_le_add_left (h hcopied) _)

theorem Fits.payload {size : Nat} (h : Fits size) {m : Nat} {events : List Event}
    (hwithin : Within (m + offsetofData) size events) :
    InData m (if copied size then events else []) := by
  split
  · exact h.inData ‹_› hwithin
  · exact within_nil _ _

/-- A payload that fits stays in the data when it is copied from user space. -/
theorem Fits.fromUser {size : Nat} (h : Fits size) (c : Copying) (m : Nat) :
    InData m (if copied size then copyFromUserIo c (m + offsetofData) size else (.ok, [])).2 := by
  split
  · exact h.inData ‹_› (copyFromUserIo_within c _ size)
  · exact within_nil _ _

theorem msgGeneral_inData {msgSize devMsgSize : Nat} (hmsg : Fits msgSize) (hdev : Fits devMsgSize)
    (env : Env) (m : Nat) : InData m (msgGeneral env m msgSize devMsgSize).2 := by
  have payload := hmsg.fromUser env.fromUser m
  unfold msgGeneral
  refine within_refused (within_refused ?_)
  split
  · exact within_nil _ _
  apply within_refused
  revert payload
  generalize (if copied msgSize then copyFromUserIo env.fromUser (m + offsetofData) msgSize
    else (Ret.ok, [])) = sent
  obtain ⟨payloadRet, events⟩ := sent
  intro payload
  dsimp only
  split
  · exact payload
  apply (payload.append (within_header _ _)).append
  split
  · rename_i hreply
    exact hdev.inData hreply.1 (copyToUserIo_within _ _ _)
  · exact within_nil _ _

theorem socCustom_inData {msgSize devMsgSize : Nat} (hmsg : Fits msgSize) (hdev : Fits devMsgSize)
    (env : Env) (m : Nat) : InData m (socCustom env m msgSize devMsgSize).2 := by
  unfold socCustom
  apply within_refused
  split
  · exact within_nil _ _
  refine within_refused (within_refused (within_refused ?_))
  have payload := hmsg.payload (m := m) (memcpyToio32_covers _ _).within
  apply (Within.append payload (within_header _ _)).append
  split
  · exact hdev.inData ‹_› (copyToUserIo_within _ _ _)
  · exact within_nil _ _

theorem resetDevice_inData {msgSize : Nat} (hmsg : Fits msgSize) (env : Env) (m : Nat) :
    InData m (resetDevice env m msgSize).2 := by
  have payload := hmsg.fromUser env.fromUser m
  unfold resetDevice
  refine within_refused (within_refused ?_)
  revert payload
  generalize (if copied msgSize then copyFromUserIo env.fromUser (m + offsetofData) msgSize
    else (Ret.ok, [])) = sent
  obtain ⟨ret, events⟩ := sent
  intro payload
  dsimp only
  split
  · exact payload
  · exact payload.append (within_header _ _)

theorem waitFwRebootComplete_inData {msgSize : Nat} (hmsg : Fits msgSize) (env : Env) (m : Nat) :
    InData m (waitFwRebootComplete env m msgSize) := by
  unfold waitFwRebootComplete
  split
  · exact within_nil _ _
  exact Within.append (hmsg.payload (copyFromUserIo_within _ _ _)) (within_header _ _)

/-- Nothing goes wrong. -/
def Env.plain : Env := ⟨false, true, none, false, .plain, .plain, .ok⟩

theorem resetDevice_plain {m msgSize : Nat} (h : copied msgSize = true) :
    (resetDevice .plain m msgSize).2 =
      (copyFromUserIo .plain (m + offsetofData) msgSize).2 ++ [.msgToDev, .bell] := by
  obtain ⟨hret, -⟩ := copyFromUserIo_plain (m + offsetofData) msgSize
  simp only [resetDevice, Env.plain, h, Bool.false_eq_true, if_false, Bool.not_true, if_true, hret,
    ne_eq, not_true]

theorem socCustom_plain (m msgSize : Nat) {devMsgSize : Nat} (h : copied devMsgSize = true) :
    ∃ before, (socCustom .plain m msgSize devMsgSize).2 =
      before ++ (copyToUserIo .plain (m + offsetofData) devMsgSize).2 := by
  simp only [socCustom, Env.plain, h, Bool.false_eq_true, if_false, if_true]
  split
  · rename_i hkmalloc
    cases hkmalloc.2
  · split
    · rename_i hfault
      cases hfault.2
    · exact ⟨_, rfl⟩

/-- A payload that does not fit goes past the end of the structure. -/
theorem fits_of_touches {m size : Nat} {events : List Event} (h : InData m events)
    (htouches : copied size = true →
      ∀ b, m + offsetofData ≤ b → b < m + offsetofData + size → Touches b events) : Fits size := by
  intro hcopied
  by_contra hlong
  have htouch := htouches hcopied (m + offsetofData + sizeofData) (Nat.le_add_right _ _) (by omega)
  exact absurd (h.touches htouch) (lt_irrefl _)

/-- **The copies stay in the payload**, whatever happens to them, for exactly the sizes that
fit: those up to 4000, which is the data, and those from 4016 on, which nobody copies. -/
theorem enclosed_iff (m msgSize devMsgSize : Nat) :
    Enclosed m msgSize devMsgSize ↔ Fits msgSize ∧ Fits devMsgSize := by
  constructor
  · intro h
    constructor
    · refine fits_of_touches (h.resetDevice .plain) fun hcopied b h1 h2 => ?_
      rw [resetDevice_plain hcopied]
      exact ((copyFromUserIo_plain _ _).2.touches b h1 h2).left _
    · refine fits_of_touches (h.socCustom .plain) fun hcopied b h1 h2 => ?_
      obtain ⟨before, hsplit⟩ := socCustom_plain m msgSize hcopied
      rw [hsplit]
      exact ((copyToUserIo_plain _ _).2.touches b h1 h2).right _
  · rintro ⟨hmsg, hdev⟩
    exact ⟨fun env => msgGeneral_inData hmsg hdev env m,
      fun env => socCustom_inData hmsg hdev env m, fun env => resetDevice_inData hmsg env m,
      fun env => waitFwRebootComplete_inData hmsg env m⟩

/-- The largest payload that is copied goes 15 bytes past the structure. -/
theorem largest_payload_overruns :
    ¬ ∀ m msgSize devMsgSize, Enclosed m msgSize devMsgSize := by
  intro h
  have overrun := ((h 0 4015 0).resetDevice .plain).touches (b := 4030) ?_
  · revert overrun
    decide
  · rw [resetDevice_plain (by decide)]
    exact ((copyFromUserIo_plain _ _).2.touches 4030 (by decide) (by decide)).left _

end DxNpuDriver.Rt.Payload
