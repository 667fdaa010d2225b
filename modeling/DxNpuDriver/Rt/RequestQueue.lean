import DxNpuDriver.Lib.Bytes

/-! Submitting a request (`dxrt_drv_queue.c`, `dxrt_npu_run_requset_acc`).

A request queue stands in the memory of the device: 2048 bytes of requests and behind them
the words that say where they start and end. The host asks for the queue with its lock
word, waits for the device to grant it, copies the request to the slot `rear`, moves `rear`
and `count`, gives the queue back and waits for the device to acknowledge its interrupt.

What the device does about that is what the host reads of `flag`, `enable` and `irq_done`.
Two of its silences leave something behind: a lock that it does not grant stays asked for,
and a request that it does not acknowledge is in the queue although the caller is told that
it failed (`submit_iff`). -/
namespace DxNpuDriver.Rt.RequestQueue

/-! ### `dxrt_queue_t` -/

def bufferSize : Nat := 2048

def lockWord : Nat := 2048
def frontWord : Nat := 2052
def rearWord : Nat := 2056
def countWord : Nat := 2060
def maxCountWord : Nat := 2064
def elemSizeWord : Nat := 2068
def enableWord : Nat := 2072
def irqDoneWord : Nat := 2076
def accesCountWord : Nat := 2088

/-- `sizeof(dxrt_queue_t)`. -/
def queueSize : Nat := 2092

/-- `sizeof(dxrt_request_acc_t)`. -/
def requestSize : Nat := 120

/-- `DX_QUEUE_UNLOCK` and `DX_QUEUE_HOST_LOCK`. -/
def queueUnlock : Nat := 0
def queueHostLock : Nat := 33

/-- `DX_FLAG_LOCK`. -/
def flagLock : Nat := 1

def EINVAL : Int := 22
def EBUSY : Int := 16

/-- `dxrt_init_queue`. -/
def initQueue (maxCount elemSize : Nat) (q : Bytes) : Bytes :=
  (((q.copy 0 queueSize fun _ => 0).setWord maxCountWord maxCount).setWord elemSizeWord
    elemSize).setWord enableWord 1

/-- `dxrt_is_queue_full`. -/
def isQueueFull (q : Bytes) : Bool := q.word countWord = q.word maxCountWord

/-- `dxrt_lock_queue`, whose return value is 1. -/
def lockQueue (q : Bytes) : Bytes := q.setWord lockWord queueHostLock

/-- `dxrt_unlock_queue`. -/
def unlockQueue (q : Bytes) : Bytes := q.setWord lockWord queueUnlock

/-- The loop of `dxrt_lock_check`, with `n` polls to go. -/
def lockCheckLoop (flag : Nat → Nat) (i : Nat) : Nat → Bool
  | 0 => false
  | n + 1 => if flag i = flagLock then true else lockCheckLoop flag (i + 1) n

/-- `DXRT_ENQUEUE_TIMEOUT`, counted down to 0. -/
def polls : Nat := 1000000 + 1

/-- `dxrt_lock_check`; `flag i` is what poll `i` reads. -/
def lockCheck (flag : Nat → Nat) : Bool := lockCheckLoop flag 0 polls

/-- The loop of `dxrt_enqueue_irq_done`, with `n` polls to go: whether it is acknowledged. -/
def irqDoneLoop (irqDone : Nat → Nat) (i : Nat) : Nat → Bool
  | 0 => false
  | n + 1 => if irqDone i = 1 then irqDoneLoop irqDone (i + 1) n else true

/-- `dxrt_enqueue_irq_done` returns 0. -/
def enqueueIrqDone (irqDone : Nat → Nat) : Bool := irqDoneLoop irqDone 0 polls

/-- The end of `dxrt_enqueue`, behind the copy: `rear` is moved, the accesses and the
requests are counted, the device is notified. -/
def publish (rear : Nat) (q : Bytes) : Bytes :=
  let q := q.setWord rearWord ((rear + 1) % 2 ^ 32 % q.word maxCountWord)
  let q := q.setWord accesCountWord (q.word accesCountWord + 1)
  let q := q.setWord countWord (q.word countWord + 1)
  q.setWord irqDoneWord 1

/-- `dxrt_enqueue`: its return value and the queue. It is not defined where the copy reads
past the request or `max_count` is 0. -/
def enqueue (enable : Nat) (elem : Bytes) (q : Bytes) : Option (Int × Bytes) :=
  if enable = 0 then some (-EINVAL, q)
  else
    let elemSize := q.word elemSizeWord
    let rear := q.word rearWord
    if requestSize < elemSize then none
    else
      let q := q.copy (rear * elemSize % 2 ^ 32) elemSize elem
      if q.word maxCountWord = 0 then none else some (0, publish rear q)

/-- What the host reads of the words that the device writes, one poll after another. -/
structure Device where
  flag : Nat → Nat
  enable : Nat
  irqDone : Nat → Nat

/-- `dxrt_npu_run_requset_acc`. -/
def npuRunRequestAcc (recovering : Bool) (d : Device) (req : Bytes) (q : Bytes) :
    Option (Int × Bytes) :=
  if recovering then some (-EBUSY, q)
  else if isQueueFull q then some (-EBUSY, q)
  else
    let q := lockQueue q
    if lockCheck d.flag then
      (enqueue d.enable req q).map fun r =>
        let q := unlockQueue r.2
        if enqueueIrqDone d.irqDone then (r.1, q) else (-EINVAL, q)
    else some (-EINVAL, q)

/-! ### All or nothing -/

/-- The request stands in the slot at the rear, which is a slot of the buffer, and the queue
is as before with one request more. -/
structure Appended (req q q' : Bytes) : Prop where
  inside : (q.word rearWord + 1) * q.word elemSizeWord ≤ bufferSize
  buffer : ∀ b < bufferSize, q' b =
    q.copy (q.word rearWord * q.word elemSizeWord) (q.word elemSizeWord) req b
  rear : q'.word rearWord = (q.word rearWord + 1) % 2 ^ 32 % q.word maxCountWord
  count : q'.word countWord = (q.word countWord + 1) % 2 ^ 32
  front : q'.word frontWord = q.word frontWord
  maxCount : q'.word maxCountWord = q.word maxCountWord
  elemSize : q'.word elemSizeWord = q.word elemSizeWord

/-- The queue is free, and what it holds and where is as before. -/
structure Untouched (q q' : Bytes) : Prop where
  lock : q'.word lockWord = queueUnlock
  buffer : ∀ b < bufferSize, q' b = q b
  rear : q'.word rearWord = q.word rearWord
  count : q'.word countWord = q.word countWord
  front : q'.word frontWord = q.word frontWord
  maxCount : q'.word maxCountWord = q.word maxCountWord
  elemSize : q'.word elemSizeWord = q.word elemSizeWord

/-- It comes back, with 0 and the request appended or with an error and the queue
untouched. -/
def AllOrNothing (req q : Bytes) : Option (Int × Bytes) → Prop
  | none => False
  | some (ret, q') => if ret = 0 then Appended req q q' else Untouched q q'

/-- The device grants the lock while the host polls for it. -/
def Granted (d : Device) : Prop := ∃ i < polls, d.flag i = flagLock

/-- The device acknowledges the interrupt while the host polls for it. -/
def Acknowledged (d : Device) : Prop := ∃ i < polls, d.irqDone i ≠ 1

/-- The slot at the rear is one of the buffer and holds no more than a request, and the rear
can be moved. -/
structure Slot (q : Bytes) : Prop where
  inside : (q.word rearWord + 1) * q.word elemSizeWord ≤ bufferSize
  elemSize : q.word elemSizeWord ≤ requestSize
  maxCount : q.word maxCountWord ≠ 0

/-- A call that is refused finds the lock word free. One that is not is granted the lock
and, if the queue is enabled, finds a slot and has its interrupt acknowledged. -/
def Answered (recovering : Bool) (d : Device) (q : Bytes) : Prop :=
  if recovering = true ∨ isQueueFull q = true then q.word lockWord = queueUnlock
  else Granted d ∧ (d.enable ≠ 0 → Slot q ∧ Acknowledged d)

/-! ### The loops -/

theorem lockCheckLoop_iff (flag : Nat → Nat) (i n : Nat) :
    lockCheckLoop flag i n = true ↔ ∃ j < n, flag (i + j) = flagLock := by
  induction n generalizing i with
  | zero => simp [lockCheckLoop]
  | succ n ih =>
    unfold lockCheckLoop
    split
    case isTrue h => exact iff_of_true rfl ⟨0, Nat.succ_pos n, h⟩
    case isFalse h =>
      rw [ih]
      constructor
      · rintro ⟨j, hj, hflag⟩
        exact ⟨j + 1, by omega, by rw [← hflag, Nat.add_assoc, Nat.add_comm 1 j]⟩
      · rintro ⟨j, hj, hflag⟩
        cases j with
        | zero => exact absurd hflag h
        | succ j => exact ⟨j, by omega, by rw [← hflag, Nat.add_assoc, Nat.add_comm 1 j]⟩

theorem lockCheck_iff (d : Device) : lockCheck d.flag = true ↔ Granted d := by
  rw [lockCheck, lockCheckLoop_iff]
  simp only [Nat.zero_add, Granted]

theorem irqDoneLoop_iff (irqDone : Nat → Nat) (i n : Nat) :
    irqDoneLoop irqDone i n = true ↔ ∃ j < n, irqDone (i + j) ≠ 1 := by
  induction n generalizing i with
  | zero => simp [irqDoneLoop]
  | succ n ih =>
    unfold irqDoneLoop
    split
    case isTrue h =>
      rw [ih]
      constructor
      · rintro ⟨j, hj, hdone⟩
        exact ⟨j + 1, by omega, by rwa [Nat.add_comm j 1, ← Nat.add_assoc]⟩
      · rintro ⟨j, hj, hdone⟩
        cases j with
        | zero => exact absurd h hdone
        | succ j => exact ⟨j, by omega, by rwa [Nat.add_assoc, Nat.add_comm 1 j]⟩
    case isFalse h => exact iff_of_true rfl ⟨0, Nat.succ_pos n, h⟩

theorem enqueueIrqDone_iff (d : Device) : enqueueIrqDone d.irqDone = true ↔ Acknowledged d := by
  rw [enqueueIrqDone, irqDoneLoop_iff]
  simp only [Nat.zero_add, Acknowledged]

/-! ### The queue behind each access -/

/-- The same queue, but for its lock word and the words of the handshake. -/
structure Same (q q' : Bytes) : Prop where
  buffer : ∀ b < bufferSize, q' b = q b
  rear : q'.word rearWord = q.word rearWord
  count : q'.word countWord = q.word countWord
  front : q'.word frontWord = q.word frontWord
  maxCount : q'.word maxCountWord = q.word maxCountWord
  elemSize : q'.word elemSizeWord = q.word elemSizeWord

theorem Same.trans {q q' q'' : Bytes} (h : Same q q') (k : Same q' q'') : Same q q'' where
  buffer b hb := (k.buffer b hb).trans (h.buffer b hb)
  rear := k.rear.trans h.rear
  count := k.count.trans h.count
  front := k.front.trans h.front
  maxCount := k.maxCount.trans h.maxCount
  elemSize := k.elemSize.trans h.elemSize

theorem Same.symm {q q' : Bytes} (h : Same q q') : Same q' q where
  buffer b hb := (h.buffer b hb).symm
  rear := h.rear.symm
  count := h.count.symm
  front := h.front.symm
  maxCount := h.maxCount.symm
  elemSize := h.elemSize.symm

/-- Appending looks at no more of the queue. -/
theorem Appended.same {req q₀ q q' q'' : Bytes} (h : Appended req q q') (before : Same q₀ q)
    (after : Same q' q'') : Appended req q₀ q'' where
  inside := by
    rw [← before.rear, ← before.elemSize]
    exact h.inside
  buffer b hb := by
    rw [after.buffer b hb, h.buffer b hb, before.rear, before.elemSize]
    simp only [Bytes.copy, before.buffer b hb]
  rear := by rw [after.rear, h.rear, before.rear, before.maxCount]
  count := by rw [after.count, h.count, before.count]
  front := by rw [after.front, h.front, before.front]
  maxCount := by rw [after.maxCount, h.maxCount, before.maxCount]
  elemSize := by rw [after.elemSize, h.elemSize, before.elemSize]

theorem Slot.same {q q' : Bytes} (h : Slot q) (same : Same q q') : Slot q' where
  inside := by
    rw [same.rear, same.elemSize]
    exact h.inside
  elemSize := by
    rw [same.elemSize]
    exact h.elemSize
  maxCount := by
    rw [same.maxCount]
    exact h.maxCount

theorem same_setLock (q : Bytes) (v : Nat) : Same q (q.setWord lockWord v) where
  buffer _ hb := Bytes.setWord_outside (.inl hb)
  rear := Bytes.word_setWord_of_ne (by decide)
  count := Bytes.word_setWord_of_ne (by decide)
  front := Bytes.word_setWord_of_ne (by decide)
  maxCount := Bytes.word_setWord_of_ne (by decide)
  elemSize := Bytes.word_setWord_of_ne (by decide)

theorem lockQueue_same (q : Bytes) : Same q (lockQueue q) := same_setLock q queueHostLock

theorem unlockQueue_same (q : Bytes) : Same q (unlockQueue q) := same_setLock q queueUnlock

theorem lockQueue_lock (q : Bytes) : (lockQueue q).word lockWord = queueHostLock :=
  Bytes.word_setWord q lockWord queueHostLock

theorem unlockQueue_lock (q : Bytes) : (unlockQueue q).word lockWord = queueUnlock :=
  Bytes.word_setWord q lockWord queueUnlock

/-- A copy within the buffer leaves the words behind it. -/
theorem copy_words {q req : Bytes} {a n : Nat} (h : a + n ≤ bufferSize) {w : Nat}
    (hw : bufferSize ≤ w) : (q.copy a n req).word w = q.word w :=
  Bytes.word_copy (.inr (Nat.le_trans h hw))

/-- The queue after `publish`. -/
structure Published (rear : Nat) (q q' : Bytes) : Prop where
  buffer : ∀ b < bufferSize, q' b = q b
  rear : q'.word rearWord = (rear + 1) % 2 ^ 32 % q.word maxCountWord
  count : q'.word countWord = (q.word countWord + 1) % 2 ^ 32
  front : q'.word frontWord = q.word frontWord
  maxCount : q'.word maxCountWord = q.word maxCountWord
  elemSize : q'.word elemSizeWord = q.word elemSizeWord

theorem publish_spec (rear : Nat) (q : Bytes) : Published rear q (publish rear q) where
  buffer b hb := by
    have behind : ∀ {w : Nat}, bufferSize ≤ w → b < w := fun hw => Nat.lt_of_lt_of_le hb hw
    simp only [publish]
    rw [Bytes.setWord_outside (.inl (behind (by decide))),
      Bytes.setWord_outside (.inl (behind (by decide))),
      Bytes.setWord_outside (.inl (behind (by decide))),
      Bytes.setWord_outside (.inl (behind (by decide)))]
  rear := by
    simp (disch := decide) only [publish, Bytes.word_setWord_of_ne, Bytes.word_setWord]
    exact Nat.mod_eq_of_lt (Nat.lt_of_le_of_lt (Nat.mod_le _ _) (Nat.mod_lt _ (by decide)))
  count := by
    simp (disch := decide) only [publish, Bytes.word_setWord_of_ne, Bytes.word_setWord]
  front := by simp (disch := decide) only [publish, Bytes.word_setWord_of_ne]
  maxCount := by simp (disch := decide) only [publish, Bytes.word_setWord_of_ne]
  elemSize := by simp (disch := decide) only [publish, Bytes.word_setWord_of_ne]

/-- In a slot of the buffer the request is appended. -/
theorem enqueue_appends {q : Bytes} (slot : Slot q) (req : Bytes) {enable : Nat} (henable : enable ≠ 0) :
    ∃ q', enqueue enable req q = some (0, q') ∧ Appended req q q' := by
  obtain ⟨inside, hsize, hmax⟩ := slot
  have hend : q.word rearWord * q.word elemSizeWord + q.word elemSizeWord ≤ bufferSize := by
    rwa [← Nat.succ_mul]
  have hoff : q.word rearWord * q.word elemSizeWord % 2 ^ 32 = q.word rearWord * q.word elemSizeWord :=
    Nat.mod_eq_of_lt (by simp only [bufferSize] at hend; omega)
  simp only [enqueue, if_neg henable, if_neg (Nat.not_lt.mpr hsize), hoff,
    copy_words hend (w := maxCountWord) (by decide), if_neg hmax]
  have published := publish_spec (q.word rearWord)
    (q.copy (q.word rearWord * q.word elemSizeWord) (q.word elemSizeWord) req)
  refine ⟨_, rfl, inside, published.buffer, ?_, ?_, ?_, ?_, ?_⟩
  · rw [published.rear, copy_words hend (by decide)]
  · rw [published.count, copy_words hend (by decide)]
  · rw [published.front, copy_words hend (by decide)]
  · rw [published.maxCount, copy_words hend (by decide)]
  · rw [published.elemSize, copy_words hend (by decide)]

/-- The rear stays only where there is one slot. -/
theorem rear_eq_zero {rear maxCount : Nat} (h32 : rear < 2 ^ 32) (hmax : maxCount ≠ 0)
    (h : (rear + 1) % 2 ^ 32 % maxCount = rear) : rear = 0 := by
  have hlt : rear < maxCount := by
    rw [← h]
    exact Nat.mod_lt _ (Nat.pos_of_ne_zero hmax)
  by_cases hwrap : rear + 1 = 2 ^ 32
  · rw [hwrap, Nat.mod_self, Nat.zero_mod] at h
    exact h.symm
  · rw [Nat.mod_eq_of_lt (by omega : rear + 1 < 2 ^ 32)] at h
    by_cases hlast : rear + 1 = maxCount
    · rw [hlast, Nat.mod_self] at h
      exact h.symm
    · rw [Nat.mod_eq_of_lt (by omega)] at h
      omega

/-- What `enqueue` appends is in a slot. -/
theorem slot_of_appended {q q' q'' req : Bytes} {enable : Nat} (henable : enable ≠ 0) {ret : Int}
    (h : enqueue enable req q = some (ret, q')) (appended : Appended req q q'') : Slot q := by
  simp only [enqueue, if_neg henable, Option.ite_none_left_eq_some, Option.some.injEq,
    Prod.mk.injEq, Nat.not_lt] at h
  obtain ⟨hsize, hmax, -, -⟩ := h
  have hend : q.word rearWord * q.word elemSizeWord + q.word elemSizeWord ≤ bufferSize := by
    rw [← Nat.succ_mul]
    exact appended.inside
  have hoff : q.word rearWord * q.word elemSizeWord % 2 ^ 32 = q.word rearWord * q.word elemSizeWord :=
    Nat.mod_eq_of_lt (by simp only [bufferSize] at hend; omega)
  rw [hoff, copy_words hend (by decide)] at hmax
  exact ⟨appended.inside, hsize, hmax⟩

/-- A request that is published is not undone: what `enqueue` leaves is not the queue
before, whatever slot it writes to. -/
theorem enqueue_touches {q q' req : Bytes} {enable : Nat} (henable : enable ≠ 0) {ret : Int}
    (h : enqueue enable req q = some (ret, q')) : ret = 0 ∧ ¬ Same q q' := by
  simp only [enqueue, if_neg henable, Option.ite_none_left_eq_some, Option.some.injEq,
    Prod.mk.injEq, Nat.not_lt] at h
  obtain ⟨hsize, hmax, rfl, rfl⟩ := h
  refine ⟨rfl, fun same => ?_⟩
  have published := publish_spec (q.word rearWord)
    (q.copy (q.word rearWord * q.word elemSizeWord % 2 ^ 32) (q.word elemSizeWord) req)
  have hmaxSame := published.maxCount.symm.trans same.maxCount
  have hrear := published.rear.symm.trans same.rear
  have hcount := published.count.symm.trans same.count
  rw [hmaxSame] at hrear hmax
  -- a rear that does not move is 0, of a queue of one slot, which lies in the buffer
  have hzero := rear_eq_zero (q.word_lt rearWord) hmax hrear
  rw [hzero, Nat.zero_mul, Nat.zero_mod, copy_words (by
    simp only [requestSize, bufferSize] at *
    omega) (by decide)] at hcount
  have h32 := q.word_lt countWord
  omega

/-! ### Submitting -/

theorem EINVAL_ne : -EINVAL ≠ 0 := by decide

theorem EBUSY_ne : -EBUSY ≠ 0 := by decide

/-- A call that is refused returns the queue as it was. -/
theorem refused_iff (req q : Bytes) :
    AllOrNothing req q (some (-EBUSY, q)) ↔ q.word lockWord = queueUnlock := by
  simp only [AllOrNothing, if_neg EBUSY_ne]
  exact ⟨Untouched.lock, fun lock => ⟨lock, fun _ _ => rfl, rfl, rfl, rfl, rfl, rfl⟩⟩

/-- A lock that is not granted stays asked for. -/
theorem not_ungranted (req q : Bytes) : ¬ AllOrNothing req q (some (-EINVAL, lockQueue q)) := by
  simp only [AllOrNothing, if_neg EINVAL_ne]
  intro untouched
  have lock := untouched.lock
  rw [lockQueue_lock] at lock
  exact absurd lock (by decide)

/-- The last steps with the lock that was granted. -/
theorem granted_iff (d : Device) (req q : Bytes) :
    AllOrNothing req q ((enqueue d.enable req (lockQueue q)).map fun r =>
      if enqueueIrqDone d.irqDone then (r.1, unlockQueue r.2) else (-EINVAL, unlockQueue r.2)) ↔
      (d.enable ≠ 0 → Slot q ∧ Acknowledged d) := by
  have locked := lockQueue_same q
  by_cases henable : d.enable = 0
  · -- a disabled queue is given back as it was
    refine iff_of_true ?_ fun h => absurd henable h
    have untouched : Untouched q (unlockQueue (lockQueue q)) := by
      obtain ⟨buffer, rear, count, front, maxCount, elemSize⟩ := locked.trans (unlockQueue_same _)
      exact ⟨unlockQueue_lock _, buffer, rear, count, front, maxCount, elemSize⟩
    simp only [enqueue, if_pos henable, Option.map_some, ite_self, AllOrNothing, if_neg EINVAL_ne]
    exact untouched
  · constructor
    · intro all _
      cases hresult : enqueue d.enable req (lockQueue q) with
      | none =>
        rw [hresult] at all
        exact all.elim
      | some r =>
        obtain ⟨ret, q'⟩ := r
        obtain ⟨rfl, touched⟩ := enqueue_touches henable hresult
        have unlocked := unlockQueue_same q'
        rw [hresult, Option.map_some] at all
        split at all
        case isTrue done =>
          have appended : Appended req (lockQueue q) q' := Appended.same all locked.symm unlocked.symm
          exact ⟨(slot_of_appended henable hresult appended).same locked.symm,
            (enqueueIrqDone_iff d).mp done⟩
        case isFalse _ =>
          simp only [AllOrNothing, if_neg EINVAL_ne] at all
          have same : Same q (unlockQueue q') :=
            ⟨all.buffer, all.rear, all.count, all.front, all.maxCount, all.elemSize⟩
          exact absurd ((locked.symm.trans same).trans unlocked.symm) touched
    · intro answered
      obtain ⟨slot, done⟩ := answered henable
      obtain ⟨q', hresult, appended⟩ := enqueue_appends (slot.same locked) req henable
      rw [hresult, Option.map_some, if_pos ((enqueueIrqDone_iff d).mpr done)]
      exact appended.same locked (unlockQueue_same q')

/-- A call that is not refused is all or nothing exactly if it is answered. -/
theorem accepted_iff {d : Device} {req q : Bytes} (hfull : isQueueFull q ≠ true) :
    AllOrNothing req q (npuRunRequestAcc false d req q) ↔
      Granted d ∧ (d.enable ≠ 0 → Slot q ∧ Acknowledged d) := by
  unfold npuRunRequestAcc
  rw [if_neg Bool.false_ne_true, if_neg hfull]
  by_cases hgranted : lockCheck d.flag = true
  · simp only [← lockCheck_iff, hgranted, true_and]
    exact granted_iff d req q
  · simp only [if_neg hgranted]
    refine iff_of_false (not_ungranted req q) fun answered => ?_
    exact hgranted ((lockCheck_iff d).mpr answered.1)

/-- A submission is all or nothing exactly if the device answers: a lock that is not granted
stays asked for, and a request whose interrupt is not acknowledged stays in the queue. -/
theorem submit_iff (recovering : Bool) (d : Device) (req q : Bytes) :
    AllOrNothing req q (npuRunRequestAcc recovering d req q) ↔ Answered recovering d q := by
  unfold Answered
  by_cases hrecovering : recovering = true
  · rw [npuRunRequestAcc, if_pos hrecovering, if_pos (.inl hrecovering)]
    exact refused_iff req q
  · rw [Bool.not_eq_true] at hrecovering
    subst hrecovering
    by_cases hfull : isQueueFull q = true
    · rw [npuRunRequestAcc, if_neg Bool.false_ne_true, if_pos hfull, if_pos (.inr hfull)]
      exact refused_iff req q
    · rw [if_neg fun h => h.elim Bool.false_ne_true hfull]
      exact accepted_iff hfull

/-- A fresh queue of ten requests. -/
def fresh : Bytes := initQueue 10 requestSize fun _ => 0

theorem fresh_not_full : isQueueFull fresh ≠ true := by
  have hcount : fresh.word countWord = 0 := by
    simp (disch := decide) only [fresh, initQueue, Bytes.word_setWord_of_ne]
    rfl
  have hmax : fresh.word maxCountWord = 10 := by
    simp (disch := decide) only [fresh, initQueue, Bytes.word_setWord_of_ne, Bytes.word_setWord]
    rfl
  simp only [isQueueFull, hcount, hmax]
  decide

/-- A device that never grants the lock leaves a request for it; one that never acknowledges
the interrupt leaves a request that the caller is told has failed. -/
theorem unanswered_remains :
    ¬ AllOrNothing (fun _ => 0) fresh
      (npuRunRequestAcc false ⟨fun _ => 0, 1, fun _ => 0⟩ (fun _ => 0) fresh) ∧
    ¬ AllOrNothing (fun _ => 0) fresh
      (npuRunRequestAcc false ⟨fun _ => 1, 1, fun _ => 1⟩ (fun _ => 0) fresh) := by
  rw [accepted_iff fresh_not_full, accepted_iff fresh_not_full]
  constructor
  · rintro ⟨⟨i, -, hgranted⟩, -⟩
    cases hgranted
  · rintro ⟨-, answered⟩
    obtain ⟨i, -, hack⟩ := (answered Nat.one_ne_zero).2
    exact hack rfl

end DxNpuDriver.Rt.RequestQueue
