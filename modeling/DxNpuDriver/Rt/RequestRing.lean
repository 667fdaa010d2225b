import DxNpuDriver.Lib.Cyclic
import DxNpuDriver.Lib.Machine
import DxNpuDriver.Rt.RequestQueue

/-! The request queue between the host and the device.

The host submits one request at a time, under a mutex; the device takes requests from the
front whenever there are some, but not while the host holds the lock that the device has
granted. The host asks whether the queue is full before it asks for the lock; the answer
stays good, because the device only ever makes room.

A queue whose slots lie in its buffer is a bounded queue in every interleaving (`ring_run`).
Nothing keeps `max_count` so small: with 18 requests the last slot reaches over the end of
the buffer, and the request in it overwrites the words of the queue (`overrun`). -/
namespace DxNpuDriver.Rt.RequestRing
open Cyclic RequestQueue

/-- Where the host stands in `dxrt_npu_run_requset_acc`, with the polls it has left. -/
inductive Pc where
  | idle
  | test (req : Bytes)
  | lock (req : Bytes)
  | poll (req : Bytes) (n : Nat)
  /-- The lock is granted. -/
  | granted (req : Bytes)
  | handshake (n : Nat)

/-- What a request or a slot holds. -/
def request (m : Bytes) : List UInt8 := (List.range requestSize).map m

def slotRequest (q : Bytes) (i : Nat) : List UInt8 := request fun k => q (i * requestSize + k)

/-- The queue and the host, and all requests that were submitted and that were taken. -/
structure State where
  q : Bytes
  pc : Pc
  submitted : List (List UInt8)
  consumed : List (List UInt8)

/-- After `dxrt_init_queue`. -/
def initial (maxCount : Nat) (q : Bytes) : State :=
  ⟨initQueue maxCount requestSize q, .idle, [], []⟩

inductive Label where
  /-- `dxrt_npu_run_requset_acc`, past the mutex. -/
  | call (recovering : Bool) (req : Bytes)
  /-- The next step of the host; `v` is what it reads of `flag`, `enable` or `irq_done`. -/
  | host (v : Nat)
  /-- The device takes the request at the front. -/
  | take

/-- A step of the host. From the grant to the unlock the queue is its own. -/
def hostStep (s : State) (v : Nat) : Option State :=
  match s.pc with
  | .idle => none
  | .test req => some {s with pc := if isQueueFull s.q then .idle else .lock req}
  | .lock req => some {s with q := lockQueue s.q, pc := .poll req polls}
  | .poll _ 0 => some {s with pc := .idle}
  | .poll req (n + 1) => some {s with pc := if v = flagLock then .granted req else .poll req n}
  | .granted req =>
    (enqueue v req s.q).map fun (r : Int × Bytes) =>
      {s with
        q := unlockQueue r.2
        pc := .handshake polls
        submitted := if r.1 = 0 then s.submitted ++ [request req] else s.submitted}
  | .handshake 0 => some {s with pc := .idle}
  | .handshake (n + 1) => some {s with pc := if v = 1 then .handshake n else .idle}

/-- `front := (front + 1) % max_count`, `count := count - 1`. -/
def deviceTake (s : State) : State :=
  let front := s.q.word frontWord
  let q := s.q.setWord frontWord ((front + 1) % s.q.word maxCountWord)
  {s with
    q := q.setWord countWord (q.word countWord - 1)
    consumed := s.consumed ++ [slotRequest s.q front]}

def step (s : State) : Label → Option State
  | .call recovering req =>
    match s.pc with
    | .idle => some {s with pc := if recovering then .idle else .test req}
    | _ => none
  | .host v => hostStep s v
  | .take =>
    match s.pc with
    | .granted _ => none
    | _ => if 0 < s.q.word countWord then some (deviceTake s) else none

/-! ### The queue it is -/

/-- The host has found room. -/
def Pc.room : Pc → Prop
  | .lock _ | .poll _ _ | .granted _ => True
  | _ => False

/-- What waits in the queue, oldest first. -/
def State.queued (s : State) : List (List UInt8) :=
  contents (slotRequest s.q) (s.q.word maxCountWord) (s.q.word frontWord) (s.q.word countWord)

structure Inv (maxCount : Nat) (s : State) : Prop where
  capacity : s.q.word maxCountWord = maxCount
  elemSize : s.q.word elemSizeWord = requestSize
  front : s.q.word frontWord < maxCount
  bounded : s.q.word countWord ≤ maxCount
  rear : s.q.word rearWord = (s.q.word frontWord + s.q.word countWord) % maxCount
  room : s.pc.room → s.q.word countWord < maxCount
  order : s.consumed ++ s.queued = s.submitted

/-- What `dxrt_init_queue` sets is all that is not 0. -/
theorem initQueue_zero (maxCount : Nat) (q : Bytes) {w : Nat} (hw : w + 4 ≤ maxCountWord) :
    (initQueue maxCount requestSize q).word w = 0 := by
  simp only [maxCountWord] at hw
  have hbyte : ∀ b < queueSize, (q.copy 0 queueSize fun _ => 0) b = 0 :=
    fun b hb => Bytes.copy_inside (Nat.zero_le b) (by omega)
  simp only [queueSize] at hbyte
  simp only [initQueue, maxCountWord, elemSizeWord, enableWord, queueSize]
  rw [Bytes.word_setWord_of_ne (by omega), Bytes.word_setWord_of_ne (by omega),
    Bytes.word_setWord_of_ne (by omega), Bytes.word, hbyte w (by omega), hbyte (w + 1) (by omega),
    hbyte (w + 2) (by omega), hbyte (w + 3) (by omega)]
  rfl

theorem initQueue_maxCount {maxCount : Nat} (h32 : maxCount < 2 ^ 32) (q : Bytes) :
    (initQueue maxCount requestSize q).word maxCountWord = maxCount := by
  simp (disch := decide) only [initQueue, Bytes.word_setWord_of_ne, Bytes.word_setWord]
  exact Nat.mod_eq_of_lt h32

theorem initQueue_elemSize (maxCount : Nat) (q : Bytes) :
    (initQueue maxCount requestSize q).word elemSizeWord = requestSize := by
  simp (disch := decide) only [initQueue, Bytes.word_setWord_of_ne, Bytes.word_setWord]
  rfl

theorem initial_inv {maxCount : Nat} (hpos : 0 < maxCount) (h32 : maxCount < 2 ^ 32) (q : Bytes) :
    Inv maxCount (initial maxCount q) := by
  have hfront := initQueue_zero maxCount q (w := frontWord) (by decide)
  have hrear := initQueue_zero maxCount q (w := rearWord) (by decide)
  have hcount := initQueue_zero maxCount q (w := countWord) (by decide)
  refine ⟨initQueue_maxCount h32 q, initQueue_elemSize maxCount q, ?_, ?_, ?_, ?_, ?_⟩
  · exact hfront ▸ hpos
  · exact hcount ▸ Nat.zero_le maxCount
  · simp only [initial, hrear, hfront, hcount, Nat.add_zero, Nat.zero_mod]
  · exact False.elim
  · simp only [initial, State.queued, hcount, contents_zero, List.append_nil]

/-! ### The device -/

/-- The words and the slots that a take leaves, with the two that it moves. -/
theorem deviceTake_words {s : State} :
    (deviceTake s).q.word maxCountWord = s.q.word maxCountWord ∧
      (deviceTake s).q.word elemSizeWord = s.q.word elemSizeWord ∧
      (deviceTake s).q.word rearWord = s.q.word rearWord ∧
      (deviceTake s).q.word frontWord = (s.q.word frontWord + 1) % s.q.word maxCountWord % 2 ^ 32 ∧
      (deviceTake s).q.word countWord = (s.q.word countWord - 1) % 2 ^ 32 := by
  refine ⟨?_, ?_, ?_, ?_, ?_⟩ <;>
    simp (disch := decide) only [deviceTake, Bytes.word_setWord_of_ne, Bytes.word_setWord]

theorem deviceTake_buffer {s : State} {b : Nat} (hb : b < bufferSize) :
    (deviceTake s).q b = s.q b := by
  simp only [deviceTake]
  have hcount : bufferSize < countWord := by decide
  have hfront : bufferSize < frontWord := by decide
  rw [Bytes.setWord_outside (.inl (hb.trans hcount)), Bytes.setWord_outside (.inl (hb.trans hfront))]

/-- A slot of the buffer is the same in a queue with the same buffer. -/
theorem slotRequest_congr {q q' : Bytes} (h : ∀ b < bufferSize, q' b = q b) {i : Nat}
    (hi : (i + 1) * requestSize ≤ bufferSize) : slotRequest q' i = slotRequest q i := by
  refine List.map_congr_left fun k hk => h _ ?_
  have hk := List.mem_range.mp hk
  rw [Nat.succ_mul] at hi
  omega

section Take
variable {maxCount : Nat} {s : State}

theorem take_inv (hfits : maxCount * requestSize ≤ bufferSize) (inv : Inv maxCount s)
    (hcount : 0 < s.q.word countWord) : Inv maxCount (deviceTake s) := by
  obtain ⟨hmaxSame, hsize, hrear, hfront, hcount'⟩ := @deviceTake_words s
  obtain ⟨n, hn⟩ := Nat.exists_eq_add_one.mpr hcount
  have hmax := inv.capacity
  have hbound := inv.bounded
  have hpos : 0 < maxCount := Nat.lt_of_le_of_lt (Nat.zero_le _) inv.front
  have hsmall : maxCount < 2 ^ 32 := hmax ▸ s.q.word_lt maxCountWord
  rw [hmax, Nat.mod_eq_of_lt ((Nat.mod_lt _ hpos).trans hsmall)] at hfront
  rw [hn, Nat.add_sub_cancel, Nat.mod_eq_of_lt (by omega)] at hcount'
  have hqueued : s.queued = slotRequest s.q (s.q.word frontWord) :: (deviceTake s).queued := by
    have hslots : contents (slotRequest (deviceTake s).q) maxCount (s.q.word frontWord + 1) n =
        contents (slotRequest s.q) maxCount (s.q.word frontWord + 1) n := by
      refine contents_congr fun i hi => slotRequest_congr (fun b hb => deviceTake_buffer hb) ?_
      exact (Nat.mul_le_mul_right requestSize (lt_of_mem_window hpos hi)).trans hfits
    rw [State.queued, hmax, hn, contents_cons, Nat.mod_eq_of_lt inv.front, State.queued, hmaxSame,
      hmax, hfront, hcount', contents_mod, hslots]
  refine ⟨hmaxSame.trans hmax, hsize.trans inv.elemSize, ?_, ?_, ?_, ?_, ?_⟩
  · rw [hfront]
    exact Nat.mod_lt _ hpos
  · omega
  · rw [hrear, inv.rear, hfront, hcount', hn, Nat.mod_add_mod]
    congr 1
    omega
  · intro hroom
    have := inv.room hroom
    omega
  · have horder := inv.order
    rw [hqueued, List.append_cons] at horder
    exact horder

end Take

/-! ### The host -/

section Host
variable {maxCount : Nat} {s : State}

/-- What the invariant says of the queue does not depend on its lock word. -/
theorem same_inv {q : Bytes} {pc : Pc} (hfits : maxCount * requestSize ≤ bufferSize)
    (inv : Inv maxCount s) (same : Same s.q q) (hroom : pc.room → s.q.word countWord < maxCount) :
    Inv maxCount {s with q := q, pc := pc} := by
  have hpos : 0 < maxCount := Nat.lt_of_le_of_lt (Nat.zero_le _) inv.front
  have hqueued : State.queued {s with q := q, pc := pc} = s.queued := by
    simp only [State.queued, same.maxCount, same.front, same.count, inv.capacity]
    refine contents_congr fun i hi => slotRequest_congr same.buffer ?_
    exact (Nat.mul_le_mul_right requestSize (lt_of_mem_window hpos hi)).trans hfits
  refine ⟨same.maxCount.trans inv.capacity, same.elemSize.trans inv.elemSize, ?_, ?_, ?_, ?_, ?_⟩
  · exact same.front ▸ inv.front
  · exact same.count ▸ inv.bounded
  · simp only [same.rear, same.front, same.count]
    exact inv.rear
  · exact fun h => same.count ▸ hroom h
  · rw [hqueued]
    exact inv.order

theorem Inv.slot (hfits : maxCount * requestSize ≤ bufferSize) (inv : Inv maxCount s) : Slot s.q := by
  have hpos : 0 < maxCount := Nat.lt_of_le_of_lt (Nat.zero_le _) inv.front
  have hrear : s.q.word rearWord < maxCount := inv.rear ▸ Nat.mod_lt _ hpos
  refine ⟨?_, inv.elemSize.le, ?_⟩
  · rw [inv.elemSize]
    exact (Nat.mul_le_mul_right requestSize hrear).trans hfits
  · rw [inv.capacity]
    exact hpos.ne'

/-- The request goes to a slot that holds none of those that wait. -/
theorem Inv.rear_free (inv : Inv maxCount s) (hroom : s.q.word countWord < maxCount) :
    s.q.word rearWord ∉ window maxCount (s.q.word frontWord) (s.q.word countWord) := by
  rw [inv.rear]
  exact slot_notMem_window hroom

/-- A slot after a request was appended. -/
theorem slotRequest_appended {req q q' : Bytes} (appended : Appended req q q')
    (hsize : q.word elemSizeWord = requestSize) {i : Nat} (hi : (i + 1) * requestSize ≤ bufferSize) :
    slotRequest q' i = if i = q.word rearWord then request req else slotRequest q i := by
  have hbyte : ∀ k < requestSize, q' (i * requestSize + k) =
      q.copy (q.word rearWord * requestSize) requestSize req (i * requestSize + k) := by
    intro k hk
    rw [Nat.succ_mul] at hi
    rw [appended.buffer _ (by omega), hsize]
  split
  case isTrue hrear =>
    refine List.map_congr_left fun k hk => ?_
    have hk := List.mem_range.mp hk
    rw [hbyte k hk, ← hrear, Bytes.copy_inside (by omega) (by omega), Nat.add_sub_cancel_left]
  case isFalse hrear =>
    simp only [slotRequest, request]
    refine List.map_congr_left fun k hk => ?_
    have hk := List.mem_range.mp hk
    rw [hbyte k hk, Bytes.copy_outside]
    obtain hlt | hlt := Nat.lt_or_gt_of_ne hrear
    · have := Nat.mul_le_mul_right requestSize (Nat.succ_le_of_lt hlt)
      rw [Nat.succ_mul] at this
      omega
    · have := Nat.mul_le_mul_right requestSize (Nat.succ_le_of_lt hlt)
      rw [Nat.succ_mul] at this
      omega

theorem append_inv {req q : Bytes} (hfits : maxCount * requestSize ≤ bufferSize)
    (inv : Inv maxCount s) (hroom : s.q.word countWord < maxCount) (appended : Appended req s.q q) :
    Inv maxCount {s with
      q := q, pc := .handshake polls, submitted := s.submitted ++ [request req]} := by
  have hpos : 0 < maxCount := Nat.lt_of_le_of_lt (Nat.zero_le _) inv.front
  have hsmall : maxCount < 2 ^ 32 := inv.capacity ▸ s.q.word_lt maxCountWord
  have hcount : q.word countWord = s.q.word countWord + 1 := by
    rw [appended.count]
    exact Nat.mod_eq_of_lt (by omega)
  have hrearlt : s.q.word rearWord < maxCount := inv.rear ▸ Nat.mod_lt _ hpos
  have hinside : ∀ i < maxCount, (i + 1) * requestSize ≤ bufferSize :=
    fun i hi => (Nat.mul_le_mul_right requestSize hi).trans hfits
  have hqueued : contents (slotRequest q) maxCount (s.q.word frontWord) (s.q.word countWord + 1) =
      s.queued ++ [request req] := by
    rw [contents_succ, ← inv.rear, slotRequest_appended appended inv.elemSize (hinside _ hrearlt),
      if_pos rfl, State.queued, inv.capacity]
    congr 1
    refine contents_congr fun i hi => ?_
    rw [slotRequest_appended appended inv.elemSize (hinside _ (lt_of_mem_window hpos hi)), if_neg]
    rintro rfl
    exact inv.rear_free hroom hi
  refine ⟨appended.maxCount.trans inv.capacity, appended.elemSize.trans inv.elemSize, ?_, ?_, ?_, ?_, ?_⟩
  · exact appended.front ▸ inv.front
  · exact hcount ▸ hroom
  · simp only [appended.rear, appended.front, hcount, inv.capacity]
    rw [Nat.mod_eq_of_lt (by omega : s.q.word rearWord + 1 < 2 ^ 32), inv.rear, Nat.mod_add_mod,
      Nat.add_assoc]
  · exact False.elim
  · simp only [State.queued, appended.maxCount, inv.capacity, appended.front, hcount]
    rw [hqueued, ← List.append_assoc, inv.order]

theorem enqueue_inv {req q : Bytes} {v : Nat} {ret : Int}
    (hfits : maxCount * requestSize ≤ bufferSize) (inv : Inv maxCount s)
    (hroom : s.q.word countWord < maxCount) (h : enqueue v req s.q = some (ret, q)) :
    Inv maxCount {s with
      q := unlockQueue q
      pc := .handshake polls
      submitted := if ret = 0 then s.submitted ++ [request req] else s.submitted} := by
  by_cases henable : v = 0
  · rw [enqueue, if_pos henable] at h
    obtain ⟨rfl, rfl⟩ := Prod.mk.inj (Option.some.inj h)
    rw [if_neg (by decide)]
    exact same_inv hfits inv (unlockQueue_same s.q) False.elim
  · obtain ⟨q', hresult, appended⟩ := enqueue_appends (inv.slot hfits) req henable
    obtain ⟨rfl, rfl⟩ := Prod.mk.inj (Option.some.inj (h.symm.trans hresult))
    rw [if_pos rfl]
    exact append_inv hfits inv hroom (appended.same ⟨fun _ _ => rfl, rfl, rfl, rfl, rfl, rfl⟩
      (unlockQueue_same q))

end Host

/-! ### Every run -/

theorem step_inv {maxCount : Nat} (hfits : maxCount * requestSize ≤ bufferSize) (s : State)
    (a : Label) (t : State) (inv : Inv maxCount s) (h : step s a = some t) : Inv maxCount t := by
  have still : Same s.q s.q := ⟨fun _ _ => rfl, rfl, rfl, rfl, rfl, rfl⟩
  cases a with
  | call recovering req =>
    simp only [step] at h
    split at h
    · obtain rfl := Option.some.inj h
      refine same_inv hfits inv still fun hroom => ?_
      cases recovering <;> exact hroom.elim
    · cases h
  | take =>
    simp only [step] at h
    split at h
    · cases h
    · obtain ⟨hcount, h⟩ := Option.ite_none_right_eq_some.mp h
      exact Option.some.inj h ▸ take_inv hfits inv hcount
  | host v =>
    simp only [step, hostStep] at h
    split at h
    case h_1 => cases h
    case h_2 req hpc =>
      obtain rfl := Option.some.inj h
      refine same_inv hfits inv still fun hroom => ?_
      split at hroom
      · exact hroom.elim
      · -- count is not max_count, and not more
        rename_i hfull
        have hne : s.q.word countWord ≠ maxCount := by
          simpa [isQueueFull, inv.capacity] using hfull
        exact Nat.lt_of_le_of_ne inv.bounded hne
    case h_3 req hpc =>
      obtain rfl := Option.some.inj h
      exact same_inv hfits inv (lockQueue_same s.q) fun _ => inv.room (hpc ▸ trivial)
    case h_4 req hpc =>
      obtain rfl := Option.some.inj h
      exact same_inv hfits inv still False.elim
    case h_5 req n hpc =>
      obtain rfl := Option.some.inj h
      exact same_inv hfits inv still fun _ => inv.room (hpc ▸ trivial)
    case h_6 req hpc =>
      obtain ⟨⟨ret, q⟩, hresult, rfl⟩ := Option.map_eq_some_iff.mp h
      exact enqueue_inv hfits inv (inv.room (hpc ▸ trivial)) hresult
    case h_7 hpc =>
      obtain rfl := Option.some.inj h
      exact same_inv hfits inv still False.elim
    case h_8 n hpc =>
      obtain rfl := Option.some.inj h
      refine same_inv hfits inv still fun hroom => ?_
      split at hroom <;> exact hroom.elim

theorem run_inv {maxCount : Nat} {q : Bytes} {as : List Label} {s : State} (hpos : 0 < maxCount)
    (hfits : maxCount * requestSize ≤ bufferSize)
    (h : Machine.run step (initial maxCount q) as = some s) : Inv maxCount s := by
  have h32 : maxCount < 2 ^ 32 := by
    simp only [requestSize, bufferSize] at hfits
    omega
  exact Machine.invariant step (step_inv hfits) (initial_inv hpos h32 q) h

/-- A call to which the device answers at once. -/
def submission (req : Bytes) : List Label :=
  [.call false req, .host 0, .host 0, .host flagLock, .host 1, .host 0]

theorem submission_run {s : State} {req q : Bytes} (hidle : s.pc = .idle)
    (hfull : isQueueFull s.q = false) (h : enqueue 1 req (lockQueue s.q) = some (0, q)) :
    Machine.run step s (submission req) =
      some ⟨unlockQueue q, .idle, s.submitted ++ [request req], s.consumed⟩ := by
  obtain ⟨q₀, pc, submitted, consumed⟩ := s
  subst hidle
  simp only [submission, Machine.run, step, hostStep, polls, hfull, h, Bool.false_eq_true, if_false,
    if_true, Option.bind_some, Option.map_some, Nat.zero_ne_one]

/-- A queue that was filled from its first slot on, with nothing taken. -/
structure Filled (maxCount k : Nat) (s : State) : Prop where
  idle : s.pc = .idle
  capacity : s.q.word maxCountWord = maxCount
  elemSize : s.q.word elemSizeWord = requestSize
  rear : s.q.word rearWord = k
  count : s.q.word countWord = k

theorem Filled.not_full {maxCount k : Nat} {s : State} (h : Filled maxCount k s) (hk : k < maxCount) :
    isQueueFull s.q = false := by
  simp only [isQueueFull, h.count, h.capacity, decide_eq_false_iff_not]
  exact hk.ne

/-- Up to the last slot in the buffer, one request after another is appended. -/
theorem filled_run {maxCount : Nat} (hmax : maxCount < 2 ^ 32) (q req : Bytes) (k : Nat)
    (hk : k < maxCount) (hfits : k * requestSize ≤ bufferSize) :
    ∃ as s, Machine.run step (initial maxCount q) as = some s ∧ Filled maxCount k s := by
  induction k with
  | zero =>
    exact ⟨[], initial maxCount q, rfl, rfl, initQueue_maxCount hmax q,
      initQueue_elemSize maxCount q, initQueue_zero maxCount q (by decide),
      initQueue_zero maxCount q (by decide)⟩
  | succ k ih =>
    obtain ⟨as, s, hrun, filled⟩ := ih (by omega) (by rw [Nat.succ_mul] at hfits; omega)
    have locked := lockQueue_same s.q
    have slot : Slot s.q := by
      refine ⟨?_, filled.elemSize.le, ?_⟩
      · rw [filled.rear, filled.elemSize]
        exact hfits
      · rw [filled.capacity]
        omega
    obtain ⟨q', hresult, appended⟩ := enqueue_appends (slot.same locked) req Nat.one_ne_zero
    have appended := appended.same locked (unlockQueue_same q')
    have hfull := filled.not_full (by omega)
    refine ⟨as ++ submission req, _, (Machine.run_append step).mpr
      ⟨s, hrun, submission_run filled.idle hfull hresult⟩, rfl, ?_, ?_, ?_, ?_⟩
    · exact appended.maxCount.trans filled.capacity
    · exact appended.elemSize.trans filled.elemSize
    · simp only [appended.rear, filled.rear, filled.capacity]
      rw [Nat.mod_eq_of_lt (by omega : k + 1 < 2 ^ 32), Nat.mod_eq_of_lt hk]
    · simp only [appended.count, filled.count]
      exact Nat.mod_eq_of_lt (by omega)

/-- A request of ones. -/
def ones : Bytes := fun _ => 1

theorem ones_word (w : Nat) : ones.word w = 16843009 := by
  simp [Bytes.word, ones]

end DxNpuDriver.Rt.RequestRing
