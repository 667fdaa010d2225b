import DxNpuDriver.Kernel
import DxNpuDriver.Lib.Machine
import Mathlib.Logic.Function.Basic

/-! The PING probe (`fw_ping_probe` in `dxrt_drv_recovery.c`).

A probe writes a PING with a number of its own into the mailbox, waits for an ack that may
be anybody's, and looks whether the mailbox has the PONG of its number. The two words that
it looks at are those where it has written its own magic and number, so what an earlier
message leaves there is gone, and what its late reply writes there has another number.

But the words are written one by one, and read one by one. A late PONG that comes between
the magic and the number of the request has its number overwritten by the one that the
probe waits for (`late_pong_accepted`). Where no reply comes between the two words, a probe
returns 0 only if the firmware has processed its PING (`apart_run_truthful`).

Every other sender writes the mailbox under `msg_lock`, as the probe does; the firmware does
not take it. What decides the branches of a probe, `recovery_epoch`, the device state and
the clock, may change at any time. -/
namespace DxNpuDriver.Rt.Ping

/-- `DX_PCIE_PING_MAGIC`. -/
def pingMagic : Nat := 0x50494E47

/-- `DX_PCIE_PONG_MAGIC`. -/
def pongMagic : Nat := 0x504F4E47

/-- `sizeof(dx_pcie_ping_req_t)`. -/
def sizeofReq : Nat := 16

/-- `sizeof(dx_pcie_pong_resp_t)`. -/
def sizeofResp : Nat := 32

/-- `sizeof(dxrt_device_message_t)`. -/
def sizeofDeviceMessage : Nat := 4016

/-- The words of the mailbox that a probe looks at; `magic` and `seq` are the first two of
its data. -/
inductive Word where
  | ack | size | magic | seq
  deriving DecidableEq

structure Mailbox where
  ack : Nat
  size : Nat
  magic : Nat
  seq : Nat

def Mailbox.set (m : Mailbox) (v : Nat) : Word → Mailbox
  | .ack => {m with ack := v}
  | .size => {m with size := v}
  | .magic => {m with magic := v}
  | .seq => {m with seq := v}

/-- Where a probe stands, and what it has read. The rest of the request, `cmd` and `sub_cmd`
are written between `writeSeq` and `writeSize`. -/
inductive Pc where
  | entry
  | draw
  | lock
  | recheck
  | writeMagic
  | writeSeq
  | writeSize
  | writeAck
  | bell
  | poll
  | check (ack : Nat)
  | readSize
  | readMagic
  | readSeq (magic : Nat)
  | unlock (ret : Ret)
  | returned (ret : Ret)
  deriving DecidableEq

/-- A call; `seq` is 0 until it has drawn its number, `changed` that it has seen the epoch or
the state change. -/
structure Probe where
  pc : Pc
  seq : Nat
  changed : Bool

def Probe.at (p : Probe) (pc : Pc) : Probe := {p with pc := pc}

/-- It has seen a change. -/
def Probe.again (p : Probe) (pc : Pc) : Probe := {p with pc := pc, changed := true}

inductive Holder where
  | probe (i : Nat)
  | other
  deriving DecidableEq

/-- Calls are numbered, beside the number they draw. Of the firmware, `sent` are the calls
whose doorbell has rung, `processed` those whose PING it has processed; `payload` is the
second word of a payload of which it has written the first. -/
structure State where
  mailbox : Mailbox
  msgLock : Option Holder
  /-- `dxrt_ping_seq_gen`, and how many probes have drawn from it. -/
  drawn : Nat
  probe : Nat → Probe
  sent : List Nat
  processed : List Nat
  payload : Option Nat

/-- The mailbox may have any content. -/
def start (m : Mailbox) : State := ⟨m, none, 0, fun _ => ⟨.entry, 0, false⟩, [], [], none⟩

/-- What a step of a probe does. -/
inductive Effect where
  | quiet
  | draw
  | lock
  | unlock
  | write (w : Word) (v : Nat)
  | bell

/-- The next access of `fw_ping_probe`. `seen` is that the epoch or the state is found to have
changed, or the deadline to have passed. -/
def fwPingProbe (s : State) (seen : Bool) (p : Probe) : Option (Effect × Probe) :=
  match p.pc with
  | .entry =>
    some (.quiet, if seen then p.again (.returned (.err .EAGAIN)) else p.at .draw)
  | .draw => some (.draw, {p with pc := .lock, seq := (s.drawn + 1) % 2 ^ 32})
  | .lock => if s.msgLock = none then some (.lock, p.at .recheck) else none
  | .recheck =>
    some (.quiet, if seen then p.again (.unlock (.err .EAGAIN)) else p.at .writeMagic)
  | .writeMagic => some (.write .magic pingMagic, p.at .writeSeq)
  | .writeSeq => some (.write .seq p.seq, p.at .writeSize)
  | .writeSize => some (.write .size sizeofReq, p.at .writeAck)
  | .writeAck => some (.write .ack 0, p.at .bell)
  | .bell => some (.bell, p.at .poll)
  | .poll => some (.quiet, p.at (if seen then .unlock (.err .ETIMEDOUT) else .check s.mailbox.ack))
  | .check ack =>
    some (.quiet,
      if seen then p.again (.unlock (.err .EAGAIN))
      else if ack = 2 ^ 32 - 1 then p.at (.unlock (.err .ENODEV))
      else if ack = 1 then p.at .readSize
      else p.at .poll)
  | .readSize =>
    some (.quiet, p.at (if s.mailbox.size < sizeofResp ∨ sizeofDeviceMessage ≤ s.mailbox.size then
      .unlock (.err Errno.EIO) else .readMagic))
  | .readMagic => some (.quiet, p.at (.readSeq s.mailbox.magic))
  | .readSeq magic =>
    some (.quiet, p.at (.unlock (if magic ≠ pongMagic ∨ s.mailbox.seq ≠ p.seq then .err Errno.EIO
      else .ok)))
  | .unlock ret => some (.unlock, p.at (.returned ret))
  | .returned _ => none

def State.apply (s : State) (i : Nat) : Effect → State
  | .quiet => s
  | .draw => {s with drawn := s.drawn + 1}
  | .lock => {s with msgLock := some (.probe i)}
  | .unlock => {s with msgLock := none}
  | .write w v => {s with mailbox := s.mailbox.set v w}
  | .bell => {s with sent := i :: s.sent}

def State.put (s : State) (i : Nat) (p : Probe) : State :=
  {s with probe := Function.update s.probe i p}

/-- The number is that of a PING which the firmware has processed. -/
def Echo (s : State) (w : Nat) : Prop := ∃ j ∈ s.processed, (s.probe j).seq = w

instance (s : State) (w : Nat) : Decidable (Echo s w) :=
  inferInstanceAs (Decidable (∃ j ∈ s.processed, _))

inductive Label where
  /-- There is no device, or no mailbox. -/
  | absent (i : Nat)
  | probe (i : Nat) (seen : Bool)
  /-- A probe of another device draws a number. -/
  | elsewhere
  | otherLock
  | otherWrite (w : Word) (v : Nat)
  | otherUnlock
  /-- The firmware processes the PING of a call. -/
  | process (i : Nat)
  /-- It writes the first word of a payload that has these two, -/
  | payload (magic seq : Nat)
  /-- and then the second. -/
  | payloadSeq
  | replySize (v : Nat)
  | replyAck (v : Nat)

/-- A payload with the magic of a PONG has the number of a PING that was processed, and fewer
than 2^32 probes are sent. -/
def step (s : State) : Label → Option State
  | .absent i =>
    if (s.probe i).pc = .entry then some (s.put i ((s.probe i).at (.returned (.err .ENODEV))))
    else none
  | .probe i seen =>
    match fwPingProbe s seen (s.probe i) with
    | none => none
    | some (e, p) =>
      if (s.probe i).pc = .draw ∧ 2 ^ 32 ≤ s.drawn + 1 then none else some ((s.apply i e).put i p)
  | .elsewhere => if s.drawn + 1 < 2 ^ 32 then some {s with drawn := s.drawn + 1} else none
  | .otherLock => if s.msgLock = none then some {s with msgLock := some .other} else none
  | .otherWrite w v =>
    if s.msgLock = some .other then some {s with mailbox := s.mailbox.set v w} else none
  | .otherUnlock => if s.msgLock = some .other then some {s with msgLock := none} else none
  | .process i => if i ∈ s.sent then some {s with processed := i :: s.processed} else none
  | .payload magic seq =>
    if s.payload = none ∧ (magic = pongMagic → Echo s seq) then
      some {s with mailbox := s.mailbox.set magic .magic, payload := some seq}
    else none
  | .payloadSeq =>
    match s.payload with
    | none => none
    | some seq => some {s with mailbox := s.mailbox.set seq .seq, payload := none}
  | .replySize v => some {s with mailbox := s.mailbox.set v .size}
  | .replyAck v => some {s with mailbox := s.mailbox.set v .ack}

/-! ### Numbers and the lock -/

/-- The probe holds `msg_lock`. -/
def Pc.holds : Pc → Bool
  | .entry | .draw | .lock | .returned _ => false
  | _ => true

/-- It has its number. -/
def Pc.numbered : Pc → Bool
  | .entry | .draw | .returned _ => false
  | _ => true

/-- It neither draws nor takes or gives the lock. -/
def Effect.inside : Effect → Bool
  | .quiet | .write _ _ | .bell => true
  | .draw | .lock | .unlock => false

/-- It stands between the two words of its request, or of the reply. -/
def Pc.between : Pc → Bool
  | .writeSeq | .readSeq _ => true
  | _ => false

/-- A probe that has seen a change is on its way out with `-EAGAIN`, and has left with it. -/
def Probe.Leaves (p : Probe) : Prop :=
  p.changed = true → p.pc = .unlock (.err .EAGAIN) ∨ p.pc = .returned (.err .EAGAIN)

/-- What a step of a probe comes to. -/
structure Turn (s : State) (p : Probe) (e : Effect) (q : Probe) : Prop where
  draw : p.pc = .draw → e = .draw ∧ q.seq = (s.drawn + 1) % 2 ^ 32
  seq : p.pc ≠ .draw → q.seq = p.seq ∧ e ≠ .draw
  early : q.pc = .entry ∨ q.pc = .draw → p.pc = .entry ∧ q.seq = p.seq
  numbered : q.pc.numbered = true → p.pc.numbered = true ∨ p.pc = .draw
  lock : e = .lock → s.msgLock = none ∧ q.pc.holds = true
  unlock : e = .unlock → p.pc.holds = true ∧ q.pc.holds = false
  holds : e ≠ .lock → e ≠ .unlock → q.pc.holds = p.pc.holds
  write : ∀ w v, e = .write w v → p.pc.holds = true
  bell : e = .bell → p.pc.numbered = true
  leaves : p.Leaves → q.Leaves

theorem numbered_of_holds {pc : Pc} (h : pc.holds = true) : pc.numbered = true := by
  cases pc <;> first | rfl | cases h

/-- A step under the lock. -/
theorem turn_within {s : State} {p q : Probe} {e : Effect} (he : e.inside = true)
    (hp : p.pc.holds = true) (hq : q.pc.holds = true) (hseq : q.seq = p.seq)
    (leaves : p.Leaves → q.Leaves) : Turn s p e q where
  draw h := by simp [h, Pc.holds] at hp
  seq _ := ⟨hseq, by rintro rfl; cases he⟩
  early := by rintro (h | h) <;> simp [h, Pc.holds] at hq
  numbered _ := .inl (numbered_of_holds hp)
  lock h := by rw [h] at he; cases he
  unlock h := by rw [h] at he; cases he
  holds _ _ := hq.trans hp.symm
  write _ _ _ := hp
  bell _ := numbered_of_holds hp
  leaves := leaves

/-- Who has seen no change goes on. -/
theorem leaves_at {p : Probe} {pc : Pc} (hunlock : p.pc ≠ .unlock (.err .EAGAIN))
    (hreturned : p.pc ≠ .returned (.err .EAGAIN)) (h : p.Leaves) : (p.at pc).Leaves := by
  intro hchanged
  rcases h hchanged with h | h
  · exact absurd h hunlock
  · exact absurd h hreturned

theorem fwPingProbe_turn {s : State} {seen : Bool} {p q : Probe} {e : Effect}
    (h : fwPingProbe s seen p = some (e, q)) : Turn s p e q := by
  obtain ⟨pc, seq, changed⟩ := p
  have within {e : Effect} {pc' : Pc} (he : e.inside = true) (hp : pc.holds = true)
      (hout : pc ≠ .unlock (.err .EAGAIN)) (hq : pc'.holds = true) :
      Turn s ⟨pc, seq, changed⟩ e ⟨pc', seq, changed⟩ :=
    turn_within he hp hq rfl
      (leaves_at (p := ⟨pc, seq, changed⟩) hout (by rintro rfl; cases hp))
  have again (hp : pc.holds = true) :
      Turn s ⟨pc, seq, changed⟩ .quiet ⟨.unlock (.err .EAGAIN), seq, true⟩ :=
    turn_within rfl hp rfl rfl fun _ _ => .inl rfl
  cases pc with
  | returned => cases h
  | entry =>
    cases h
    constructor <;> cases seen <;> simp [Probe.at, Probe.again, Pc.holds, Pc.numbered, Probe.Leaves]
  | draw | unlock =>
    cases h
    constructor <;> simp [Probe.at, Pc.holds, Pc.numbered, Probe.Leaves]
  | lock =>
    simp only [fwPingProbe] at h
    split at h
    · next hlock =>
      cases h
      constructor <;> simp_all [Probe.at, Pc.holds, Pc.numbered, Probe.Leaves]
    · cases h
  | recheck =>
    cases h
    cases seen with
    | true => exact again rfl
    | false => exact within rfl rfl (by simp) rfl
  | check ack =>
    cases h
    cases seen with
    | true => exact again rfl
    | false =>
      rw [if_neg Bool.false_ne_true]
      split
      · exact within rfl rfl (by simp) rfl
      · split
        · exact within rfl rfl (by simp) rfl
        · exact within rfl rfl (by simp) rfl
  | poll | readSize =>
    cases h
    apply within rfl rfl (by simp)
    split <;> rfl
  | _ =>
    cases h
    exact within rfl rfl (by simp) rfl

/-- Without a device a probe leaves as it has come. -/
theorem absent_turn {s : State} {p : Probe} (hpc : p.pc = .entry) :
    Turn s p .quiet (p.at (.returned (.err .ENODEV))) := by
  refine ⟨?_, fun _ => ⟨rfl, by simp⟩, ?_, ?_, ?_, ?_, ?_, ?_, ?_, leaves_at ?_ ?_⟩ <;>
    simp [hpc, Probe.at, Pc.holds, Pc.numbered]

/-- The numbers that were drawn are below 2^32 and all different, and the lock is with the
probe that has taken it. -/
structure Kept (s : State) : Prop where
  drawn_lt : s.drawn < 2 ^ 32
  seq_le : ∀ i, (s.probe i).seq ≤ s.drawn
  alone : ∀ i j, (s.probe i).seq ≠ 0 → (s.probe i).seq = (s.probe j).seq → i = j
  early : ∀ i, (s.probe i).pc = .entry ∨ (s.probe i).pc = .draw → (s.probe i).seq = 0
  numbered : ∀ i, (s.probe i).pc.numbered = true → (s.probe i).seq ≠ 0
  sent : ∀ i ∈ s.sent, (s.probe i).seq ≠ 0
  processed : ∀ i ∈ s.processed, i ∈ s.sent
  lock : ∀ i, (s.probe i).pc.holds = true ↔ s.msgLock = some (.probe i)
  leaves : ∀ i, (s.probe i).Leaves

theorem start_kept (m : Mailbox) : Kept (start m) := by
  constructor <;> simp [start, Pc.numbered, Pc.holds, Probe.Leaves]

@[simp] theorem put_self (s : State) (i : Nat) (p : Probe) : (s.put i p).probe i = p :=
  Function.update_self ..

theorem put_of_ne (s : State) {i j : Nat} (p : Probe) (h : j ≠ i) :
    (s.put i p).probe j = s.probe j := Function.update_of_ne h ..

/-- What holds of one probe and of the others holds of each. -/
theorem forall_put {s : State} {i : Nat} {p : Probe} {P : Nat → Probe → Prop} (hp : P i p)
    (h : ∀ j, j ≠ i → P j (s.probe j)) (j : Nat) : P j ((s.put i p).probe j) := by
  by_cases hj : j = i
  · subst hj
    rwa [put_self]
  · rw [put_of_ne s p hj]
    exact h j hj

/-- A step that draws nothing, and leaves the numbers and the lock as they are. -/
theorem Kept.same {s t : State} (kept : Kept s) (hdrawn : t.drawn = s.drawn)
    (hprobe : t.probe = s.probe) (hsent : t.sent = s.sent) (hprocessed : t.processed = s.processed)
    (hlock : t.msgLock = s.msgLock) : Kept t := by
  constructor
  · rw [hdrawn]
    exact kept.drawn_lt
  · rw [hdrawn, hprobe]
    exact kept.seq_le
  · rw [hprobe]
    exact kept.alone
  · rw [hprobe]
    exact kept.early
  · rw [hprobe]
    exact kept.numbered
  · rw [hprobe, hsent]
    exact kept.sent
  · rw [hprocessed, hsent]
    exact kept.processed
  · rw [hprobe, hlock]
    exact kept.lock
  · rw [hprobe]
    exact kept.leaves

section Turn
variable {s : State} {i : Nat} {e : Effect} {q : Probe}

@[simp] theorem apply_probe : (s.apply i e).probe = s.probe := by cases e <;> rfl

@[simp] theorem apply_processed : (s.apply i e).processed = s.processed := by cases e <;> rfl

@[simp] theorem put_drawn (p : Probe) : (s.put i p).drawn = s.drawn := rfl

@[simp] theorem put_sent (p : Probe) : (s.put i p).sent = s.sent := rfl

@[simp] theorem put_processed (p : Probe) : (s.put i p).processed = s.processed := rfl

@[simp] theorem put_msgLock (p : Probe) : (s.put i p).msgLock = s.msgLock := rfl

@[simp] theorem put_mailbox (p : Probe) : (s.put i p).mailbox = s.mailbox := rfl

@[simp] theorem put_payload (p : Probe) : (s.put i p).payload = s.payload := rfl

theorem drawn_le_apply : s.drawn ≤ (s.apply i e).drawn := by
  cases e with
  | draw => exact Nat.le_succ _
  | _ => exact Nat.le_refl _

theorem sent_apply {j : Nat} (h : j ∈ (s.apply i e).sent) : j ∈ s.sent ∨ j = i ∧ e = .bell := by
  cases e with
  | bell =>
    rcases List.mem_cons.mp h with rfl | h
    · exact .inr ⟨rfl, rfl⟩
    · exact .inl h
  | _ => exact .inl h

/-- A number is drawn once. -/
theorem Kept.seq_turn (kept : Kept s) (turn : Turn s (s.probe i) e q)
    (few : (s.probe i).pc = .draw → s.drawn + 1 < 2 ^ 32) :
    q.seq = (s.probe i).seq ∧ e ≠ .draw ∨
      (s.probe i).seq = 0 ∧ q.seq = s.drawn + 1 ∧ e = .draw := by
  by_cases hdraw : (s.probe i).pc = .draw
  · obtain ⟨he, hseq⟩ := turn.draw hdraw
    rw [Nat.mod_eq_of_lt (few hdraw)] at hseq
    exact .inr ⟨kept.early i (.inr hdraw), hseq, he⟩
  · exact .inl (turn.seq hdraw)

theorem Kept.lock_turn (kept : Kept s) (turn : Turn s (s.probe i) e q) (j : Nat) :
    (((s.apply i e).put i q).probe j).pc.holds = true ↔ (s.apply i e).msgLock = some (.probe j) := by
  have others : ∀ j, j ≠ i → e = .lock ∨ e = .unlock →
      ((s.probe j).pc.holds = true ↔ (s.apply i e).msgLock = some (.probe j)) := by
    intro j hj he
    rw [kept.lock j]
    rcases he with rfl | rfl
    · rw [(turn.lock rfl).1]
      simp [State.apply, Ne.symm hj]
    · rw [(kept.lock i).mp (turn.unlock rfl).1]
      simp [State.apply, Ne.symm hj]
  refine forall_put (P := fun j p => p.pc.holds = true ↔ (s.apply i e).msgLock = some (.probe j))
    ?_ (fun j hj => ?_) j
  · cases e with
    | lock => simp [State.apply, (turn.lock rfl).2]
    | unlock => simp [State.apply, (turn.unlock rfl).2]
    | _ =>
      rw [turn.holds (by simp) (by simp)]
      exact kept.lock i
  · rw [apply_probe]
    cases e with
    | lock => exact others j hj (.inl rfl)
    | unlock => exact others j hj (.inr rfl)
    | _ => exact kept.lock j

theorem Kept.seq_le_turn (kept : Kept s) (turn : Turn s (s.probe i) e q)
    (few : (s.probe i).pc = .draw → s.drawn + 1 < 2 ^ 32) : q.seq ≤ (s.apply i e).drawn := by
  rcases kept.seq_turn turn few with ⟨h, -⟩ | ⟨-, h, rfl⟩
  · rw [h]
    exact Nat.le_trans (kept.seq_le i) drawn_le_apply
  · exact Nat.le_of_eq h

theorem Kept.nonzero_turn (kept : Kept s) (turn : Turn s (s.probe i) e q)
    (few : (s.probe i).pc = .draw → s.drawn + 1 < 2 ^ 32) (h : (s.probe i).seq ≠ 0) :
    q.seq ≠ 0 := by
  rcases kept.seq_turn turn few with ⟨hq, -⟩ | ⟨h0, -⟩
  · rwa [hq]
  · exact absurd h0 h

/-- A probe that has its number keeps it. -/
theorem Kept.seq_ne_zero_turn (kept : Kept s) (turn : Turn s (s.probe i) e q)
    (few : (s.probe i).pc = .draw → s.drawn + 1 < 2 ^ 32) {j : Nat} (h : (s.probe j).seq ≠ 0) :
    (((s.apply i e).put i q).probe j).seq ≠ 0 := by
  by_cases hj : j = i
  · subst hj
    rw [put_self]
    exact kept.nonzero_turn turn few h
  · rwa [put_of_ne _ _ hj, apply_probe]

/-- The number of a probe is nobody else's. -/
theorem Kept.alone_turn (kept : Kept s) (turn : Turn s (s.probe i) e q)
    (few : (s.probe i).pc = .draw → s.drawn + 1 < 2 ^ 32) (j k : Nat) :
    (((s.apply i e).put i q).probe j).seq ≠ 0 →
      (((s.apply i e).put i q).probe j).seq = (((s.apply i e).put i q).probe k).seq → j = k := by
  have apart : ∀ j, j ≠ i → q.seq ≠ 0 → q.seq ≠ (s.probe j).seq := by
    intro j hj hne heq
    rcases kept.seq_turn turn few with ⟨h, -⟩ | ⟨-, h, -⟩
    · rw [h] at hne heq
      exact hj (kept.alone i j hne heq).symm
    · have := kept.seq_le j
      omega
  by_cases hj : j = i
  · subst hj
    by_cases hk : k = j
    · exact fun _ _ => hk.symm
    · rw [put_self, put_of_ne _ _ hk, apply_probe]
      exact fun hne heq => absurd heq (apart k hk hne)
  · rw [put_of_ne _ _ hj, apply_probe]
    by_cases hk : k = i
    · subst hk
      rw [put_self]
      exact fun hne heq => absurd heq.symm (apart j hj (heq ▸ hne))
    · rw [put_of_ne _ _ hk, apply_probe]
      exact kept.alone j k

theorem Kept.turn (kept : Kept s) (turn : Turn s (s.probe i) e q)
    (few : (s.probe i).pc = .draw → s.drawn + 1 < 2 ^ 32) : Kept ((s.apply i e).put i q) := by
  constructor
  · cases e with
    | draw =>
      apply few
      by_contra hdraw
      exact (turn.seq hdraw).2 rfl
    | _ => exact kept.drawn_lt
  · refine forall_put (P := fun _ p => p.seq ≤ (s.apply i e).drawn) ?_ fun j _ => ?_
    · exact kept.seq_le_turn turn few
    · rw [apply_probe]
      exact Nat.le_trans (kept.seq_le j) drawn_le_apply
  · exact kept.alone_turn turn few
  · refine forall_put (P := fun _ p => p.pc = .entry ∨ p.pc = .draw → p.seq = 0) (fun h => ?_)
      fun j _ => ?_
    · obtain ⟨hentry, hq⟩ := turn.early h
      rw [hq]
      exact kept.early i (.inl hentry)
    · rw [apply_probe]
      exact kept.early j
  · refine forall_put (P := fun _ p => p.pc.numbered = true → p.seq ≠ 0) (fun h => ?_) fun j _ => ?_
    · rcases turn.numbered h with h | hdraw
      · exact kept.nonzero_turn turn few (kept.numbered i h)
      · rw [(turn.draw hdraw).2, Nat.mod_eq_of_lt (few hdraw)]
        omega
    · rw [apply_probe]
      exact kept.numbered j
  · intro j hj
    rcases sent_apply hj with hj | ⟨rfl, rfl⟩
    · exact kept.seq_ne_zero_turn turn few (kept.sent j hj)
    · exact kept.seq_ne_zero_turn turn few (kept.numbered j (turn.bell rfl))
  · intro j hj
    rw [put_processed, apply_processed] at hj
    have hsent := kept.processed j hj
    cases e with
    | bell => exact List.mem_cons_of_mem _ hsent
    | _ => exact hsent
  · exact kept.lock_turn turn
  · refine forall_put (P := fun _ p => p.Leaves) (turn.leaves (kept.leaves i)) fun j _ => ?_
    rw [apply_probe]
    exact kept.leaves j

end Turn

/-- What a label does. -/
inductive Stepped (s : State) : Label → State → Prop
  | absent {i} : (s.probe i).pc = .entry →
    Stepped s (.absent i) (s.put i ((s.probe i).at (.returned (.err .ENODEV))))
  | probe {i seen e q} : fwPingProbe s seen (s.probe i) = some (e, q) →
    ((s.probe i).pc = .draw → s.drawn + 1 < 2 ^ 32) →
    Stepped s (.probe i seen) ((s.apply i e).put i q)
  | elsewhere : s.drawn + 1 < 2 ^ 32 → Stepped s .elsewhere {s with drawn := s.drawn + 1}
  | other {l h} : (∀ i, s.msgLock ≠ some (.probe i)) → (∀ i, h ≠ some (.probe i)) →
    ∀ m, l = .otherLock ∨ (∃ w v, l = .otherWrite w v) ∨ l = .otherUnlock →
    Stepped s l {s with msgLock := h, mailbox := m}
  | process {i} : i ∈ s.sent → Stepped s (.process i) {s with processed := i :: s.processed}
  | payload {magic seq} : s.payload = none → (magic = pongMagic → Echo s seq) →
    Stepped s (.payload magic seq) {s with mailbox := s.mailbox.set magic .magic, payload := some seq}
  | payloadSeq {seq} : s.payload = some seq →
    Stepped s .payloadSeq {s with mailbox := s.mailbox.set seq .seq, payload := none}
  | reply {l w v} : w = .size ∨ w = .ack → l = .replySize v ∨ l = .replyAck v →
    Stepped s l {s with mailbox := s.mailbox.set v w}

theorem step_stepped {s t : State} {l : Label} (h : step s l = some t) : Stepped s l t := by
  cases l with
  | probe i seen =>
    simp only [step] at h
    split at h
    · cases h
    · next e q hp =>
      split at h
      · cases h
      · next few =>
        cases h
        exact .probe hp fun hdraw => Nat.lt_of_not_le fun hle => few ⟨hdraw, hle⟩
  | payloadSeq =>
    simp only [step] at h
    split at h
    · cases h
    · next hp =>
      cases h
      exact .payloadSeq hp
  | replySize v =>
    cases h
    exact .reply (.inl rfl) (.inl rfl)
  | replyAck v =>
    cases h
    exact .reply (.inr rfl) (.inr rfl)
  | absent i =>
    simp only [step, Option.ite_none_right_eq_some] at h
    obtain ⟨hpc, h⟩ := h
    cases h
    exact .absent hpc
  | elsewhere =>
    simp only [step, Option.ite_none_right_eq_some] at h
    obtain ⟨few, h⟩ := h
    cases h
    exact .elsewhere few
  | otherLock =>
    simp only [step, Option.ite_none_right_eq_some] at h
    obtain ⟨hlock, h⟩ := h
    cases h
    exact .other (by simp [hlock]) (by simp) s.mailbox (.inl rfl)
  | otherWrite w v =>
    simp only [step, Option.ite_none_right_eq_some] at h
    obtain ⟨hlock, h⟩ := h
    cases h
    exact .other (by simp [hlock]) (by simp [hlock]) _ (.inr (.inl ⟨w, v, rfl⟩))
  | otherUnlock =>
    simp only [step, Option.ite_none_right_eq_some] at h
    obtain ⟨hlock, h⟩ := h
    cases h
    exact .other (by simp [hlock]) (by simp) s.mailbox (.inr (.inr rfl))
  | process i =>
    simp only [step, Option.ite_none_right_eq_some] at h
    obtain ⟨hsent, h⟩ := h
    cases h
    exact .process hsent
  | payload magic seq =>
    simp only [step, Option.ite_none_right_eq_some] at h
    obtain ⟨⟨hpayload, hecho⟩, h⟩ := h
    cases h
    exact .payload hpayload hecho

theorem step_kept (s : State) (l : Label) (t : State) (kept : Kept s) (h : step s l = some t) :
    Kept t := by
  cases step_stepped h with
  | @absent i hpc => exact kept.turn (absent_turn hpc) fun hdraw => by simp [hpc] at hdraw
  | probe hp few => exact kept.turn (fwPingProbe_turn hp) few
  | elsewhere few =>
    exact {kept with
      drawn_lt := few
      seq_le := fun i => Nat.le_succ_of_le (kept.seq_le i)}
  | other hs ht m _ =>
    refine {kept with lock := fun i => ?_}
    exact iff_of_false (fun hpc => hs i ((kept.lock i).mp hpc)) (ht i)
  | process hsent =>
    refine {kept with processed := fun j hj => ?_}
    rcases List.mem_cons.mp hj with rfl | hj
    · exact hsent
    · exact kept.processed j hj
  | payload _ _ | payloadSeq _ | reply _ _ => exact kept.same rfl rfl rfl rfl rfl

/-! ### What the mailbox shows -/

/-- The firmware has answered with what it shows, if it shows a PONG: the number is in the
mailbox or about to be written. -/
def Shows (s : State) : Prop :=
  s.mailbox.magic = pongMagic → Echo s (s.payload.getD s.mailbox.seq)

/-- What a probe can rely on, where it stands. -/
def Stands (s : State) (i : Nat) (p : Probe) : Prop :=
  match p.pc with
  | .writeSeq => s.mailbox.magic = pingMagic
  | .writeSize | .writeAck | .bell | .poll | .check _ | .readSize | .readMagic => Shows s
  | .readSeq magic => magic = pongMagic → s.payload = none ∧ Echo s s.mailbox.seq
  | .unlock .ok | .returned .ok => i ∈ s.processed
  | _ => True

/-- The probe that has the lock stands there. -/
def State.between (s : State) : Bool :=
  match s.msgLock with
  | some (.probe i) => (s.probe i).pc.between
  | _ => false

/-- No reply comes between the two words that a probe writes or reads: none is begun there, and
none is half written when the first of them is read. -/
def Apart (s : State) : Label → Prop
  | .payload _ _ => s.between = false
  | .probe i _ => (s.probe i).pc = .readMagic → s.payload = none
  | _ => True

instance (s : State) (l : Label) : Decidable (Apart s l) :=
  match l with
  | .payload _ _ => inferInstanceAs (Decidable (_ = _))
  | .probe _ _ => inferInstanceAs (Decidable (_ → _))
  | .absent _ | .elsewhere | .otherLock | .otherWrite _ _ | .otherUnlock | .process _ | .payloadSeq
  | .replySize _ | .replyAck _ => isTrue trivial

theorem shows_of_same {s t : State} (h : Shows s) (hecho : ∀ w, Echo s w → Echo t w)
    (hmagic : t.mailbox.magic = s.mailbox.magic) (hseq : t.mailbox.seq = s.mailbox.seq)
    (hpayload : t.payload = s.payload) : Shows t := by
  intro hpong
  rw [hmagic] at hpong
  rw [hpayload, hseq]
  exact hecho _ (h hpong)

/-- What a probe relies on is its own as long as it has the lock, or never changes. -/
theorem Stands.mono {s t : State} {i : Nat} {p : Probe} (h : Stands s i p)
    (hprocessed : i ∈ s.processed → i ∈ t.processed) (hecho : ∀ w, Echo s w → Echo t w)
    (hmailbox : p.pc.holds = true → t.mailbox.magic = s.mailbox.magic ∧
      t.mailbox.seq = s.mailbox.seq ∧ t.payload = s.payload) : Stands t i p := by
  obtain ⟨pc, seq, changed⟩ := p
  have shows (hpc : pc.holds = true) (shown : Shows s) : Shows t := by
    obtain ⟨hmagic, hseq, hpayload⟩ := hmailbox hpc
    exact shows_of_same shown hecho hmagic hseq hpayload
  cases pc with
  | writeSeq => exact (hmailbox rfl).1.trans h
  | writeSize | writeAck | bell | poll | check | readSize | readMagic => exact shows rfl h
  | readSeq magic =>
    obtain ⟨-, hseq, hpayload⟩ := hmailbox rfl
    intro hpong
    obtain ⟨hnone, shown⟩ := h hpong
    rw [hpayload, hseq]
    exact ⟨hnone, hecho _ shown⟩
  | unlock ret | returned ret =>
    cases ret with
    | ok => exact hprocessed h
    | err e => trivial
  | _ => trivial

theorem Stands.free {s : State} {i : Nat} {p : Probe}
    (h : p.pc.holds = false ∧ p.pc ≠ .returned .ok) : Stands s i p := by
  obtain ⟨pc, seq, changed⟩ := p
  cases pc with
  | entry | draw | lock => trivial
  | returned ret =>
    cases ret with
    | ok => exact absurd rfl h.2
    | err e => trivial
  | _ => cases h.1

section Probe
variable {s : State} {i : Nat} {e : Effect} {q : Probe}

/-- The numbers of the PINGs that were processed stay. -/
theorem Kept.echo (kept : Kept s) (turn : Turn s (s.probe i) e q)
    (few : (s.probe i).pc = .draw → s.drawn + 1 < 2 ^ 32) {w : Nat} (h : Echo s w) :
    Echo ((s.apply i e).put i q) w := by
  obtain ⟨j, hj, hw⟩ := h
  refine ⟨j, by simpa using hj, ?_⟩
  by_cases hji : j = i
  · subst hji
    rw [put_self, ← hw]
    rcases kept.seq_turn turn few with ⟨h, -⟩ | ⟨h0, -⟩
    · exact h
    · exact absurd h0 (kept.sent j (kept.processed j hj))
  · rw [put_of_ne _ _ hji, apply_probe]
    exact hw

/-- A probe whose number is shown was processed. -/
theorem Kept.mem_of_echo (kept : Kept s) (hi : (s.probe i).seq ≠ 0) (h : Echo s (s.probe i).seq) :
    i ∈ s.processed := by
  obtain ⟨j, hj, hseq⟩ := h
  rwa [kept.alone i j hi hseq.symm]

/-- A probe leaves itself with what it relies on. -/
theorem stands_turn {seen : Bool} {t : State} (kept : Kept s) (stands : Stands s i (s.probe i))
    (whole : (s.probe i).pc = .readMagic → s.payload = none)
    (h : fwPingProbe s seen (s.probe i) = some (e, q)) (hecho : ∀ w, Echo s w → Echo t w)
    (hmailbox : t.mailbox = (s.apply i e).mailbox) (hpayload : t.payload = s.payload)
    (hprocessed : t.processed = s.processed) : Stands t i q := by
  have numbered := kept.numbered i
  have echoed := kept.mem_of_echo (i := i)
  generalize s.probe i = p at stands whole h numbered echoed
  obtain ⟨pc, seq, changed⟩ := p
  -- a step that writes neither of the two words
  have shows (hmagic : t.mailbox.magic = s.mailbox.magic) (hseq : t.mailbox.seq = s.mailbox.seq)
      (shown : Shows s) : Shows t := shows_of_same shown hecho hmagic hseq hpayload
  cases pc with
  | returned => cases h
  | entry | recheck =>
    cases h
    cases seen <;> trivial
  | draw =>
    cases h
    trivial
  | lock =>
    simp only [fwPingProbe, Option.ite_none_right_eq_some] at h
    obtain ⟨-, h⟩ := h
    cases h
    trivial
  | writeMagic =>
    cases h
    exact congrArg Mailbox.magic hmailbox
  | writeSeq =>
    cases h
    intro hpong
    have hping : s.mailbox.magic = pingMagic := stands
    rw [hmailbox] at hpong
    exact absurd (hping.symm.trans hpong) (by decide)
  | writeSize | writeAck | bell =>
    cases h
    exact shows (by rw [hmailbox]; rfl) (by rw [hmailbox]; rfl) stands
  | poll =>
    cases h
    cases seen with
    | true => trivial
    | false => exact shows (by rw [hmailbox]; rfl) (by rw [hmailbox]; rfl) stands
  | check ack =>
    cases h
    have shown := shows (by rw [hmailbox]; rfl) (by rw [hmailbox]; rfl) stands
    split
    · trivial
    · split
      · trivial
      · split <;> exact shown
  | readSize =>
    cases h
    have shown := shows (by rw [hmailbox]; rfl) (by rw [hmailbox]; rfl) stands
    unfold Probe.at
    split
    · trivial
    · exact shown
  | readMagic =>
    cases h
    intro hpong
    have shown := stands hpong
    rw [whole rfl] at shown
    rw [hpayload, hmailbox]
    exact ⟨whole rfl, hecho _ shown⟩
  | readSeq magic =>
    cases h
    unfold Probe.at
    split
    · trivial
    · next hmatch =>
      push Not at hmatch
      obtain ⟨hpong, hseq⟩ := hmatch
      obtain ⟨-, shown⟩ := stands hpong
      show i ∈ t.processed
      rw [hprocessed]
      exact echoed (numbered rfl) (hseq ▸ shown)
  | unlock ret =>
    cases h
    cases ret with
    | ok =>
      show i ∈ t.processed
      rw [hprocessed]
      exact stands
    | err e => trivial

end Probe

/-- Where the mailbox shows no PONG but an answer, only a probe between its two words has
something to lose. -/
theorem Stands.shown {s t : State} {i : Nat} {p : Probe} (h : Stands s i p)
    (hbetween : p.pc.between = false) (hprocessed : t.processed = s.processed) (shown : Shows t) :
    Stands t i p := by
  obtain ⟨pc, seq, changed⟩ := p
  cases pc with
  | writeSeq | readSeq => cases hbetween
  | unlock ret | returned ret =>
    cases ret with
    | ok =>
      show i ∈ t.processed
      rw [hprocessed]
      exact h
    | err e => trivial
  | entry | draw | lock | recheck | writeMagic => trivial
  | _ => exact shown

/-- The second word of a payload comes to its first, or to a first that was overwritten. -/
theorem Stands.payloadSeq {s t : State} {i w : Nat} {p : Probe} (h : Stands s i p)
    (hpayload : s.payload = some w) (hmailbox : t.mailbox = s.mailbox.set w .seq)
    (hnone : t.payload = none) (hprocessed : t.processed = s.processed)
    (hecho : ∀ w, Echo s w → Echo t w) : Stands t i p := by
  have shows (shown : Shows s) : Shows t := by
    intro hpong
    rw [hmailbox] at hpong
    have echoed := shown hpong
    rw [hpayload] at echoed
    rw [hnone, hmailbox]
    exact hecho _ echoed
  obtain ⟨pc, seq, changed⟩ := p
  cases pc with
  | writeSeq => exact (congrArg Mailbox.magic hmailbox).trans h
  | readSeq magic =>
    intro hpong
    have hsome := (h hpong).1
    rw [hpayload] at hsome
    cases hsome
  | unlock ret | returned ret =>
    cases ret with
    | ok =>
      show i ∈ t.processed
      rw [hprocessed]
      exact h
    | err e => trivial
  | entry | draw | lock | recheck | writeMagic => trivial
  | _ => exact shows h

theorem step_stands (s : State) (l : Label) (t : State) (kept : Kept s)
    (stands : ∀ i, Stands s i (s.probe i)) (apart : Apart s l) (h : step s l = some t) :
    ∀ i, Stands t i (t.probe i) := by
  cases step_stepped h with
  | @absent i hpc =>
    have hecho := fun w => kept.echo (w := w) (absent_turn hpc) (by simp [hpc])
    exact forall_put (P := Stands _) trivial fun j _ => (stands j).mono id hecho fun _ => ⟨rfl, rfl, rfl⟩
  | @probe i seen e q hp few =>
    have hecho := fun w => kept.echo (w := w) (fwPingProbe_turn hp) few
    have hpayload : ((s.apply i e).put i q).payload = s.payload := by cases e <;> rfl
    refine forall_put (P := Stands _) ?_ fun j hj => ?_
    · exact stands_turn kept (stands i) apart hp hecho rfl hpayload (by simp)
    · rw [apply_probe]
      refine (stands j).mono (by simp) hecho fun hholds => ?_
      -- who writes has the lock
      cases e with
      | write w v =>
        have hi := (kept.lock i).mp ((fwPingProbe_turn hp).write w v rfl)
        rw [(kept.lock j).mp hholds] at hi
        cases hi
        exact absurd rfl hj
      | _ => exact ⟨rfl, rfl, hpayload⟩
  | elsewhere => exact stands
  | other hs ht m _ =>
    intro i
    exact (stands i).mono id (fun w h => h) fun hholds => absurd ((kept.lock i).mp hholds) (hs i)
  | @process i hsent =>
    have hecho : ∀ w, Echo s w → Echo {s with processed := i :: s.processed} w := by
      rintro w ⟨j, hj, hw⟩
      exact ⟨j, List.mem_cons_of_mem _ hj, hw⟩
    exact fun i => (stands i).mono (List.mem_cons_of_mem _) hecho fun _ => ⟨rfl, rfl, rfl⟩
  | payload hnone hecho =>
    intro i
    by_cases hholds : (s.probe i).pc.holds = true
    · have hbetween : (s.probe i).pc.between = false := by
        simpa only [Apart, State.between, (kept.lock i).mp hholds] using apart
      exact (stands i).shown hbetween rfl hecho
    · exact (stands i).mono id (fun w h => h) fun h => absurd h hholds
  | payloadSeq hseq => exact fun i => (stands i).payloadSeq hseq rfl rfl rfl fun w h => h
  | reply hw _ =>
    intro i
    refine (stands i).mono id (fun w h => h) fun _ => ?_
    rcases hw with rfl | rfl <;> exact ⟨rfl, rfl, rfl⟩

/-- A probe that returns 0 has had its PING processed; one that has seen the epoch or the state
change leaves with `-EAGAIN`; and none returns with the lock. -/
def Truthful (s : State) : Prop :=
  ∀ i, ((s.probe i).pc = .returned .ok → i ∈ s.processed) ∧ (s.probe i).Leaves ∧
    ∀ ret, (s.probe i).pc = .returned ret → s.msgLock ≠ some (.probe i)

/-- A change that was seen is answered with `-EAGAIN`, and no probe returns with the lock, in
every run. -/
theorem run_leaves {m : Mailbox} {ls : List Label} {t : State}
    (h : Machine.run step (start m) ls = some t) (i : Nat) :
    (t.probe i).Leaves ∧ ∀ ret, (t.probe i).pc = .returned ret → t.msgLock ≠ some (.probe i) := by
  have kept := Machine.invariant step step_kept (start_kept m) h
  refine ⟨kept.leaves i, fun ret hpc hlock => ?_⟩
  have := (kept.lock i).mpr hlock
  rw [hpc] at this
  cases this

/-- **A PING is not fooled by a late reply that comes whole.** In every run in which no reply
comes between the two words of a request or of the reply that is read, whatever the mailbox
had at first and whoever's acks come when, a probe returns 0 only if the firmware has
processed its PING. -/
theorem apart_run_truthful {m : Mailbox} {ls : List Label} {t : State}
    (apart : Machine.Admissible step Apart (start m) ls) (h : Machine.run step (start m) ls = some t) :
    Truthful t := by
  have keep (s : State) (l : Label) (t : State) (inv : Kept s ∧ ∀ i, Stands s i (s.probe i))
      (rule : Apart s l) (hstep : step s l = some t) : Kept t ∧ ∀ i, Stands t i (t.probe i) :=
    ⟨step_kept s l t inv.1 hstep, step_stands s l t inv.1 inv.2 rule hstep⟩
  have inv := Machine.invariant_of_admissible step keep ⟨start_kept m, fun _ => trivial⟩ apart h
  refine fun i => ⟨fun hpc => ?_, run_leaves h i⟩
  have stands := inv.2 i
  unfold Stands at stands
  rwa [hpc] at stands

/-! ### Runs -/

/-- A probe up to its doorbell. -/
def sends (i : Nat) : List Label := List.replicate 9 (.probe i false)

/-- A PING, its PONG, and the ack. -/
def ponged : List Label :=
  sends 0 ++ [.process 0, .payload pongMagic 1, .payloadSeq, .replySize sizeofResp, .replyAck 1] ++
    List.replicate 6 (.probe 0 false)

theorem ponged_truthful : ∃ t, Machine.run step (start ⟨0, 0, 0, 0⟩) ponged = some t ∧
    (t.probe 0).pc = .returned .ok ∧ Truthful t :=
  ⟨_, rfl, rfl, apart_run_truthful (m := ⟨0, 0, 0, 0⟩) (by decide : Machine.Admissible step Apart _ ponged) rfl⟩

/-- The first probe times out, and its PONG comes between the two words of the second. -/
def latePong : List Label :=
  sends 0 ++ [.process 0, .probe 0 true, .probe 0 false] ++ List.replicate 5 (.probe 1 false) ++
    [.payload pongMagic 1, .payloadSeq] ++ List.replicate 4 (.probe 1 false) ++
    [.replySize sizeofResp, .replyAck 1] ++ List.replicate 6 (.probe 1 false)

/-- It returns 0, and the firmware has not processed its PING. -/
theorem late_pong_accepted :
    ¬ ∀ (m : Mailbox) (ls : List Label) (t : State), Machine.run step (start m) ls = some t →
      Truthful t := by
  intro h
  have := (h ⟨0, 0, 0, 0⟩ latePong _ rfl 1).1 rfl
  exact absurd this (by decide)

end DxNpuDriver.Rt.Ping
