import DxNpuDriver.Rt.Mailbox
import DxNpuDriver.Rt.Sched

/-! `dxrt_schedule`: the scheduler list and the firmware (`dxrt_drv_message.c`).

A call changes the list first and then tells the firmware. What follows the change
can fail, and nothing undoes it: the call returns an error with the list changed,
and the next add of the same bound finds it there and returns 0 without a message.
`told_run_agreed` says that this is the only way host and firmware come apart: as
long as each call that changes the list gets through, every call keeps the
agreement, and in the states reached so a call keeps it exactly when it does. -/
namespace DxNpuDriver.Rt.Schedule

open Sched Mailbox

/-- `N_BOUND_INF_MAX`. -/
def nBoundInfMax : Nat := 7

/-- `DX_SCHED_ADD`. -/
def dxSchedAdd : Nat := 1

/-- `DX_SCHED_DELETE`. -/
def dxSchedDelete : Nat := 2

/-- What `dxrt_schedule` uses of `struct dxdev`: whether the type is `DX_ACC`, whether
`msg` and `dl` are mapped, the latch of the gate, the list, and the `enable` words of
the request queues. -/
structure Dev where
  acc : Bool
  msg : Bool
  dl : Bool
  dlmsgContractSeen : Bool
  sched : List SchedData
  enabled : Nat → Bool

/-- `msg->data`: no pointer, one that cannot be read, or one to a bound option. -/
inductive Data where
  | null
  | bad
  | bound (b : Nat)
  deriving DecidableEq

structure Request where
  subCmd : Nat
  data : Data
  deriving DecidableEq

/-- What a call meets: the allocator, the readiness block, and the reads of the poll. -/
structure Env where
  alloc : Bool
  readyValid : Bool
  mailboxReady : Bool
  polls : Nat → Nat × Bool

/-- `dxrt_fw_mbox_blocked`, with the latch it leaves. -/
def dxrtFwMboxBlocked (d : Dev) (env : Env) : Bool × Bool :=
  if !d.dl then (false, d.dlmsgContractSeen)
  else if !d.dlmsgContractSeen then
    if env.readyValid then (!env.mailboxReady, true) else (false, false)
  else (!env.mailboxReady, true)

/-- `disable_queue`. -/
def disableQueue (d : Dev) (queue : Nat) : Dev :=
  {d with enabled := Function.update d.enabled queue false}

/-- How a call returns, and whether it posted a message whose ack it saw. -/
structure Answer where
  ret : Ret
  acked : Bool
  deriving DecidableEq

/-- The last part of `dxrt_schedule`, with a list that has been changed. -/
def tell (d : Dev) (env : Env) : Dev × Answer :=
  if !d.msg then (d, ⟨.ok, false⟩)
  else
    let gate := dxrtFwMboxBlocked d env
    let d := {d with dlmsgContractSeen := gate.2}
    if gate.1 then (d, ⟨.err .EBUSY, false⟩)
    else
      let ret := dxrtPollingAck env.polls
      (d, ⟨ret, ret = .ok⟩)

def dxrtSchedule (d : Dev) (env : Env) (msg : Request) : Dev × Answer :=
  if !d.acc then (d, ⟨.ok, false⟩)
  else
    match msg.data with
    | .null => (d, ⟨.ok, false⟩)
    | .bad => (d, ⟨.err .EFAULT, false⟩)
    | .bound b =>
      if b ≥ nBoundInfMax then (d, ⟨.err .EINVAL, false⟩)
      else if msg.subCmd = dxSchedAdd then
        match addQueueFromSchedOp env.alloc b d.sched with
        | (sched, .ok) =>
          match getQueueFromSchedOp b sched with
          | (.ok, _) => tell {d with sched := sched} env
          | (ret, _) => ({d with sched := sched}, ⟨ret, false⟩)
        | (sched, .err .EEXIST) => ({d with sched := sched}, ⟨.ok, false⟩)
        | (sched, ret) => ({d with sched := sched}, ⟨ret, false⟩)
      else if msg.subCmd = dxSchedDelete then
        match getQueueFromSchedOp b d.sched with
        | (.ok, queue) =>
          match deleteMatchingQueue b d.sched with
          | (sched, .ok) => tell (disableQueue {d with sched := sched} queue) env
          | (sched, .err .EBUSY) => ({d with sched := sched}, ⟨.ok, false⟩)
          | (sched, ret) => ({d with sched := sched}, ⟨ret, false⟩)
        | (ret, _) => (d, ⟨ret, false⟩)
      else (d, ⟨.err .EINVAL, false⟩)

/-! ### Runs -/

/-- `acked b`: an add of `b` has been acknowledged since `b` last left the list. -/
structure State where
  dev : Dev
  acked : Nat → Bool

inductive Label where
  | schedule (env : Env) (msg : Request)
  /-- `clear_queue_list`, at recovery. -/
  | clear

/-- Every bound that is not in the list has left it. -/
def State.now (acked : Nat → Bool) (dev : Dev) : State :=
  ⟨dev, fun b => decide (b ∈ dev.sched.map (·.bound)) && acked b⟩

def credit (msg : Request) (answer : Answer) (acked : Nat → Bool) : Nat → Bool :=
  fun b => acked b || (answer.acked && msg.subCmd == dxSchedAdd && msg.data == .bound b)

def step (s : State) : Label → Option State
  | .schedule env msg =>
    let r := dxrtSchedule s.dev env msg
    some (.now (credit msg r.2 s.acked) r.1)
  | .clear => some (.now s.acked {s.dev with sched := clearQueueList s.dev.sched})

/-- An accelerator with its mailbox mapped and an empty list. -/
def initial (dl seen : Bool) (enabled : Nat → Bool) : State :=
  ⟨⟨true, true, dl, seen, [], enabled⟩, fun _ => false⟩

/-- What a call owes to host and firmware. -/
structure Kept (s : State) (env : Env) (msg : Request) : Prop where
  added : ∀ b, msg = ⟨dxSchedAdd, .bound b⟩ → (dxrtSchedule s.dev env msg).2.ret = .ok →
    ∀ t, step s (.schedule env msg) = some t → t.acked b = true
  deleted : ∀ b, msg = ⟨dxSchedDelete, .bound b⟩ → (dxrtSchedule s.dev env msg).2.ret = .ok →
    b ∈ s.dev.sched.map (·.bound) → b ∉ (dxrtSchedule s.dev env msg).1.sched.map (·.bound) →
    (dxrtSchedule s.dev env msg).2.acked = true
  unchanged : (dxrtSchedule s.dev env msg).2.ret ≠ .ok →
    (dxrtSchedule s.dev env msg).1.sched = s.dev.sched

def Agreed (s : State) : Label → Prop
  | .schedule env msg => Kept s env msg
  | .clear => True

/-- The call changes which bounds the list has: it adds one that is new, or drops the
last reference to one. -/
def Changes (d : Dev) (env : Env) (msg : Request) : Prop :=
  ∃ b < nBoundInfMax, (msg = ⟨dxSchedAdd, .bound b⟩ ∧
      (addQueueFromSchedOp env.alloc b d.sched).2 = .ok) ∨
    (msg = ⟨dxSchedDelete, .bound b⟩ ∧ (deleteMatchingQueue b d.sched).2 = .ok)

/-- The gate is open and the firmware acknowledges in time. -/
def Reachable (d : Dev) (env : Env) : Prop :=
  (dxrtFwMboxBlocked d env).1 = false ∧ dxrtPollingAck env.polls = .ok

/-- A call that changes the list gets through. -/
def Told (s : State) : Label → Prop
  | .schedule env msg => Changes s.dev env msg → Reachable s.dev env
  | .clear => True

/-! ### What a call does -/

theorem tell_reached {d : Dev} {env : Env} (hmsg : d.msg = true) (h : Reachable d env) :
    (tell d env).2 = ⟨.ok, true⟩ := by
  simp [tell, hmsg, h.1, h.2]

theorem tell_sched (d : Dev) (env : Env) : (tell d env).1.sched = d.sched := by
  unfold tell
  split
  · rfl
  · simp only
    split <;> rfl

theorem tell_failed {d : Dev} {env : Env} (hmsg : d.msg = true) (h : ¬ Reachable d env) :
    (tell d env).2.ret ≠ .ok := by
  unfold tell
  simp only [hmsg, Bool.not_true, Bool.false_eq_true, if_false]
  split
  · simp
  · rename_i hgate
    exact fun hok => h ⟨by simpa using hgate, hok⟩

theorem tell_accelerator (d : Dev) (env : Env) :
    (tell d env).1.acc = d.acc ∧ (tell d env).1.msg = d.msg := by
  unfold tell
  split
  · exact ⟨rfl, rfl⟩
  · simp only
    split <;> exact ⟨rfl, rfl⟩

/-- The gate and the poll do not depend on the list or the queues. -/
theorem reachable_congr {d d' : Dev} {env : Env} (hdl : d'.dl = d.dl)
    (hseen : d'.dlmsgContractSeen = d.dlmsgContractSeen) :
    Reachable d' env ↔ Reachable d env := by
  simp only [Reachable, dxrtFwMboxBlocked, hdl, hseen]

theorem find_absent {sched : List SchedData} {b : Nat} (h : b ∉ sched.map (·.bound)) :
    sched.find? (·.bound = b) = none := by
  rw [List.find?_eq_none]
  intro e he heq
  exact h ((of_decide_eq_true heq) ▸ List.mem_map_of_mem he)

theorem get_absent {sched : List SchedData} {b : Nat} (h : b ∉ sched.map (·.bound)) :
    getQueueFromSchedOp b sched = (.err .ENOENT, dxNormalQueueMax) := by
  simp only [getQueueFromSchedOp, find_absent h]

/-- The queue of a bound that has just been added. -/
theorem get_added {sched : List SchedData} {b q : Nat} (h : b ∉ sched.map (·.bound))
    (hq : q < dxNormalQueueMax) :
    getQueueFromSchedOp b (sched ++ [⟨b, q, 1⟩]) = (.ok, q) := by
  simp [getQueueFromSchedOp, List.find?_append, find_absent h, Nat.ne_of_lt hq]

theorem get_listed {sched : List SchedData} {b : Nat} (h : b ∈ sched.map (·.bound))
    (hq : ∀ e ∈ sched, e.queue < dxNormalQueueMax) :
    (getQueueFromSchedOp b sched).1 = .ok := by
  cases hfind : sched.find? (·.bound = b) with
  | none =>
    rw [List.find?_eq_none] at hfind
    obtain ⟨e, he, rfl⟩ := List.mem_map.mp h
    exact absurd (decide_eq_true rfl) (hfind e he)
  | some e =>
    have := hq e (List.mem_of_find?_eq_some hfind)
    simp [getQueueFromSchedOp, hfind, Nat.ne_of_lt this]

/-- The list after a call that changes it: the new bound at the end, or the bound gone. -/
def Changed (msg : Request) (old new : List SchedData) : Prop :=
  (∃ b q, msg = ⟨dxSchedAdd, .bound b⟩ ∧ b ∉ old.map (·.bound) ∧ q < dxNormalQueueMax ∧
    new = old ++ [⟨b, q, 1⟩]) ∨
  (∃ b before e after, msg = ⟨dxSchedDelete, .bound b⟩ ∧ old = before ++ e :: after ∧
    new = before ++ after)

/-- Everything a call can do on an accelerator whose queue numbers are in range. -/
inductive Does (d : Dev) (env : Env) (msg : Request) : Prop
  | refused (e : Errno) (h : dxrtSchedule d env msg = (d, ⟨.err e, false⟩))
    (same : ¬ Changes d env msg)
  | nothing (h : dxrtSchedule d env msg = (d, ⟨.ok, false⟩)) (null : msg.data = .null)
  | counted (b : Nat) (sched : List SchedData)
    (h : dxrtSchedule d env msg = ({d with sched := sched}, ⟨.ok, false⟩))
    (same : ¬ Changes d env msg) (data : msg.data = .bound b) (mem : b ∈ d.sched.map (·.bound))
    (bounds : sched.map (·.bound) = d.sched.map (·.bound))
    (queues : sched.map (·.queue) = d.sched.map (·.queue))
  | changed (d' : Dev) (h : dxrtSchedule d env msg = tell d' env) (changes : Changes d env msg)
    (list : Changed msg d.sched d'.sched) (acc : d'.acc = true) (mapped : d'.msg = true)
    (reachable : Reachable d' env ↔ Reachable d env)

theorem changes_iff {d : Dev} {env : Env} {subCmd b : Nat} (hb : b < nBoundInfMax) :
    Changes d env ⟨subCmd, .bound b⟩ ↔
      (subCmd = dxSchedAdd ∧ (addQueueFromSchedOp env.alloc b d.sched).2 = .ok) ∨
      (subCmd = dxSchedDelete ∧ (deleteMatchingQueue b d.sched).2 = .ok) := by
  constructor
  · rintro ⟨b', _, ⟨heq, hok⟩ | ⟨heq, hok⟩⟩
    · cases heq
      exact .inl ⟨rfl, hok⟩
    · cases heq
      exact .inr ⟨rfl, hok⟩
  · rintro (⟨rfl, hok⟩ | ⟨rfl, hok⟩)
    · exact ⟨b, hb, .inl ⟨rfl, hok⟩⟩
    · exact ⟨b, hb, .inr ⟨rfl, hok⟩⟩

theorem not_changes_of_data {d : Dev} {env : Env} {msg : Request}
    (h : ∀ b < nBoundInfMax, msg.data ≠ .bound b) : ¬ Changes d env msg := by
  rintro ⟨b, hb, ⟨rfl, _⟩ | ⟨rfl, _⟩⟩
  · exact h b hb rfl
  · exact h b hb rfl

theorem schedule_add {d : Dev} (env : Env) {b : Nat} (hacc : d.acc = true)
    (hb : b < nBoundInfMax) : dxrtSchedule d env ⟨dxSchedAdd, .bound b⟩ =
      match addQueueFromSchedOp env.alloc b d.sched with
      | (sched, .ok) =>
        match getQueueFromSchedOp b sched with
        | (.ok, _) => tell {d with sched := sched} env
        | (ret, _) => ({d with sched := sched}, ⟨ret, false⟩)
      | (sched, .err .EEXIST) => ({d with sched := sched}, ⟨.ok, false⟩)
      | (sched, ret) => ({d with sched := sched}, ⟨ret, false⟩) := by
  rw [dxrtSchedule, hacc]
  exact if_neg (Nat.not_le.mpr hb)

theorem schedule_delete {d : Dev} (env : Env) {b : Nat} (hacc : d.acc = true)
    (hb : b < nBoundInfMax) : dxrtSchedule d env ⟨dxSchedDelete, .bound b⟩ =
      match getQueueFromSchedOp b d.sched with
      | (.ok, queue) =>
        match deleteMatchingQueue b d.sched with
        | (sched, .ok) => tell (disableQueue {d with sched := sched} queue) env
        | (sched, .err .EBUSY) => ({d with sched := sched}, ⟨.ok, false⟩)
        | (sched, ret) => ({d with sched := sched}, ⟨ret, false⟩)
      | (ret, _) => (d, ⟨ret, false⟩) := by
  rw [dxrtSchedule, hacc]
  exact if_neg (Nat.not_le.mpr hb)

theorem add_does {d : Dev} {env : Env} {b : Nat} (hacc : d.acc = true) (hmsg : d.msg = true)
    (hb : b < nBoundInfMax) : Does d env ⟨dxSchedAdd, .bound b⟩ := by
  have hchanges : Changes d env ⟨dxSchedAdd, .bound b⟩ ↔
      (addQueueFromSchedOp env.alloc b d.sched).2 = .ok := by
    rw [changes_iff hb]
    simp [show dxSchedAdd ≠ dxSchedDelete by decide]
  have hcall := schedule_add env hacc hb
  rcases add_cases env.alloc b d.sched with ⟨_, heq⟩ | ⟨_, before, e, after, hsched, rfl, heq⟩ |
    ⟨_, _, _, heq⟩ | ⟨_, hmem, hlt, heq⟩ <;> rw [heq] at hchanges hcall
  · exact .refused .ENOMEM hcall (by simp [hchanges])
  · exact .counted e.bound _ hcall (by simp [hchanges]) rfl (by simp [hsched])
      (by simp [hsched]) (by simp [hsched])
  · exact .refused .EBUSY hcall (by simp [hchanges])
  · simp only [get_added hmem hlt] at hcall
    exact .changed _ hcall (by simp [hchanges]) (.inl ⟨b, _, rfl, hmem, hlt, rfl⟩) hacc hmsg
      (reachable_congr rfl rfl)

theorem delete_does {d : Dev} {env : Env} {b : Nat} (hacc : d.acc = true) (hmsg : d.msg = true)
    (hq : ∀ e ∈ d.sched, e.queue < dxNormalQueueMax) (hb : b < nBoundInfMax) :
    Does d env ⟨dxSchedDelete, .bound b⟩ := by
  have hchanges : Changes d env ⟨dxSchedDelete, .bound b⟩ ↔
      (deleteMatchingQueue b d.sched).2 = .ok := by
    rw [changes_iff hb]
    simp [show dxSchedDelete ≠ dxSchedAdd by decide]
  have hcall := schedule_delete env hacc hb
  rcases delete_shape b d.sched with ⟨hmem, heq⟩ | ⟨before, e, after, hsched, rfl, heq⟩
  · rw [heq] at hchanges
    rw [get_absent hmem] at hcall
    exact .refused .ENOENT hcall (by simp [hchanges])
  · have hmem : e.bound ∈ d.sched.map (·.bound) := by simp [hsched]
    obtain ⟨queue, hget⟩ : ∃ queue, getQueueFromSchedOp e.bound d.sched = (.ok, queue) :=
      ⟨_, Prod.ext (get_listed hmem hq) rfl⟩
    rw [hget] at hcall
    rcases heq with heq | ⟨n, heq⟩ <;> rw [heq] at hchanges hcall
    · exact .changed _ hcall (by simp [hchanges]) (.inr ⟨_, before, e, after, rfl, hsched, rfl⟩)
        hacc hmsg (reachable_congr rfl rfl)
    · exact .counted e.bound _ hcall (by simp [hchanges]) rfl hmem (by simp [hsched])
        (by simp [hsched])

theorem schedule_does {d : Dev} (env : Env) (msg : Request) (hacc : d.acc = true)
    (hmsg : d.msg = true) (hq : ∀ e ∈ d.sched, e.queue < dxNormalQueueMax) : Does d env msg := by
  obtain ⟨subCmd, data⟩ := msg
  cases data with
  | null => exact .nothing (by simp [dxrtSchedule, hacc]) rfl
  | bad =>
    exact .refused .EFAULT (by simp [dxrtSchedule, hacc]) (not_changes_of_data (by simp))
  | bound b =>
    by_cases hb : b < nBoundInfMax
    · by_cases hadd : subCmd = dxSchedAdd
      · subst hadd
        exact add_does hacc hmsg hb
      · by_cases hdelete : subCmd = dxSchedDelete
        · subst hdelete
          exact delete_does hacc hmsg hq hb
        · exact .refused .EINVAL
            (by simp [dxrtSchedule, hacc, Nat.not_le.mpr hb, hadd, hdelete])
            (by simp [changes_iff hb, hadd, hdelete])
    · refine .refused .EINVAL (by simp [dxrtSchedule, hacc, Nat.not_lt.mp hb])
        (not_changes_of_data fun b' hb' heq => hb ?_)
      cases heq
      exact hb'

/-! ### Agreement -/

/-- What a run of told calls keeps: every bound in the list has been acknowledged. -/
structure Agreeing (s : State) : Prop where
  acc : s.dev.acc = true
  mapped : s.dev.msg = true
  queues : ∀ e ∈ s.dev.sched, e.queue < dxNormalQueueMax
  acked : ∀ b ∈ s.dev.sched.map (·.bound), s.acked b = true

theorem step_acked {s t : State} {env : Env} {msg : Request}
    (h : step s (.schedule env msg) = some t) {b : Nat} :
    t.acked b = true ↔ b ∈ (dxrtSchedule s.dev env msg).1.sched.map (·.bound) ∧
      credit msg (dxrtSchedule s.dev env msg).2 s.acked b = true := by
  cases h
  simp [State.now]

theorem Changed.ne {msg : Request} {old new : List SchedData} (h : Changed msg old new) :
    new ≠ old := by
  intro heq
  rcases h with ⟨_, _, _, _, _, rfl⟩ | ⟨_, _, _, _, _, rfl, rfl⟩
  · simpa using congrArg List.length heq
  · simpa using congrArg List.length heq

/-- Where the agreement holds, a call keeps it exactly when it is told if it changes
the list. -/
theorem kept_iff_told {s : State} (hs : Agreeing s) (env : Env) (msg : Request) :
    Kept s env msg ↔ Told s (.schedule env msg) := by
  cases schedule_does env msg hs.acc hs.mapped hs.queues with
  | refused e h same =>
    refine ⟨fun _ hc => absurd hc same, fun _ => ⟨fun _ _ hok => ?_, fun _ _ hok => ?_, ?_⟩⟩
    · simp [h] at hok
    · simp [h] at hok
    · simp [h]
  | nothing h null =>
    refine ⟨fun _ hc => ?_, fun _ => ⟨?_, ?_, ?_⟩⟩
    · exact absurd hc (not_changes_of_data (by simp [null]))
    · rintro b rfl
      cases null
    · rintro b rfl
      cases null
    · simp [h]
  | counted b sched h same data mem bounds queues =>
    refine ⟨fun _ hc => absurd hc same, fun _ => ⟨?_, ?_, ?_⟩⟩
    · rintro b' rfl _ t ht
      cases data
      rw [step_acked ht, h]
      exact ⟨bounds ▸ mem, by simp [credit, hs.acked b mem]⟩
    · rintro b' rfl _ hin hout
      rw [h] at hout
      exact absurd (bounds ▸ hin) hout
    · simp [h]
  | changed d' h changes list acc mapped reachable =>
    have hsched : (dxrtSchedule s.dev env msg).1.sched = d'.sched := by rw [h, tell_sched]
    constructor
    · -- a call that is not told fails, and its list is not the one it found
      intro hkept _
      by_contra hnot
      refine list.ne (hsched.symm.trans (hkept.unchanged ?_))
      rw [h]
      exact tell_failed mapped (fun hr => hnot (reachable.mp hr))
    · intro htold
      have hans : (dxrtSchedule s.dev env msg).2 = ⟨.ok, true⟩ := by
        rw [h]
        exact tell_reached mapped (reachable.mpr (htold changes))
      refine ⟨?_, fun _ _ _ _ _ => by rw [hans], fun hfail => absurd (by rw [hans]) hfail⟩
      rintro b rfl _ t ht
      rw [step_acked ht, hsched, hans]
      refine ⟨?_, by simp [credit]⟩
      rcases list with ⟨b', q, heq, _, _, hnew⟩ | ⟨_, _, _, _, heq, _⟩
      · cases heq
        simp [hnew]
      · cases heq

/-- A call that is told, if it changes the list, keeps every listed bound acknowledged. -/
theorem schedule_agreeing {s t : State} {env : Env} {msg : Request} (hs : Agreeing s)
    (rule : Told s (.schedule env msg)) (h : step s (.schedule env msg) = some t) :
    Agreeing t := by
  have hkept := (kept_iff_told hs env msg).mpr rule
  have hdev : t.dev = (dxrtSchedule s.dev env msg).1 := by
    cases h
    rfl
  have hacked : ∀ b ∈ t.dev.sched.map (·.bound), b ∈ s.dev.sched.map (·.bound) →
      t.acked b = true := by
    intro b hnew hold
    rw [step_acked h, ← hdev]
    exact ⟨hnew, by simp [credit, hs.acked b hold]⟩
  have hsame : t.dev = s.dev → Agreeing t := by
    intro heq
    refine ⟨heq ▸ hs.acc, heq ▸ hs.mapped, heq ▸ hs.queues, fun b hb => hacked b hb ?_⟩
    rw [← heq]
    exact hb
  cases schedule_does env msg hs.acc hs.mapped hs.queues with
  | refused e hcall same => exact hsame (hdev.trans (by rw [hcall]))
  | nothing hcall null => exact hsame (hdev.trans (by rw [hcall]))
  | counted b sched hcall same data mem bounds queues =>
    rw [hcall] at hdev
    have hsched : t.dev.sched = sched := by rw [hdev]
    refine ⟨hdev ▸ hs.acc, hdev ▸ hs.mapped, fun e he => ?_, fun b hb => hacked b hb ?_⟩
    · have : e.queue ∈ s.dev.sched.map (·.queue) :=
        queues ▸ List.mem_map_of_mem (hsched ▸ he)
      obtain ⟨e', he', heq⟩ := List.mem_map.mp this
      exact heq ▸ hs.queues e' he'
    · rw [← bounds, ← hsched]
      exact hb
  | changed d' hcall changes list acc mapped reachable =>
    have hans : (dxrtSchedule s.dev env msg).2.ret = .ok := by
      rw [hcall, tell_reached mapped (reachable.mpr (rule changes))]
    rw [hcall] at hdev
    have hsched : t.dev.sched = d'.sched := by rw [hdev, tell_sched]
    refine ⟨by rw [hdev, (tell_accelerator d' env).1, acc],
      by rw [hdev, (tell_accelerator d' env).2, mapped], ?_, ?_⟩
    · intro e he
      rw [hsched] at he
      rcases list with ⟨b, q, _, _, hq, hnew⟩ | ⟨b, before, e', after, _, hold, hnew⟩
      · rw [hnew, List.mem_append, List.mem_singleton] at he
        rcases he with he | rfl
        · exact hs.queues e he
        · exact hq
      · refine hs.queues e ?_
        rw [hnew, List.mem_append] at he
        rw [hold, List.mem_append]
        exact he.imp id (List.mem_cons_of_mem e')
    · intro b hb
      rcases list with ⟨b', q, rfl, _, _, hnew⟩ | ⟨b', before, e', after, _, hold, hnew⟩
      · have hcases := hb
        rw [hsched, hnew, List.map_append, List.mem_append] at hcases
        rcases hcases with hin | hin
        · exact hacked b hb hin
        · obtain rfl : b = b' := by simpa using hin
          exact hkept.added b rfl hans t h
      · refine hacked b hb ?_
        rw [hsched, hnew, List.map_append, List.mem_append] at hb
        rw [hold, List.map_append, List.map_cons, List.mem_append]
        exact hb.imp id (List.mem_cons_of_mem _)

theorem step_agreeing (s : State) (l : Label) (t : State) (hs : Agreeing s) (rule : Told s l)
    (h : step s l = some t) : Agreeing t := by
  cases l with
  | schedule env msg => exact schedule_agreeing hs rule h
  | clear =>
    cases h
    exact ⟨hs.acc, hs.mapped, by simp [State.now, clearQueueList],
      by simp [State.now, clearQueueList]⟩

theorem agreed_iff_told {s : State} (hs : Agreeing s) (l : Label) : Agreed s l ↔ Told s l := by
  cases l with
  | schedule env msg => exact kept_iff_told hs env msg
  | clear => exact Iff.rfl

theorem initial_agreeing (dl seen : Bool) (enabled : Nat → Bool) :
    Agreeing (initial dl seen enabled) :=
  ⟨rfl, rfl, by simp [initial], by simp [initial]⟩

/-- **Calls that are told keep host and firmware in agreement**, and in the states they
reach no other call does. -/
theorem told_run_agreed (dl seen : Bool) (enabled : Nat → Bool) (ls : List Label) (s : State)
    (rule : Machine.Admissible step Told (initial dl seen enabled) ls)
    (h : Machine.run step (initial dl seen enabled) ls = some s) :
    Machine.Admissible step Agreed (initial dl seen enabled) ls ∧
      ∀ l, Agreed s l ↔ Told s l := by
  have start := initial_agreeing dl seen enabled
  refine ⟨rule.imp step step_agreeing (fun s l hs hr => (agreed_iff_told hs l).mpr hr) start, ?_⟩
  exact agreed_iff_told (Machine.invariant_of_admissible step step_agreeing start rule h)

/-- A mailbox that is ready, and an ack at the first read. -/
def readyEnv : Env := ⟨true, true, true, fun _ => (1, false)⟩

/-- A rebooting firmware. -/
def blockedEnv : Env := ⟨true, true, false, fun _ => (0, false)⟩

theorem told_run_adds_and_deletes :
    ∃ s, Machine.run step (initial true false fun _ => true)
        [.schedule readyEnv ⟨dxSchedAdd, .bound 3⟩, .schedule blockedEnv ⟨dxSchedAdd, .bound 3⟩,
          .schedule readyEnv ⟨dxSchedDelete, .bound 3⟩] = some s ∧
      s.dev.sched = [⟨3, 0, 1⟩] ∧ ∀ l, Agreed s l ↔ Told s l := by
  refine ⟨_, rfl, rfl, (told_run_agreed true false (fun _ => true)
    [.schedule readyEnv ⟨dxSchedAdd, .bound 3⟩, .schedule blockedEnv ⟨dxSchedAdd, .bound 3⟩,
      .schedule readyEnv ⟨dxSchedDelete, .bound 3⟩] _ ⟨fun _ => ⟨rfl, rfl⟩, ?_, ?_, trivial⟩ rfl).2⟩
  · rw [Told, changes_iff (by decide)]
    rintro (⟨_, h⟩ | ⟨h, _⟩) <;> exact absurd h (by decide)
  · exact fun _ => ⟨rfl, rfl⟩

/-- The mailbox is not ready: the add fails and stays in the list, and the retry returns
0 for a bound the firmware has never heard of. -/
theorem retry_is_never_told :
    ¬ ∀ ls s, Machine.run step (initial true false fun _ => true) ls = some s →
      Machine.Admissible step Agreed (initial true false fun _ => true) ls := by
  intro h
  have hkept := (h [.schedule blockedEnv ⟨dxSchedAdd, .bound 0⟩,
    .schedule blockedEnv ⟨dxSchedAdd, .bound 0⟩] _ rfl).2.1
  exact absurd (hkept.added 0 rfl rfl _ rfl) (by decide)

end DxNpuDriver.Rt.Schedule
