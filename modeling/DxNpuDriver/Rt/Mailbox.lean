import DxNpuDriver.Kernel
import DxNpuDriver.Lib.Machine
import Mathlib.Logic.Function.Basic
import Mathlib.Tactic.Common

/-! The message mailbox and its senders (`dxrt_drv_message.c`).

A sender takes `msg_lock`, writes the words of its message, clears the ack word,
rings the doorbell and polls for `ack == 1`. The firmware answers each doorbell: it
takes the content it finds, writes reply data and size, and then the ack. The ack
carries no sequence number, so a sender takes the first ack it sees for its own.

`answered_run_truthful` says when that is right: if every sender that polls begins
while no doorbell is unanswered, and no `soc_custom` whose poll failed finds a
reply size it would copy, then every sender that returns 0 or copies data saw the
ack of its own message. -/
namespace DxNpuDriver.Rt.Mailbox

/-- `ACK_POLLING_THRESHOLD`. -/
def ackPollingThreshold : Nat := 1000

/-- `sizeof(dxrt_device_message_t)`. -/
def sizeofDeviceMessage : Nat := 4016

/-! ### Polling -/

/-- Whether the poll goes on, with its `fail_cnt`, or how it ends. -/
inductive Poll where
  | again (failCnt : Nat)
  | done (ret : Ret)
  deriving DecidableEq

/-- One pass of the loop of `dxrt_polling_ack`. -/
def pollOnce (failCnt ackVal : Nat) (signalPending : Bool) : Poll :=
  if ackVal = 2 ^ 32 - 1 then .done (.err .ENODEV)
  else if ackVal = 1 then .done .ok
  else if failCnt + 1 > ackPollingThreshold then .done (.err .ETIMEDOUT)
  else if signalPending then .done (.err .ERESTARTSYS)
  else .again (failCnt + 1)

theorem pollOnce_ok {failCnt ackVal : Nat} {signalPending : Bool} :
    pollOnce failCnt ackVal signalPending = .done .ok ↔ ackVal = 1 := by
  unfold pollOnce
  split
  · simp [*]
  · split
    · simp [*]
    · split
      · simp [*]
      · split <;> simp [*]

/-- The rest of the loop, for at most `fuel` passes; `polls` gives what each pass reads. -/
def pollFrom (polls : Nat → Nat × Bool) : Nat → Nat → Ret
  | 0, _ => .err .ETIMEDOUT
  | fuel + 1, failCnt =>
    match pollOnce failCnt (polls failCnt).1 (polls failCnt).2 with
    | .done ret => ret
    | .again failCnt => pollFrom polls fuel failCnt

/-- `dxrt_polling_ack`. The pass that finds `fail_cnt` at the threshold is the last. -/
def dxrtPollingAck (polls : Nat → Nat × Bool) : Ret :=
  pollFrom polls (ackPollingThreshold + 1) 0

theorem pollOnce_again {failCnt ackVal n : Nat} {signalPending : Bool}
    (h : pollOnce failCnt ackVal signalPending = .again n) :
    n = failCnt + 1 ∧ n ≤ ackPollingThreshold := by
  unfold pollOnce at h
  split at h
  · cases h
  · split at h
    · cases h
    · split at h
      · cases h
      · split at h
        · cases h
        · cases h
          omega

/-- The fuel of `dxrtPollingAck` never runs out: more of it changes nothing. -/
theorem pollFrom_enough (polls : Nat → Nat × Bool) {fuel failCnt : Nat}
    (hcnt : failCnt ≤ ackPollingThreshold) (hfuel : ackPollingThreshold < fuel + failCnt)
    (more : Nat) : pollFrom polls (fuel + more) failCnt = pollFrom polls fuel failCnt := by
  induction fuel generalizing failCnt with
  | zero => omega
  | succ fuel ih =>
    rw [Nat.succ_add]
    simp only [pollFrom]
    split
    · rfl
    · rename_i n hn
      obtain ⟨rfl, hle⟩ := pollOnce_again hn
      exact ih hle (by omega)

/-! ### Senders -/

/-- The words of a message. -/
inductive Word where
  | payload | cmd | subCmd | size
  deriving DecidableEq

inductive Kind where
  | msgGeneral | socCustom | schedule | updateFirmware | resetDevice
  deriving DecidableEq

/-- One call of a sender. Calls are numbered, and `size` is the `msg->size` of the
caller. -/
structure Call where
  id : Nat
  kind : Kind
  size : Nat
  deriving DecidableEq

/-- One access of a sender to the device. -/
inductive Access where
  | word (w : Word)
  | clearAck
  | bell
  deriving DecidableEq

/-- `dxrt_msg_to_dev`. -/
def dxrtMsgToDev : List Access := [.word .cmd, .word .subCmd, .word .size, .clearAck]

/-- What the call writes, in order. `dxrt_schedule` writes its two data words after
it has cleared the ack; `dxrt_update_firmware` has sent its image by DMA. -/
def posting (c : Call) : List Access :=
  match c.kind with
  | .msgGeneral | .socCustom | .resetDevice =>
    (if 0 < c.size ∧ c.size < sizeofDeviceMessage then [.word .payload] else []) ++
      dxrtMsgToDev ++ [.bell]
  | .schedule => dxrtMsgToDev ++ [.word .payload, .word .payload, .bell]
  | .updateFirmware => dxrtMsgToDev ++ [.bell]

/-- A mailbox content, by the call that wrote each word last; `none` is the firmware. -/
abbrev Content := Word → Option Nat

/-- The content is the message of this call. -/
def Own (c : Call) (content : Content) : Prop :=
  ∀ w, .word w ∈ posting c → content w = some c.id

/-- A return value: one of the driver's, or the word `dxrt_update_firmware` reads
from the reply. -/
inductive Result where
  | ret (r : Ret)
  | firmware (word : Nat)
  deriving DecidableEq

def Result.zero : Result → Bool
  | .ret .ok => true
  | .ret (.err _) => false
  | .firmware word => word == 0

/-- How a call ended, whether it copied reply data to user space, and the content
that the ack it saw was a reply to. -/
structure Outcome where
  call : Call
  result : Result
  copied : Bool
  observed : Option Content

inductive Phase where
  | post (todo : List Access)
  | poll (failCnt : Nat)
  | finish (ret : Ret) (observed : Option Content)

/-- A doorbell the firmware has taken a content for, and how much of the reply it
has written. -/
inductive Stage where
  | data | size | ack
  deriving DecidableEq

structure Reply where
  content : Content
  stage : Stage

structure State where
  calls : Nat
  /-- The holder of `msg_lock`. -/
  held : Option (Call × Phase)
  words : Content
  /-- The value of the size word. -/
  size : Nat
  /-- The ack word: 0, or 1 in reply to a content. -/
  ack : Option Content
  bells : Nat
  replies : List Reply
  outcomes : List Outcome

def initial : State := ⟨0, none, fun _ => none, 0, none, 0, [], []⟩

inductive Label where
  /-- A call that returns an error before it touches the mailbox: device state, a
  mailbox that is not ready, no memory, a failed image transfer. -/
  | refuse (kind : Kind) (size : Nat) (e : Errno)
  | enter (kind : Kind) (size : Nat)
  | access
  /-- The copy of the payload from user space fails. -/
  | fault
  | poll (dead signalPending : Bool)
  | finish (copy : Ret) (word : Nat)
  | take
  | reply (i : Nat) (size : Nat)
  deriving DecidableEq

/-! ### Steps -/

/-- One access, by call `c`. -/
def perform (s : State) (c : Call) : Access → State
  | .word w =>
    {s with
      words := Function.update s.words w (some c.id)
      size := if w = .size then c.size else s.size}
  | .clearAck => {s with ack := none}
  | .bell => {s with bells := s.bells + 1}

/-- After its doorbell a call polls, except that `dxrt_reset_device` only delays. -/
def posted (c : Call) : Phase :=
  if c.kind = .resetDevice then .finish .ok none else .poll 0

/-- What the poll reads. -/
def ackVal (dead : Bool) (ack : Option Content) : Nat :=
  if dead then 2 ^ 32 - 1 else if ack.isSome then 1 else 0

/-- The reply size is one the senders copy. -/
def copyable (size : Nat) : Bool := 0 < size ∧ size < sizeofDeviceMessage

/-- The end of a call, from its polling result. Only `dxrt_soc_custom` copies, and
takes the copy's result for its own, whatever the poll returned. -/
def ending (c : Call) (ret : Ret) (size : Nat) (copy : Ret) (word : Nat) : Result × Bool :=
  match c.kind with
  | .msgGeneral => if copyable size ∧ ret = .ok then (.ret copy, true) else (.ret ret, false)
  | .socCustom => if copyable size then (.ret copy, true) else (.ret ret, false)
  | .schedule | .resetDevice => (.ret ret, false)
  | .updateFirmware => (if ret = .ok then .firmware word else .ret ret, false)

/-- Call `c` ends and leaves `msg_lock`. -/
def leave (s : State) (c : Call) (result : Result × Bool) (observed : Option Content) : State :=
  {s with held := none, outcomes := ⟨c, result.1, result.2, observed⟩ :: s.outcomes}

/-- The firmware goes on with its reply `r`. -/
def answer (s : State) (i : Nat) (r : Reply) (size : Nat) : State :=
  match r.stage with
  | .data =>
    {s with
      words := Function.update s.words .payload none
      replies := s.replies.set i {r with stage := .size}}
  | .size =>
    {s with
      words := Function.update s.words .size none
      size := size
      replies := s.replies.set i {r with stage := .ack}}
  | .ack => {s with ack := some r.content, replies := s.replies.eraseIdx i}

def step (s : State) : Label → Option State
  | .refuse kind size e =>
    some {s with
      calls := s.calls + 1
      outcomes := ⟨⟨s.calls, kind, size⟩, .ret (.err e), false, none⟩ :: s.outcomes}
  | .enter kind size =>
    match s.held with
    | none => some {s with
        calls := s.calls + 1
        held := some (⟨s.calls, kind, size⟩, .post (posting ⟨s.calls, kind, size⟩))}
    | some _ => none
  | .access =>
    match s.held with
    | some (c, .post (a :: rest)) =>
      some {perform s c a with held := some (c, if rest = [] then posted c else .post rest)}
    | _ => none
  | .fault =>
    match s.held with
    | some (c, .post (.word .payload :: _)) =>
      if c.kind = .schedule then none else some (leave s c (.ret (.err .EFAULT), false) none)
    | _ => none
  | .poll dead signalPending =>
    match s.held with
    | some (c, .poll failCnt) =>
      match pollOnce failCnt (ackVal dead s.ack) signalPending with
      | .again failCnt => some {s with held := some (c, .poll failCnt)}
      | .done ret =>
        some {s with held := some (c, .finish ret (if ret = .ok then s.ack else none))}
    | _ => none
  | .finish copy word =>
    match s.held with
    | some (c, .finish ret observed) =>
      some (leave s c (ending c ret s.size copy word) observed)
    | _ => none
  | .take =>
    match s.bells with
    | 0 => none
    | n + 1 => some {s with bells := n, replies := s.replies ++ [⟨s.words, .data⟩]}
  | .reply i size =>
    match s.replies[i]? with
    | some r => some (answer s i r size)
    | none => none

/-- What a call that returned 0 or copied data may rely on. `dxrt_reset_device`
looks at no ack at all. -/
def Truthful (o : Outcome) : Prop :=
  o.result.zero = true ∨ o.copied = true →
    match o.observed with
    | some content => Own o.call content
    | none => o.call.kind = .resetDevice

/-! ### Runs -/

/-- The firmware has answered every doorbell. -/
def Idle (s : State) : Prop := s.bells = 0 ∧ s.replies = []

/-- What a step must find: a sender that polls an idle firmware, a `soc_custom` whose
poll failed no size it would copy. -/
def Rule (s : State) : Label → Prop
  | .enter kind _ => kind = .resetDevice ∨ (s.bells = 0 ∧ s.replies.isEmpty)
  | .finish _ _ =>
    match s.held with
    | some (c, .finish ret _) => c.kind = .socCustom → ret ≠ .ok → copyable s.size = false
    | _ => True
  | _ => True

instance (s : State) (l : Label) : Decidable (Rule s l) :=
  match l with
  | .enter _ _ => inferInstanceAs (Decidable (_ ∨ _))
  | .finish _ _ =>
    match h : s.held with
    | some (c, .finish ret _) =>
      decidable_of_iff (c.kind = .socCustom → ret ≠ .ok → copyable s.size = false)
        (by simp [Rule, h])
    | some (_, .post _) | some (_, .poll _) | none => isTrue (by simp [Rule, h])
  | .refuse _ _ _ | .access | .fault | .poll _ _ | .take | .reply _ _ => isTrue trivial

/-- Where a polling call and the firmware stand in each phase of the call. -/
def Serving (s : State) (c : Call) : Phase → Prop
  | .post todo => Idle s ∧ todo ≠ [] ∧ ∃ past, posting c = past ++ todo ∧
      (∀ w, .word w ∈ past → s.words w = some c.id) ∧ (.clearAck ∈ past → s.ack = none)
  | .poll _ =>
    (s.bells = 1 ∧ s.replies = [] ∧ Own c s.words ∧ s.ack = none) ∨
    (s.bells = 0 ∧ s.ack = none ∧ ∃ r, s.replies = [r] ∧ Own c r.content) ∨
    (Idle s ∧ ∃ content, s.ack = some content ∧ Own c content)
  | .finish ret observed =>
    (ret = .ok → ∃ content, observed = some content ∧ Own c content) ∧
      (ret ≠ .ok → observed = none)

/-- The phases of a call that looks at no ack. -/
def Unpolled : Phase → Prop
  | .post _ => True
  | .poll _ => False
  | .finish _ observed => observed = none

structure Answering (s : State) : Prop where
  outcomes : ∀ o ∈ s.outcomes, Truthful o
  serving : ∀ c ph, s.held = some (c, ph) → c.kind ≠ .resetDevice → Serving s c ph
  reset : ∀ c ph, s.held = some (c, ph) → c.kind = .resetDevice → Unpolled ph

/-! ### What a sender posts -/

/-- The accesses of a call before its doorbell. -/
def body (c : Call) : List Access := (posting c).dropLast

theorem posting_eq (c : Call) : posting c = body c ++ [.bell] ∧ .bell ∉ body c ∧
    .clearAck ∈ body c := by
  obtain ⟨id, kind, size⟩ := c
  cases kind <;> simp only [body, posting, dxrtMsgToDev] <;> (try split) <;> simp

/-- The doorbell comes last, after the ack has been cleared. -/
theorem bell_last {c : Call} {past rest : List Access} {a : Access}
    (h : posting c = past ++ a :: rest) :
    (rest = [] → a = .bell ∧ .clearAck ∈ past ∧ ∀ w, .word w ∈ posting c → .word w ∈ past) ∧
      (rest ≠ [] → a ≠ .bell) := by
  obtain ⟨heq, hbell, hack⟩ := posting_eq c
  constructor
  · rintro rfl
    obtain ⟨rfl, ha⟩ := List.append_inj' (heq.symm.trans h) rfl
    refine ⟨(List.cons.inj ha).1.symm, hack, fun w hw => ?_⟩
    simpa [heq] using hw
  · rintro hrest rfl
    obtain ⟨front, last, rfl⟩ := (List.eq_nil_or_concat rest).resolve_left hrest
    rw [heq, List.concat_eq_append, ← List.cons_append, ← List.append_assoc] at h
    rw [(List.append_inj' h rfl).1] at hbell
    exact hbell (by simp)

/-! ### What each step keeps -/

theorem perform_keeps {s : State} {c : Call} {a : Access} :
    (perform s c a).outcomes = s.outcomes ∧ (perform s c a).replies = s.replies ∧
      (a ≠ .bell → (perform s c a).bells = s.bells) ∧ (perform s c a).calls = s.calls := by
  cases a <;> simp [perform]

/-- One access more keeps what the accesses before it did. -/
theorem perform_past {s : State} {c : Call} {a : Access} {past : List Access}
    (hwords : ∀ w, .word w ∈ past → s.words w = some c.id)
    (hack : .clearAck ∈ past → s.ack = none) :
    (∀ w, .word w ∈ past ++ [a] → (perform s c a).words w = some c.id) ∧
      (.clearAck ∈ past ++ [a] → (perform s c a).ack = none) := by
  cases a with
  | word v =>
    refine ⟨fun w hw => ?_, fun h => hack (by simpa using h)⟩
    by_cases hwv : w = v
    · simp [perform, hwv]
    · simp only [perform, Function.update_of_ne hwv]
      exact hwords w (by simpa [hwv] using hw)
  | clearAck => exact ⟨fun w hw => hwords w (by simpa using hw), fun _ => rfl⟩
  | bell => exact ⟨fun w hw => hwords w (by simpa using hw), fun h => hack (by simpa using h)⟩

theorem access_answering {s t : State} (hs : Answering s) (h : step s .access = some t) :
    Answering t := by
  simp only [step] at h
  split at h
  · rename_i c a rest hheld
    cases h
    refine ⟨?_, ?_, ?_⟩
    · simp only [perform_keeps.1]
      exact hs.outcomes
    · rintro c' ph hc hkind
      simp only [Option.some.injEq, Prod.mk.injEq] at hc
      obtain ⟨rfl, rfl⟩ := hc
      obtain ⟨⟨hbells, hreplies⟩, _, past, hpost, hwords, hack⟩ := hs.serving c _ hheld hkind
      obtain ⟨hlast, hmore⟩ := bell_last hpost
      by_cases hrest : rest = []
      · -- the doorbell: the message stands complete in the mailbox
        obtain ⟨rfl, hcleared, hall⟩ := hlast hrest
        rw [if_pos hrest, posted, if_neg hkind]
        exact .inl ⟨by simp [perform, hbells], hreplies, fun w hw => hwords w (hall w hw),
          hack hcleared⟩
      · rw [if_neg hrest]
        obtain ⟨_, hrep, hbell, _⟩ := @perform_keeps s c a
        obtain ⟨hwords', hack'⟩ := perform_past (a := a) hwords hack
        exact ⟨⟨(hbell (hmore hrest)).trans hbells, hrep.trans hreplies⟩, hrest, past ++ [a],
          by simpa using hpost, hwords', hack'⟩
    · rintro c' ph hc hkind
      simp only [Option.some.injEq, Prod.mk.injEq] at hc
      obtain ⟨rfl, rfl⟩ := hc
      split
      · rw [posted, if_pos hkind]
        rfl
      · trivial
  · cases h

/-- A call that leaves with an outcome that is truthful. -/
theorem leave_answering {s : State} {c : Call} {result : Result × Bool}
    {observed : Option Content} (hs : Answering s)
    (ho : Truthful ⟨c, result.1, result.2, observed⟩) :
    Answering (leave s c result observed) := by
  refine ⟨fun o hmem => ?_, fun _ _ hc => by simp [leave] at hc,
    fun _ _ hc => by simp [leave] at hc⟩
  rcases List.mem_cons.mp hmem with rfl | hmem
  · exact ho
  · exact hs.outcomes o hmem

theorem fault_answering {s t : State} (hs : Answering s) (h : step s .fault = some t) :
    Answering t := by
  simp only [step] at h
  split at h
  · split at h
    · cases h
    · cases h
      exact leave_answering hs (by rintro (h | h) <;> cases h)
  · cases h

theorem poll_answering {s t : State} {dead signalPending : Bool} (hs : Answering s)
    (h : step s (.poll dead signalPending) = some t) : Answering t := by
  simp only [step] at h
  split at h
  · rename_i c failCnt hheld
    split at h
    · rename_i n _
      cases h
      refine ⟨hs.outcomes, ?_, ?_⟩
      · rintro c' ph hc hkind
        cases hc
        exact hs.serving c (.poll failCnt) hheld hkind
      · rintro c' ph hc hkind
        cases hc
        exact hs.reset c (.poll failCnt) hheld hkind
    · rename_i ret hpoll
      cases h
      refine ⟨hs.outcomes, ?_, ?_⟩
      · rintro c' ph hc hkind
        cases hc
        refine ⟨?_, fun hret => if_neg hret⟩
        rintro rfl
        -- the ack word was 1, so the firmware has written it
        have hone := pollOnce_ok.mp hpoll
        have hserving := hs.serving c _ hheld hkind
        cases hack : s.ack with
        | none =>
          rw [hack] at hone
          cases dead <;> simp [ackVal] at hone
        | some content =>
          rcases hserving with ⟨_, _, _, h0⟩ | ⟨_, h0, _⟩ | ⟨_, content', h1, hown⟩
          · simp [hack] at h0
          · simp [hack] at h0
          · obtain rfl : content = content' := by simpa [hack] using h1
            exact ⟨content, by simp, hown⟩
      · rintro c' ph hc hkind
        cases hc
        exact (hs.reset c _ hheld hkind).elim
  · cases h

/-- The end of a call: only an ok poll gives a 0 or a copy. -/
theorem ending_silent {c : Call} {ret : Ret} {size : Nat} (copy : Ret) (word : Nat)
    (hret : ret ≠ .ok) (hsoc : c.kind = .socCustom → copyable size = false) :
    (ending c ret size copy word).1.zero = false ∧ (ending c ret size copy word).2 = false := by
  have hzero : (Result.ret ret).zero = false := by
    cases ret with
    | ok => exact absurd rfl hret
    | err e => rfl
  unfold ending
  split <;> simp_all

theorem finish_answering {s t : State} {copy : Ret} {word : Nat} (hs : Answering s)
    (rule : Rule s (.finish copy word)) (h : step s (.finish copy word) = some t) :
    Answering t := by
  simp only [step] at h
  split at h
  · rename_i c ret observed hheld
    cases h
    refine leave_answering hs fun hgood => ?_
    simp only at hgood
    by_cases hkind : c.kind = .resetDevice
    · have hnone : observed = none := hs.reset c _ hheld hkind
      simp [hnone, hkind]
    · obtain ⟨hok, herr⟩ := hs.serving c _ hheld hkind
      by_cases hret : ret = .ok
      · obtain ⟨content, rfl, hown⟩ := hok hret
        exact hown
      · simp only [Rule, hheld] at rule
        have hsilent := ending_silent copy word hret (fun hsoc => rule hsoc hret)
        rcases hgood with hgood | hgood
        · rw [hsilent.1] at hgood
          cases hgood
        · rw [hsilent.2] at hgood
          cases hgood
  · cases h

theorem take_answering {s t : State} (hs : Answering s) (h : step s .take = some t) :
    Answering t := by
  simp only [step] at h
  split at h
  · cases h
  · rename_i n hbells
    cases h
    refine ⟨hs.outcomes, fun c ph hc hkind => ?_, hs.reset⟩
    have hserving := hs.serving c ph hc hkind
    cases ph with
    | post todo => exact absurd hserving.1.1 (by omega)
    | poll failCnt =>
      rcases hserving with ⟨hone, hrep, hown, hack⟩ | ⟨hzero, _⟩ | ⟨⟨hzero, _⟩, _⟩
      · refine .inr (.inl ⟨by simp only; omega, hack, ⟨s.words, .data⟩, by simp [hrep], hown⟩)
      · omega
      · omega
    | finish ret observed => exact hserving

/-- The firmware goes on with its reply: while a call polls, that is the reply to it. -/
theorem reply_answering {s t : State} {i size : Nat} (hs : Answering s)
    (h : step s (.reply i size) = some t) : Answering t := by
  simp only [step] at h
  split at h
  · rename_i r hr
    cases h
    have hkeep : (answer s i r size).outcomes = s.outcomes ∧
        (answer s i r size).held = s.held := by
      unfold answer
      split <;> exact ⟨rfl, rfl⟩
    refine ⟨by rw [hkeep.1]; exact hs.outcomes, fun c ph hc hkind => ?_,
      by rw [hkeep.2]; exact hs.reset⟩
    rw [hkeep.2] at hc
    have hserving := hs.serving c ph hc hkind
    cases ph with
    | post todo =>
      rw [hserving.1.2] at hr
      simp at hr
    | poll failCnt =>
      rcases hserving with ⟨_, hrep, _, _⟩ | ⟨hzero, hack, r', hrep, hown⟩ | ⟨⟨_, hrep⟩, _⟩
      · rw [hrep] at hr
        simp at hr
      · rw [hrep] at hr
        obtain ⟨rfl, rfl⟩ : i = 0 ∧ r' = r := by
          cases i with
          | zero => exact ⟨rfl, by simpa using hr⟩
          | succ i => simp at hr
        unfold answer
        split
        · exact .inr (.inl ⟨hzero, hack, {r' with stage := .size}, by simp [hrep], hown⟩)
        · exact .inr (.inl ⟨hzero, hack, {r' with stage := .ack}, by simp [hrep], hown⟩)
        · exact .inr (.inr ⟨⟨hzero, by simp [hrep]⟩, r'.content, rfl, hown⟩)
      · rw [hrep] at hr
        simp at hr
    | finish ret observed => exact hserving
  · cases h

theorem enter_answering {s t : State} {kind : Kind} {size : Nat} (hs : Answering s)
    (rule : Rule s (.enter kind size)) (h : step s (.enter kind size) = some t) :
    Answering t := by
  simp only [step] at h
  split at h
  · cases h
    refine ⟨hs.outcomes, ?_, ?_⟩
    · rintro c ph hc hkind
      cases hc
      obtain ⟨hbells, hreplies⟩ := rule.resolve_left hkind
      refine ⟨⟨hbells, List.isEmpty_iff.mp hreplies⟩, ?_, [], rfl, by simp, by simp⟩
      rw [(posting_eq _).1]
      simp
    · rintro c ph hc _
      cases hc
      trivial
  · cases h

theorem step_answering (s : State) (l : Label) (t : State) (hs : Answering s) (rule : Rule s l)
    (h : step s l = some t) : Answering t := by
  cases l with
  | refuse kind size e =>
    cases h
    refine ⟨fun o hmem => ?_, hs.serving, hs.reset⟩
    rcases List.mem_cons.mp hmem with rfl | hmem
    · rintro (h | h) <;> cases h
    · exact hs.outcomes o hmem
  | enter kind size => exact enter_answering hs rule h
  | access => exact access_answering hs h
  | fault => exact fault_answering hs h
  | poll dead signalPending => exact poll_answering hs h
  | finish copy word => exact finish_answering hs rule h
  | take => exact take_answering hs h
  | reply i size => exact reply_answering hs h

theorem initial_answering : Answering initial :=
  ⟨by simp [initial], by simp [initial], by simp [initial]⟩

/-- A `msg_general` is posted, answered with eight bytes and returned; a
`dxrt_reset_device` follows. -/
def answeredRun : List Label :=
  [.enter .msgGeneral 4, .access, .access, .access, .access, .access, .access, .poll false false,
    .take, .reply 0 0, .reply 0 8, .reply 0 0, .poll false false, .finish .ok 0,
    .enter .resetDevice 0, .access, .access, .access, .access, .access, .finish .ok 0]

/-- A call is interrupted after the firmware took its message. The next one posts its
own, and takes the late ack of the first for its reply. -/
def lateAckRun : List Label :=
  [.enter .msgGeneral 0, .access, .access, .access, .access, .access, .take, .poll false true,
    .finish .ok 0, .enter .msgGeneral 0, .access, .access, .access, .access, .access,
    .reply 0 0, .reply 0 0, .reply 0 0, .poll false false, .finish .ok 0]

end DxNpuDriver.Rt.Mailbox
