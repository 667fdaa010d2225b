import DxNpuDriver.Edma.Channel
import DxNpuDriver.Lib.Machine

/-! Transfers on a channel, one after another (`dw_edma_sg_process`).

A transfer configures the channel, submits a descriptor, issues it and waits. Some of
its ways out terminate the channel twice, some have seen the cookie complete, and some
do neither: a changed `recovery_epoch`, an `hw_err` after the first check, a signal
whose drain ends in either, a timeout that a stage gives up on, the single terminate of
a completion that is still busy. The comment "channel already cleaned up" is not true of
these. A descriptor they leave on the lists is launched for the next transfer as soon as
`dx_dma_full_reinit` has set the channel IDLE.

`tidy_run_launches_own` says that this is the only way: if every transfer that leaves
by one of these exits finds its descriptor off the lists, `dw_edma_start_transfer` only
ever takes the descriptor of the transfer that issued it. -/
namespace DxNpuDriver.Edma.SgProcess

open Channel

/-- How a transfer leaves: before it submitted anything, after two terminate calls,
with its cookie seen complete, or with none of these. -/
inductive Exit where
  | early | twice | complete | bare
  deriving DecidableEq

/-- Where a path with two terminate calls goes on. -/
inductive Next where
  | final | leave
  deriving DecidableEq

inductive Pc where
  /-- `start_epoch` is read. -/
  | epoch
  /-- The admission gate reads `dev_state`. -/
  | admission
  | prep
  | issue
  | waiting
  /-- The recovery guard, with whether the wait ended by a signal. -/
  | woken (signal : Bool)
  | classify (signal : Bool)
  /-- The loop that waits for the transfer after a signal, and the check behind it. -/
  | signalDrain
  | signalEnd
  /-- `dw_edma_try_late_callback_recovery`, before and after it sees the cookie complete. -/
  | lateCallback
  | lateWait
  /-- `dw_edma_grace_rewait` and, past it, `dw_edma_recover_cs2_error`. -/
  | grace
  /-- `dw_edma_stuck_graceful_then_force`: its first terminate, and the wait for it. -/
  | stuckStop
  | stuckWait
  /-- The first and the second of two terminate calls. -/
  | twice (next : Next)
  | again (next : Next)
  /-- `DW_EDMA_FAIL_TERMINATE_ONCE`. -/
  | once
  /-- The final completion checks, with whether `cb->result` is set. -/
  | final (failed : Bool) (exit : Exit)
  | leave (exit : Exit)
  deriving DecidableEq

structure Thread where
  id : Nat
  startEpoch : Nat
  pc : Pc
  deriving DecidableEq

/-- A channel, what its transfers read of the device, the `done` flag of the waiting
thread, and the transfers so far. -/
structure State where
  chan : Chan
  live : Bool
  recoveryEpoch : Nat
  done : Bool
  thread : Option Thread
  transfers : Nat
  deriving DecidableEq

def initial : State := ⟨fresh, true, 0, false, none, 0⟩

/-- What a step of the transfer meets: the prepared descriptor, if there is one, as its
chunks and its mode; a signal; a wait window that has run out; CS=2; the reads of a
terminate call. -/
structure Meets where
  prep : Option (Nat × Bool)
  signal : Bool
  elapsed : Bool
  cs2 : Bool
  reads : TerminateReads
  deriving DecidableEq

/-- The writes of `dx_dma_quiesce_for_link_down`. -/
inductive Quiesce where
  | devState | recoveryEpoch | hwErr
  deriving DecidableEq

inductive Label where
  /-- A new transfer takes the channel and configures it. -/
  | start
  | thread (m : Meets)
  | launch (ready : Bool)
  | handoff (shadow ready : Bool)
  | done (l : LazyDone)
  | abort
  /-- The tasklet of the virtual channel calls `dw_edma_callback`. -/
  | callback
  /-- A peer channel or a failed launch signals `hw_err`. -/
  | hwErr
  | quiesce (w : Quiesce)
  /-- The channel loop of `dx_dma_full_reinit` or `edma_reprogram_hw`. -/
  | reset
  /-- `dx_dma_full_reinit` sets `DX_DEV_LIVE`. -/
  | goLive
  deriving DecidableEq

/-! ### Steps of a transfer -/

def State.at (s : State) (th : Thread) (pc : Pc) : State := {s with thread := some {th with pc := pc}}

def State.terminate (s : State) (r : TerminateReads) : State :=
  {s with chan := (deviceTerminateAll s.chan r).1}

/-- The recovery guard: the epoch has changed. -/
def State.stale (s : State) (th : Thread) : Bool := s.recoveryEpoch ≠ th.startEpoch

/-- One step of `dw_edma_sg_process`; `none` while it sleeps. -/
def advance (s : State) (th : Thread) (m : Meets) : Option State :=
  match th.pc with
  | .epoch =>
    some {s with thread := some {th with startEpoch := s.recoveryEpoch, pc := .admission}}
  | .admission => some (s.at th (if s.live then .prep else .leave .early))
  | .prep =>
    match m.prep with
    | none => some (s.at th (.leave .early))
    | some (chunks, lazyMode) =>
      let chan := {s.chan with hwErr := false, aborted := false}
      some ({s with chan := submit chan ⟨th.id, chunks, lazyMode, false⟩, done := false}.at th
        .issue)
  | .issue => some ({s with chan := deviceIssuePending s.chan}.at th .waiting)
  | .waiting =>
    if s.done ∨ s.chan.hwErr then some (s.at th (.woken false))
    else if m.signal then some (s.at th (.woken true))
    else if s.stale th ∨ m.elapsed then some (s.at th (.woken false))
    else none
  | .woken signal => some (s.at th (if s.stale th then .leave .bare else .classify signal))
  | .classify signal =>
    if s.chan.hwErr then some (s.at th (.twice .final))
    else if signal then some (s.at th .signalDrain)
    else if !s.done then some (s.at th .lateCallback)
    else some (s.at th (.final false .bare))
  | .signalDrain =>
    if s.done ∨ s.chan.hwErr ∨ s.stale th then some (s.at th .signalEnd)
    else if m.elapsed then some (s.at th (.twice .leave))
    else none
  | .signalEnd =>
    some (s.at th (if s.stale th ∨ s.chan.hwErr then .leave .bare else .final false .bare))
  | .lateCallback => some (s.at th (if th.id ∈ s.chan.cookies then .lateWait else .grace))
  | .lateWait =>
    if s.stale th ∨ s.chan.hwErr then some (s.at th (.final true .complete))
    else if s.done then some (s.at th (.final false .complete))
    else if m.elapsed then some (s.at th (.final true .complete))
    else none
  | .grace =>
    if s.stale th ∨ s.chan.hwErr then some (s.at th (.final true .bare))
    else if s.done then some (s.at th (.final false .bare))
    else if m.elapsed then some (s.at th (if m.cs2 then .twice .final else .stuckStop))
    else none
  | .stuckStop => some ((s.terminate m.reads).at th .stuckWait)
  | .stuckWait =>
    if s.stale th ∨ s.chan.hwErr ∨ s.done then some (s.at th (.final true .bare))
    else if m.elapsed then some (s.at th (.again .final))
    else none
  | .twice next => some ((s.terminate m.reads).at th (.again next))
  | .again .final => some ((s.terminate m.reads).at th (.final true .twice))
  | .again .leave => some ((s.terminate m.reads).at th (.leave .twice))
  | .once => some ((s.terminate m.reads).at th (.leave .bare))
  | .final failed exit =>
    if s.stale th ∨ s.chan.hwErr ∨ failed then some (s.at th (.leave exit))
    else if s.chan.aborted then
      some ({s with chan := {s.chan with aborted := false}}.at th (.twice .leave))
    else if th.id ∈ s.chan.cookies then some (s.at th (.leave .complete))
    else some (s.at th .once)
  | .leave _ => some {s with thread := none}

def step (s : State) : Label → Option State
  | .start =>
    match s.thread with
    | none => some {s with
        chan := deviceConfig s.chan
        thread := some ⟨s.transfers, 0, .epoch⟩
        transfers := s.transfers + 1}
    | some _ => none
  | .thread m => s.thread.bind fun th => advance s th m
  | .launch ready => some {s with chan := launchWork s.chan ready}
  | .handoff shadow ready => some {s with chan := handoffWork s.chan shadow ready}
  | .done l => some {s with chan := doneInterrupt s.chan l}
  | .abort => some {s with chan := abortInterrupt s.chan}
  | .callback =>
    match s.chan.completed with
    | [] => none
    | _ :: rest => some {s with chan := {s.chan with completed := rest}, done := true}
  | .hwErr | .quiesce .hwErr => some {s with chan := {s.chan with hwErr := true}}
  | .quiesce .devState => some {s with live := false}
  | .quiesce .recoveryEpoch => some {s with recoveryEpoch := (s.recoveryEpoch + 1) % 2 ^ 32}
  | .reset => some {s with chan := resetSw s.chan}
  | .goLive => some {s with live := true}

/-- When an issue starts a transfer, the descriptor at the head of the issued list is the
one of the transfer that issues. -/
def LaunchesOwn (s : State) : Label → Prop
  | .thread _ =>
    match s.thread with
    | none => True
    | some th => th.pc = .issue → (deviceIssuePending s.chan).starts ≠ s.chan.starts →
        (s.chan.issued ++ s.chan.submitted).head?.map (·.owner) = some th.id
  | _ => True

/-- A transfer that leaves with neither two terminate calls nor a complete cookie finds
its descriptor off the lists. -/
def Tidy (s : State) : Label → Prop
  | .thread _ =>
    match s.thread with
    | none => True
    | some th => th.pc = .leave .bare →
        ∀ d ∈ s.chan.issued ++ s.chan.submitted, d.owner ≠ th.id
  | _ => True

instance (s : State) (l : Label) : Decidable (Tidy s l) :=
  match l with
  | .thread _ =>
    match h : s.thread with
    | none => isTrue (by simp [Tidy, h])
    | some th =>
      decidable_of_iff (th.pc = .leave .bare →
        ∀ d ∈ s.chan.issued ++ s.chan.submitted, d.owner ≠ th.id) (by simp [Tidy, h])
  | .start | .launch _ | .handoff _ _ | .done _ | .abort | .callback | .hwErr | .quiesce _
  | .reset | .goLive => isTrue trivial

/-! ### What others do to the channel of a transfer -/

/-- The descriptors on the lists, in the order `vchan_issue_pending` gives them. -/
def listed (c : Chan) : List Desc := c.issued ++ c.submitted

/-- A stop has been asked for, or nothing runs. -/
def Stopped (c : Chan) : Prop := c.request = .stop ∨ (c.status ≠ .busy ∧ c.issued = [])

/-- What interrupts, workers and recovery do to a channel: at most they complete the head
of the issued list, and a channel that is being stopped stays so. -/
structure Disturbed (c t : Chan) : Prop where
  configured : t.configured = c.configured
  submitted : t.submitted = c.submitted
  issued : (t.issued.map (·.owner) = c.issued.map (·.owner) ∧ t.cookies = c.cookies) ∨
    ∃ d, c.issued = d :: t.issued ∧ t.cookies = d.owner :: c.cookies
  stopped : c.issued.length ≤ 1 → Stopped c → Stopped t

theorem Disturbed.refl (c : Chan) : Disturbed c c :=
  ⟨rfl, rfl, .inl ⟨rfl, rfl⟩, fun _ h => h⟩

/-- A change that touches none of the words that matter here. -/
theorem disturbed_same {c t : Chan} (hconf : t.configured = c.configured)
    (hsub : t.submitted = c.submitted) (hissued : t.issued = c.issued)
    (hcookies : t.cookies = c.cookies) (hrequest : t.request = c.request)
    (hstatus : t.status = c.status ∨ t.status = .idle) : Disturbed c t := by
  refine ⟨hconf, hsub, .inl ⟨by rw [hissued], hcookies⟩, fun _ h => ?_⟩
  rcases h with h | ⟨hbusy, hnil⟩
  · exact .inl (hrequest.trans h)
  · refine .inr ⟨?_, hissued.trans hnil⟩
    rcases hstatus with h | h
    · rw [h]
      exact hbusy
    · rw [h]
      decide

/-- The head is completed and the channel is idle. -/
theorem disturbed_complete {c t : Chan} {d : Desc} {rest : List Desc} (h : c.issued = d :: rest)
    (hconf : t.configured = c.configured) (hsub : t.submitted = c.submitted)
    (hissued : t.issued = rest) (hcookies : t.cookies = d.owner :: c.cookies)
    (hstatus : t.status = .idle) : Disturbed c t := by
  refine ⟨hconf, hsub, .inr ⟨d, by rw [h, hissued], hcookies⟩, fun hlen _ => .inr ⟨?_, ?_⟩⟩
  · rw [hstatus]
    decide
  · rw [h, List.length_cons] at hlen
    rw [hissued]
    exact List.eq_nil_of_length_eq_zero (by omega)

theorem launch_disturbed (c : Chan) (ready : Bool) : Disturbed c (launchWork c ready) := by
  unfold launchWork
  split
  · exact Disturbed.refl c
  · simp only
    split
    · exact disturbed_same rfl rfl rfl rfl rfl (.inl rfl)
    · split
      · exact disturbed_same rfl rfl rfl rfl rfl (.inl rfl)
      · exact disturbed_same rfl rfl rfl rfl rfl (.inl rfl)

theorem start_disturbed (c : Chan) : Disturbed c (startTransfer c) := by
  simp only [startTransfer]
  split
  · exact disturbed_same rfl rfl rfl rfl rfl (.inr rfl)
  · split
    · exact disturbed_same rfl rfl rfl rfl rfl (.inl rfl)
    · rename_i d rest h
      split
      · exact disturbed_complete h rfl rfl rfl rfl rfl
      · exact disturbed_same rfl rfl rfl rfl rfl (.inl rfl)

theorem reset_disturbed (c : Chan) : Disturbed c (resetSw c) :=
  disturbed_same rfl rfl rfl rfl rfl (.inr rfl)

theorem abort_disturbed (c : Chan) : Disturbed c (abortInterrupt c) := by
  unfold abortInterrupt
  simp only
  split
  · rename_i h
    refine ⟨rfl, rfl, .inl ⟨rfl, rfl⟩, fun _ _ => .inr ⟨by simp, h⟩⟩
  · rename_i d rest h
    exact disturbed_complete h rfl rfl rfl rfl rfl

/-- A change of the head that keeps its owner. -/
theorem disturbed_head {c t : Chan} {d e : Desc} {rest : List Desc} (h : c.issued = d :: rest)
    (hconf : t.configured = c.configured) (hsub : t.submitted = c.submitted)
    (hissued : t.issued = e :: rest) (howner : e.owner = d.owner)
    (hcookies : t.cookies = c.cookies) (hrequest : c.request = .stop → t.request = .stop) :
    Disturbed c t := by
  refine ⟨hconf, hsub, .inl ⟨by simp [h, hissued, howner], hcookies⟩, fun _ hs => ?_⟩
  rcases hs with hs | ⟨_, hnil⟩
  · exact .inl (hrequest hs)
  · rw [h] at hnil
    cases hnil

theorem handoff_disturbed (c : Chan) (shadow ready : Bool) :
    Disturbed c (handoffWork c shadow ready) := by
  unfold handoffWork
  split
  · exact Disturbed.refl c
  · rename_i d rest h
    split
    · exact Disturbed.refl c
    · simp only
      split
      · exact disturbed_head h rfl rfl rfl rfl rfl (fun hs => hs)
      · split
        · exact disturbed_complete h rfl rfl rfl rfl rfl
        · split
          · exact disturbed_head h rfl rfl rfl rfl rfl (fun hs => hs)
          · exact disturbed_head h rfl rfl rfl rfl rfl (fun hs => hs)

/-- The `switch` of a Done, on a channel whose head has a chunk less. -/
theorem doneByRequest_disturbed {c b : Chan} {d e : Desc} {rest : List Desc}
    (h : c.issued = d :: rest) (howner : e.owner = d.owner) (hb : b.issued = e :: rest)
    (hconf : b.configured = c.configured) (hsub : b.submitted = c.submitted)
    (hcookies : b.cookies = c.cookies) (hrequest : b.request = c.request) :
    Disturbed c (doneByRequest b e rest) := by
  have hcomplete : ∀ t : Chan, t.configured = b.configured → t.submitted = b.submitted →
      t.issued = rest → t.cookies = e.owner :: b.cookies → t.status = .idle → Disturbed c t := by
    intro t h1 h2 h3 h4 h5
    exact disturbed_complete h (h1.trans hconf) (h2.trans hsub) h3
      (by rw [h4, hcookies, howner]) h5
  unfold doneByRequest
  split
  · rename_i hnone
    have hnot : c.request = .stop → ∀ r : Request, r = .stop := by
      intro hs
      rw [← hrequest, hnone] at hs
      cases hs
    split
    · rename_i hchunks
      simp only [startTransfer, hb]
      split
      · exact disturbed_head h hconf hsub rfl howner hcookies (fun hs => hnot hs _)
      · exact disturbed_head h hconf hsub rfl howner hcookies (fun hs => hnot hs _)
    · exact hcomplete _ rfl rfl rfl rfl rfl
  · exact hcomplete _ rfl rfl rfl rfl rfl
  · rename_i hpause
    refine disturbed_head h hconf hsub hb howner hcookies (fun hs => ?_)
    rw [← hrequest, hpause] at hs
    cases hs

theorem deferLazyDone_owner (request : Request) (d : Desc) (l : LazyDone) :
    (deferLazyDone request d l).2.1.owner = d.owner := by
  unfold deferLazyDone
  split
  · rfl
  · split
    · rfl
    · cases l <;> rfl

theorem done_disturbed (c : Chan) (l : LazyDone) : Disturbed c (doneInterrupt c l) := by
  unfold doneInterrupt
  split
  · simp only [completeDone]
    split
    · exact disturbed_same rfl rfl rfl rfl rfl (.inl rfl)
    · rename_i d rest h
      have howner := deferLazyDone_owner c.request d l
      split
      · exact doneByRequest_disturbed h rfl h rfl rfl rfl rfl
      · split
        · exact disturbed_head h rfl rfl rfl howner rfl (fun hs => hs)
        · exact doneByRequest_disturbed h howner rfl rfl rfl rfl rfl
  · exact Disturbed.refl c

/-! ### Two terminate calls -/

/-- The lists of a channel that transfer `id` holds: its own descriptor or nothing, and
nothing once it is complete or the channel is not configured. -/
structure Holds (c : Chan) (id : Nat) : Prop where
  own : listed c = [] ∨ ∃ d, listed c = [d] ∧ d.owner = id
  incomplete : listed c ≠ [] → id ∉ c.cookies
  configured : c.configured = false → listed c = []

theorem Holds.issued_le {c : Chan} {id : Nat} (h : Holds c id) : c.issued.length ≤ 1 := by
  have hlen : c.issued.length + c.submitted.length = (listed c).length := by simp [listed]
  rcases h.own with h | ⟨d, h, _⟩
  · rw [h, List.length_nil] at hlen
    omega
  · rw [h, List.length_singleton] at hlen
    omega

theorem listed_nil {c : Chan} : listed c = [] ↔ c.issued = [] ∧ c.submitted = [] := by
  simp [listed]

theorem Disturbed.listed_nil {c t : Chan} (h : Disturbed c t) (hc : listed c = []) :
    listed t = [] ∧ t.cookies = c.cookies := by
  obtain ⟨hissued, hsub⟩ := SgProcess.listed_nil.mp hc
  rcases h.issued with ⟨hmap, hcookies⟩ | ⟨d, hd, _⟩
  · rw [hissued] at hmap
    refine ⟨SgProcess.listed_nil.mpr ⟨by simpa using hmap, h.submitted.trans hsub⟩, hcookies⟩
  · rw [hissued] at hd
    cases hd

theorem Disturbed.holds {c t : Chan} {id : Nat} (h : Disturbed c t) (hc : Holds c id) :
    Holds t id ∧ (t.cookies = c.cookies ∨ t.cookies = id :: c.cookies) := by
  rcases hc.own with hnil | ⟨d, hd, howner⟩
  · obtain ⟨hnil', hcookies⟩ := h.listed_nil hnil
    exact ⟨⟨.inl hnil', fun hne => absurd hnil' hne, fun _ => hnil'⟩, .inl hcookies⟩
  · have hne : listed c ≠ [] := by simp [hd]
    have hconf : t.configured ≠ false := by
      rw [h.configured]
      exact fun hf => hne (hc.configured hf)
    have hmap : (listed c).map (·.owner) = [id] := by simp [hd, howner]
    rcases h.issued with ⟨hissued, hcookies⟩ | ⟨e, he, hcookies⟩
    · have hmap' : (listed t).map (·.owner) = [id] := by
        rw [← hmap, listed, listed, List.map_append, List.map_append, hissued, h.submitted]
      obtain ⟨d', hd', howner'⟩ : ∃ d', listed t = [d'] ∧ d'.owner = id := by
        simpa [List.map_eq_cons_iff] using hmap'
      exact ⟨⟨.inr ⟨d', hd', howner'⟩, fun _ => by rw [hcookies]; exact hc.incomplete hne,
        fun hf => absurd hf hconf⟩, .inl hcookies⟩
    · have hlist : listed c = e :: listed t := by simp [listed, he, h.submitted]
      rw [hd] at hlist
      obtain ⟨rfl, hnil⟩ := List.cons.inj hlist
      exact ⟨⟨.inl hnil.symm, fun hne => absurd hnil.symm hne, fun _ => hnil.symm⟩,
        .inr (by rw [hcookies, howner])⟩

/-- Between the two calls: nothing is listed any more, or the stop stands. -/
def Ending (c : Chan) : Prop := listed c = [] ∨ Stopped c

theorem Disturbed.ending {c t : Chan} {id : Nat} (h : Disturbed c t) (hc : Holds c id)
    (he : Ending c) : Ending t :=
  he.imp (fun hnil => (h.listed_nil hnil).1) (h.stopped hc.issued_le)

theorem terminate_holds {c : Chan} {id : Nat} (r : TerminateReads) (hc : Holds c id) :
    Holds (deviceTerminateAll c r).1 id ∧ (deviceTerminateAll c r).1.cookies = c.cookies ∧
      Ending (deviceTerminateAll c r).1 := by
  rcases terminate_cases c r with ⟨hconf, heq⟩ | ⟨_, _, heq⟩ | ⟨_, _, _, _, e, heq⟩ |
    ⟨hconf, _, _, _, heq⟩ <;> rw [heq]
  · exact ⟨⟨hc.own, hc.incomplete, hc.configured⟩, rfl, .inl (hc.configured hconf)⟩
  · exact ⟨⟨.inl rfl, fun h => absurd rfl h, fun _ => rfl⟩, rfl, .inl rfl⟩
  · exact ⟨⟨.inl rfl, fun h => absurd rfl h, fun _ => rfl⟩, rfl, .inl rfl⟩
  · exact ⟨⟨hc.own, hc.incomplete, hc.configured⟩, rfl, .inr (.inl rfl)⟩

/-- The second call empties the lists. -/
theorem terminate_again {c : Chan} {id : Nat} (r : TerminateReads) (hc : Holds c id)
    (he : Ending c) : listed (deviceTerminateAll c r).1 = [] := by
  rcases terminate_cases c r with ⟨hconf, heq⟩ | ⟨_, _, heq⟩ | ⟨_, _, _, _, e, heq⟩ |
    ⟨_, hbusy, _, hstop, heq⟩ <;> rw [heq]
  · exact hc.configured hconf
  · rfl
  · rfl
  · rcases he with hnil | hs | ⟨hidle, _⟩
    · exact hnil
    · exact absurd hs hstop
    · exact absurd hbusy hidle

/-! ### Runs -/

/-- What is known of the channel at each point of the transfer. -/
def Known (c : Chan) (id : Nat) : Pc → Prop
  | .epoch | .admission | .prep => listed c = [] ∧ c.configured = true ∧ id ∉ c.cookies
  | .again _ | .stuckWait => Ending c
  | .lateWait => listed c = []
  | .final _ exit | .leave exit => exit = .bare ∨ listed c = []
  | _ => True

/-- What tidy transfers keep: the lists have nothing but the descriptor of the transfer
that holds the channel. -/
structure Sole (s : State) : Prop where
  free : s.thread = none → listed s.chan = []
  held : ∀ th, s.thread = some th → Holds s.chan th.id ∧ Known s.chan th.id th.pc ∧
    th.id < s.transfers
  past : ∀ o ∈ s.chan.cookies, o < s.transfers

theorem Disturbed.known {c t : Chan} {id : Nat} {pc : Pc} (h : Disturbed c t) (hc : Holds c id)
    (hk : Known c id pc) : Known t id pc := by
  cases pc with
  | epoch | admission | prep =>
    obtain ⟨hnil, hconf, hid⟩ := hk
    obtain ⟨hnil', hcookies⟩ := h.listed_nil hnil
    exact ⟨hnil', h.configured.trans hconf, hcookies ▸ hid⟩
  | again next => exact h.ending hc hk
  | stuckWait => exact h.ending hc hk
  | lateWait => exact (h.listed_nil hk).1
  | final failed exit => exact hk.imp_right fun hnil => (h.listed_nil hnil).1
  | leave exit => exact hk.imp_right fun hnil => (h.listed_nil hnil).1
  | issue | waiting | woken | classify | signalDrain | signalEnd | lateCallback | grace
  | stuckStop | twice | once => trivial

/-- At most the cookie of a transfer that has begun is complete now. -/
theorem Sole.past_of_cookies {s : State} {id : Nat} {cookies : List Nat} (hs : Sole s)
    (hid : id < s.transfers) (h : cookies = s.chan.cookies ∨ cookies = id :: s.chan.cookies) :
    ∀ o ∈ cookies, o < s.transfers := by
  rcases h with rfl | rfl
  · exact hs.past
  · intro o ho
    rcases List.mem_cons.mp ho with rfl | ho
    · exact hid
    · exact hs.past o ho

/-- A step that only disturbs the channel. -/
theorem disturbed_sole {s t : State} (hs : Sole s) (h : Disturbed s.chan t.chan)
    (hth : t.thread = s.thread) (htr : t.transfers = s.transfers) : Sole t := by
  refine ⟨fun hnone => ?_, fun th hsome => ?_, ?_⟩
  · exact (h.listed_nil (hs.free (hth ▸ hnone))).1
  · obtain ⟨hc, hk, hid⟩ := hs.held th (hth ▸ hsome)
    exact ⟨(h.holds hc).1, h.known hc hk, htr ▸ hid⟩
  · cases hthread : s.thread with
    | none =>
      rw [(h.listed_nil (hs.free hthread)).2, htr]
      exact hs.past
    | some th =>
      obtain ⟨hc, _, hid⟩ := hs.held th hthread
      rw [htr]
      exact hs.past_of_cookies hid (h.holds hc).2

/-- The transfer goes on and leaves the channel as it is. -/
theorem move_sole {s : State} {th th' : Thread} (hs : Sole s) (hth : s.thread = some th)
    (hid : th'.id = th.id) (hk : Known s.chan th.id th'.pc) :
    Sole {s with thread := some th'} := by
  obtain ⟨hc, _, hlt⟩ := hs.held th hth
  refine ⟨fun h => (by cases h), fun th'' h => ?_, hs.past⟩
  cases h
  rw [hid]
  exact ⟨hc, hk, hlt⟩

/-- The transfer makes a terminate call and goes on. -/
theorem terminate_sole {s : State} {th : Thread} {pc : Pc} {r : TerminateReads} (hs : Sole s)
    (hth : s.thread = some th) (hk : Known (deviceTerminateAll s.chan r).1 th.id pc) :
    Sole ((s.terminate r).at th pc) := by
  obtain ⟨hc, _, hlt⟩ := hs.held th hth
  obtain ⟨hc', hcookies, _⟩ := terminate_holds r hc
  refine ⟨fun h => (by cases h), fun th' h => ?_, ?_⟩
  · cases h
    exact ⟨hc', hk, hlt⟩
  · show ∀ o ∈ (deviceTerminateAll s.chan r).1.cookies, o < s.transfers
    rw [hcookies]
    exact hs.past

theorem splice_holds {c : Chan} {id : Nat} (hc : Holds c id) (status : Status) :
    Holds {(vchanIssuePending c).1 with status := status} id := by
  have hlisted : listed {(vchanIssuePending c).1 with status := status} = listed c := by
    simp [vchanIssuePending, listed]
  exact ⟨by rw [hlisted]; exact hc.own, by rw [hlisted]; exact hc.incomplete,
    by rw [hlisted]; exact hc.configured⟩

/-- Issuing keeps the one descriptor, or completes it if it has no chunk. -/
theorem issue_holds {c : Chan} {id : Nat} (hc : Holds c id) :
    Holds (deviceIssuePending c) id ∧
      ((deviceIssuePending c).cookies = c.cookies ∨
        (deviceIssuePending c).cookies = id :: c.cookies) := by
  unfold deviceIssuePending
  split
  · by_cases hsome : (vchanIssuePending c).2 = true
    · simp only [if_pos hsome]
      exact (start_disturbed _).holds (splice_holds hc .busy)
    · simp only [if_neg hsome]
      exact ⟨splice_holds hc c.status, .inl rfl⟩
  · exact ⟨hc, .inl rfl⟩

/-- With nothing listed there is nothing to start. -/
theorem issue_nothing {c : Chan} (h : listed c = []) :
    (deviceIssuePending c).starts = c.starts := by
  have hnone : (vchanIssuePending c).2 = false := by
    simp only [vchanIssuePending]
    rw [show c.issued ++ c.submitted = [] from h]
    rfl
  unfold deviceIssuePending
  split
  · simp only [hnone]
    rfl
  · rfl

theorem sole_launches_own {s : State} {l : Label} (hs : Sole s) : LaunchesOwn s l := by
  cases l with
  | thread m =>
    simp only [LaunchesOwn]
    split
    · trivial
    · rename_i th hth
      intro _ hstarts
      rcases (hs.held th hth).1.own with hnil | ⟨d, hd, howner⟩
      · exact absurd (issue_nothing hnil) hstarts
      · show (listed s.chan).head?.map (·.owner) = some th.id
        simp [hd, howner]
  | start | launch | handoff | done | abort | callback | hwErr | quiesce | reset | goLive =>
    trivial

/-! ### Steps of the transfer -/

theorem prep_sole {s : State} {th : Thread} {chunks : Nat} {lazyMode : Bool} (hs : Sole s)
    (hth : s.thread = some th) (hpc : th.pc = .prep) :
    Sole ({s with
      chan := submit {s.chan with hwErr := false, aborted := false} ⟨th.id, chunks, lazyMode, false⟩
      done := false}.at th .issue) := by
  obtain ⟨_, hk, hlt⟩ := hs.held th hth
  rw [hpc] at hk
  obtain ⟨hnil, hconf, hid⟩ := hk
  obtain ⟨hissued, hsub⟩ := listed_nil.mp hnil
  refine ⟨fun h => (by cases h), fun th' h => ?_, hs.past⟩
  cases h
  refine ⟨⟨.inr ⟨⟨th.id, chunks, lazyMode, false⟩, ?_, rfl⟩, fun _ => hid, fun hf => ?_⟩, trivial,
    hlt⟩
  · show s.chan.issued ++ (s.chan.submitted ++ _) = _
    rw [hissued, hsub]
    rfl
  · exact absurd (hconf.symm.trans hf) (by decide)

theorem issue_sole {s : State} {th : Thread} (hs : Sole s) (hth : s.thread = some th) :
    Sole ({s with chan := deviceIssuePending s.chan}.at th .waiting) := by
  obtain ⟨hc, _, hlt⟩ := hs.held th hth
  obtain ⟨hc', hcookies⟩ := issue_holds hc
  refine ⟨fun h => (by cases h), fun th' h => ?_, ?_⟩
  · cases h
    exact ⟨hc', trivial, hlt⟩
  · show ∀ o ∈ (deviceIssuePending s.chan).cookies, o < s.transfers
    exact hs.past_of_cookies hlt hcookies

/-- A cookie that is complete is off the lists. -/
theorem Holds.nil_of_cookie {c : Chan} {id : Nat} (hc : Holds c id) (h : id ∈ c.cookies) :
    listed c = [] := by
  by_contra hne
  exact hc.incomplete hne h

theorem leave_sole {s : State} {th : Thread} {m : Meets} {exit : Exit} (hs : Sole s)
    (hth : s.thread = some th) (hpc : th.pc = .leave exit) (rule : Tidy s (.thread m)) :
    Sole {s with thread := none} := by
  obtain ⟨hc, hk, _⟩ := hs.held th hth
  rw [hpc] at hk
  have hnil : listed s.chan = [] := by
    rcases hk with hbare | hnil
    · simp only [Tidy, hth, hpc, hbare, true_implies] at rule
      rcases hc.own with hnil | ⟨d, hd, howner⟩
      · exact hnil
      · exact absurd howner (rule d (by show d ∈ listed s.chan; simp [hd]))
    · exact hnil
  exact ⟨fun _ => hnil, fun th' h => (by cases h), hs.past⟩

/-- The steps that only move the transfer on, given what is known where it goes. -/
theorem at_sole {s : State} {th : Thread} {pc : Pc} (hs : Sole s) (hth : s.thread = some th)
    (hk : Known s.chan th.id pc) : Sole (s.at th pc) :=
  move_sole hs hth rfl hk

section Checks
variable {s t : State} {th : Thread} {m : Meets}

theorem waiting_sole (hs : Sole s) (hth : s.thread = some th) (hpc : th.pc = .waiting)
    (h : advance s th m = some t) : Sole t := by
  simp only [advance, hpc] at h
  split at h
  · cases h
    exact at_sole hs hth trivial
  · split at h
    · cases h
      exact at_sole hs hth trivial
    · split at h
      · cases h
        exact at_sole hs hth trivial
      · cases h

/-- Only a transfer that seems to have succeeded goes to the final checks from here, with
nothing known of its descriptor. -/
theorem classify_sole {signal : Bool} (hs : Sole s) (hth : s.thread = some th)
    (hpc : th.pc = .classify signal) (h : advance s th m = some t) : Sole t := by
  simp only [advance, hpc] at h
  split at h
  · cases h
    exact at_sole hs hth trivial
  · split at h
    · cases h
      exact at_sole hs hth trivial
    · split at h
      · cases h
        exact at_sole hs hth trivial
      · cases h
        exact at_sole hs hth (.inl rfl)

theorem signalDrain_sole (hs : Sole s) (hth : s.thread = some th) (hpc : th.pc = .signalDrain)
    (h : advance s th m = some t) : Sole t := by
  simp only [advance, hpc] at h
  split at h
  · cases h
    exact at_sole hs hth trivial
  · split at h
    · cases h
      exact at_sole hs hth trivial
    · cases h

theorem grace_sole (hs : Sole s) (hth : s.thread = some th) (hpc : th.pc = .grace)
    (h : advance s th m = some t) : Sole t := by
  simp only [advance, hpc] at h
  split at h
  · cases h
    exact at_sole hs hth (.inl rfl)
  · split at h
    · cases h
      exact at_sole hs hth (.inl rfl)
    · split at h
      · cases h
        refine at_sole hs hth ?_
        split <;> trivial
      · cases h

/-- The cookie is complete, so whatever the wait for the callback finds, nothing is listed. -/
theorem lateWait_sole (hs : Sole s) (hth : s.thread = some th) (hpc : th.pc = .lateWait)
    (h : advance s th m = some t) : Sole t := by
  have hnil : listed s.chan = [] := by
    have hk := (hs.held th hth).2.1
    rwa [hpc] at hk
  simp only [advance, hpc] at h
  split at h
  · cases h
    exact at_sole hs hth (.inr hnil)
  · split at h
    · cases h
      exact at_sole hs hth (.inr hnil)
    · split at h
      · cases h
        exact at_sole hs hth (.inr hnil)
      · cases h

end Checks

theorem final_sole {s t : State} {th : Thread} {m : Meets} {failed : Bool} {exit : Exit}
    (hs : Sole s) (hth : s.thread = some th) (hpc : th.pc = .final failed exit)
    (h : advance s th m = some t) : Sole t := by
  obtain ⟨hc, hk, hlt⟩ := hs.held th hth
  rw [hpc] at hk
  simp only [advance, hpc] at h
  split at h
  · cases h
    exact at_sole hs hth hk
  · split at h
    · cases h
      refine ⟨fun h => (by cases h), fun th' h => ?_, hs.past⟩
      cases h
      exact ⟨⟨hc.own, hc.incomplete, hc.configured⟩, trivial, hlt⟩
    · split at h
      · cases h
        exact at_sole hs hth (.inr (hc.nil_of_cookie ‹_›))
      · cases h
        exact at_sole hs hth trivial

theorem advance_sole {s t : State} {th : Thread} {m : Meets} (hs : Sole s)
    (hth : s.thread = some th) (rule : Tidy s (.thread m)) (h : advance s th m = some t) :
    Sole t := by
  obtain ⟨hc, hk, _⟩ := hs.held th hth
  cases hpc : th.pc with
  | epoch =>
    rw [hpc] at hk
    simp only [advance, hpc] at h
    cases h
    exact move_sole hs hth rfl hk
  | admission =>
    rw [hpc] at hk
    simp only [advance, hpc] at h
    cases h
    refine at_sole hs hth ?_
    split
    · exact hk
    · exact .inr hk.1
  | prep =>
    rw [hpc] at hk
    simp only [advance, hpc] at h
    split at h
    · cases h
      exact at_sole hs hth (.inr hk.1)
    · cases h
      exact prep_sole hs hth hpc
  | issue =>
    simp only [advance, hpc] at h
    cases h
    exact issue_sole hs hth
  | waiting => exact waiting_sole hs hth hpc h
  | woken signal =>
    simp only [advance, hpc] at h
    cases h
    refine at_sole hs hth ?_
    split
    · exact .inl rfl
    · trivial
  | classify signal => exact classify_sole hs hth hpc h
  | signalDrain => exact signalDrain_sole hs hth hpc h
  | signalEnd =>
    simp only [advance, hpc] at h
    cases h
    refine at_sole hs hth ?_
    split
    · exact .inl rfl
    · exact .inl rfl
  | grace => exact grace_sole hs hth hpc h
  | lateCallback =>
    simp only [advance, hpc] at h
    cases h
    refine at_sole hs hth ?_
    split
    · exact hc.nil_of_cookie ‹_›
    · trivial
  | lateWait => exact lateWait_sole hs hth hpc h
  | stuckStop =>
    simp only [advance, hpc] at h
    cases h
    exact terminate_sole hs hth (terminate_holds m.reads hc).2.2
  | stuckWait =>
    rw [hpc] at hk
    simp only [advance, hpc] at h
    split at h
    · cases h
      exact at_sole hs hth (.inl rfl)
    · split at h
      · cases h
        exact at_sole hs hth hk
      · cases h
  | twice next =>
    simp only [advance, hpc] at h
    cases h
    exact terminate_sole hs hth (terminate_holds m.reads hc).2.2
  | again next =>
    rw [hpc] at hk
    have hnil := terminate_again m.reads hc hk
    cases next with
    | final | leave =>
      simp only [advance, hpc] at h
      cases h
      exact terminate_sole hs hth (.inr hnil)
  | once =>
    simp only [advance, hpc] at h
    cases h
    exact terminate_sole hs hth (.inl rfl)
  | final failed exit => exact final_sole hs hth hpc h
  | leave exit =>
    simp only [advance, hpc] at h
    cases h
    exact leave_sole hs hth hpc rule

theorem start_sole {s : State} (hs : Sole s) (hth : s.thread = none) :
    Sole {s with
      chan := deviceConfig s.chan
      thread := some ⟨s.transfers, 0, .epoch⟩
      transfers := s.transfers + 1} := by
  have hnil : listed (deviceConfig s.chan) = [] := hs.free hth
  have hfresh : s.transfers ∉ s.chan.cookies := fun h => Nat.lt_irrefl _ (hs.past _ h)
  refine ⟨fun h => (by cases h), fun th h => ?_, fun o ho => Nat.lt_succ_of_lt (hs.past o ho)⟩
  cases h
  exact ⟨⟨.inl hnil, fun hne => absurd hnil hne, fun _ => hnil⟩, ⟨hnil, rfl, hfresh⟩,
    Nat.lt_succ_self _⟩

theorem step_sole (s : State) (l : Label) (t : State) (hs : Sole s) (rule : Tidy s l)
    (h : step s l = some t) : Sole t := by
  cases l with
  | start =>
    simp only [step] at h
    split at h
    · cases h
      exact start_sole hs ‹_›
    · cases h
  | thread m =>
    simp only [step, Option.bind_eq_some_iff] at h
    obtain ⟨th, hth, h⟩ := h
    exact advance_sole hs hth rule h
  | launch ready =>
    cases h
    exact disturbed_sole hs (launch_disturbed _ _) rfl rfl
  | handoff shadow ready =>
    cases h
    exact disturbed_sole hs (handoff_disturbed _ _ _) rfl rfl
  | done l =>
    cases h
    exact disturbed_sole hs (done_disturbed _ _) rfl rfl
  | abort =>
    cases h
    exact disturbed_sole hs (abort_disturbed _) rfl rfl
  | callback =>
    simp only [step] at h
    split at h
    · cases h
    · cases h
      exact disturbed_sole hs (disturbed_same rfl rfl rfl rfl rfl (.inl rfl)) rfl rfl
  | hwErr =>
    cases h
    exact disturbed_sole hs (disturbed_same rfl rfl rfl rfl rfl (.inl rfl)) rfl rfl
  | quiesce w =>
    cases w <;> cases h <;>
      exact disturbed_sole hs (disturbed_same rfl rfl rfl rfl rfl (.inl rfl)) rfl rfl
  | reset =>
    cases h
    exact disturbed_sole hs (reset_disturbed _) rfl rfl
  | goLive =>
    cases h
    exact disturbed_sole hs (Disturbed.refl _) rfl rfl

theorem initial_sole : Sole initial :=
  ⟨fun _ => rfl, fun th h => (by cases h), by simp [initial, fresh]⟩

/-- **Where every bare exit is tidy, no stale descriptor is launched.** -/
theorem tidy_run_launches_own (ls : List Label) (rule : Machine.Admissible step Tidy initial ls) :
    Machine.Admissible step LaunchesOwn initial ls :=
  rule.imp step step_sole (fun _ _ hs _ => sole_launches_own hs) initial_sole

/-- Nothing unusual: a one-chunk descriptor, a running channel. -/
def calm : Meets := ⟨some (1, false), false, false, false, .running⟩

/-- A transfer from its start to the issue and the launch of its chunk. -/
def launching : List Label :=
  [.start, .thread calm, .thread calm, .thread calm, .thread calm, .launch true]

/-- `dx_dma_quiesce_for_link_down`. -/
def quiesceForLinkDown : List Label :=
  [.quiesce .devState, .quiesce .recoveryEpoch, .quiesce .hwErr]

/-- The transfer wakes, sees the new epoch and returns. -/
def epochExit : List Label := [.thread calm, .thread calm, .thread calm]

/-- `dx_dma_full_reinit`. -/
def fullReinit : List Label := [.reset, .reset, .goLive]

/-- The chunk is done before the link goes down: the transfer leaves nothing behind, and
the one after the recovery launches its own descriptor. -/
theorem tidy_recovery_launches_own :
    ∃ s, Machine.run step initial (launching ++ [.done .final] ++ quiesceForLinkDown ++
        epochExit ++ fullReinit ++ launching) = some s ∧ s.transfers = 2 ∧
      Machine.Admissible step LaunchesOwn initial (launching ++ [.done .final] ++
        quiesceForLinkDown ++ epochExit ++ fullReinit ++ launching) :=
  ⟨_, rfl, rfl, tidy_run_launches_own _ (by decide)⟩

/-- The link goes down while the chunk is in flight: the transfer returns by the epoch,
and after the reinit the next one launches the descriptor it has left. -/
theorem stale_descriptor_launched :
    ¬ ∀ ls s, Machine.run step initial ls = some s →
      Machine.Admissible step LaunchesOwn initial ls := by
  intro h
  have hown := h (launching ++ quiesceForLinkDown ++ epochExit ++ fullReinit ++
    [.start, .thread calm, .thread calm, .thread calm] ++ [.thread calm]) _ rfl
  have hissue := hown.middle step _ rfl
  exact absurd (hissue rfl (by decide)) (by decide)

end DxNpuDriver.Edma.SgProcess
