import DxNpuDriver.Edma.Channel
import DxNpuDriver.Lib.Machine
import Mathlib.Tactic.Common

/-! A terminated channel can be used again.

`dw_edma_device_terminate_all` is called twice on every error path: the first call
asks the channel to stop, the second cleans up. Three places set `status` back to
IDLE and leave `request` as it is: the branch of the same function for a channel that
the hardware reports complete, `edma_reprogram_hw` and `dx_dma_full_reinit`. A
request left there makes every later `dw_edma_device_issue_pending` refuse.

`settled_run_usable` proves that nothing else goes wrong. In runs where these three
find no request, no channel that is not busy has one, and two terminate calls make a
channel that starts the next transfer exactly when they find none either. -/
namespace DxNpuDriver.Edma.Terminate

open Channel

inductive Label where
  | config
  | submit (d : Desc)
  | issue
  | pause
  | resume
  | terminate (r : TerminateReads)
  | done (l : LazyDone)
  | abort
  | launch (ready : Bool)
  | handoff (shadow ready : Bool)
  | reprogram
  | reinit (r : Reinit)
  deriving DecidableEq

/-- No descriptor is prepared without a chunk. -/
def step (c : Chan) : Label → Option Chan
  | .config => some (deviceConfig c)
  | .submit d => if d.chunks = 0 then none else some (submit c d)
  | .issue => some (deviceIssuePending c)
  | .pause => some (devicePause c).1
  | .resume => some (deviceResume c).1
  | .terminate r => some (deviceTerminateAll c r).1
  | .done l => some (doneInterrupt c l)
  | .abort => some (abortInterrupt c)
  | .launch ready => some (launchWork c ready)
  | .handoff shadow ready => some (handoffWork c shadow ready)
  | .reprogram => some (resetSw c)
  | .reinit r => some (fullReinit c r)

/-- A request waits for a channel that is busy. -/
def Settled (c : Chan) : Prop := c.status ≠ .busy → c.request = .none

/-- From `c` to `t` one transfer was started, and it runs. -/
def Started (c t : Chan) : Prop := t.status = .busy ∧ t.starts = c.starts + 1

/-- The steps that set `status` to IDLE and leave `request` find none. -/
def Rule (c : Chan) : Label → Prop
  | .terminate r =>
    c.configured = true → c.status = .busy → chStatus r.cs = .complete → c.request = .none
  | .reprogram => c.request = .none
  | .reinit r => r ≠ .dead → c.request = .none
  | _ => True

instance (c : Chan) (l : Label) : Decidable (Rule c l) :=
  match l with
  | .terminate _ => inferInstanceAs (Decidable (_ → _ → _ → _))
  | .reprogram => inferInstanceAs (Decidable (_ = _))
  | .reinit _ => inferInstanceAs (Decidable (_ → _))
  | .config | .submit _ | .issue | .pause | .resume | .done _ | .abort | .launch _
  | .handoff _ _ => isTrue trivial

/-! ### What each function keeps -/

structure Usable (c : Chan) : Prop where
  settled : Settled c
  unconfigured : c.configured = false → c.status = .idle ∧ c.issued = []
  up : c.shuttingDown = false
  chunks : ∀ d ∈ c.submitted, d.chunks ≠ 0

/-- A transfer is started on a channel with no request. -/
theorem start_usable {c : Chan} (hrequest : c.request = .none) (hconf : c.configured = true)
    (hup : c.shuttingDown = false) (hchunks : ∀ d ∈ c.submitted, d.chunks ≠ 0) :
    Usable (startTransfer c) := by
  simp only [startTransfer]
  split
  · exact absurd ‹_› (by simp [hup])
  · split
    · exact ⟨fun _ => hrequest, fun h => by simp [hconf] at h, hup, hchunks⟩
    · split
      · exact ⟨fun _ => hrequest, fun h => by simp [cookieComplete, hconf] at h, hup, hchunks⟩
      · exact ⟨fun _ => hrequest, fun h => by simp [hconf] at h, hup, hchunks⟩

/-- A channel with a descriptor issued is configured. -/
theorem Usable.configured_of_issued {c : Chan} (hc : Usable c) {d : Desc} {rest : List Desc}
    (h : c.issued = d :: rest) : c.configured = true := by
  cases hconf : c.configured with
  | true => rfl
  | false =>
    rw [(hc.unconfigured hconf).2] at h
    cases h

theorem issue_usable {c : Chan} (hc : Usable c) : Usable (deviceIssuePending c) := by
  unfold deviceIssuePending
  split
  · rename_i h
    obtain ⟨_, hconf, hrequest, hidle⟩ := h
    show Usable (if (vchanIssuePending c).2 then _ else _)
    split
    · exact start_usable hrequest hconf hc.up (by simp [vchanIssuePending])
    · exact ⟨fun _ => hrequest, fun h => by simp [vchanIssuePending, hconf] at h, hc.up,
        by simp [vchanIssuePending]⟩
  · exact hc

theorem pause_usable {c : Chan} (hc : Usable c) : Usable (devicePause c).1 := by
  unfold devicePause
  split
  · exact hc
  · split
    · exact hc
    · split
      · exact hc
      · rename_i hconf hstatus _
        have hbusy : c.status = .busy := by simpa using hstatus
        refine ⟨fun h => absurd hbusy h, fun h => ?_, hc.up, hc.chunks⟩
        exact absurd h (by simpa using hconf)

theorem resume_usable {c : Chan} (hc : Usable c) : Usable (deviceResume c).1 := by
  unfold deviceResume
  split
  · exact hc
  · split
    · exact hc
    · split
      · exact hc
      · rename_i hconf _ hrequest
        exact start_usable (by simpa using hrequest) (by simpa using hconf) hc.up hc.chunks

theorem doneByRequest_usable {c : Chan} {d : Desc} {rest : List Desc} (hc : Usable c)
    (hconf : c.configured = true) : Usable (doneByRequest c d rest) := by
  unfold doneByRequest
  split
  · rename_i hrequest
    split
    · exact start_usable hrequest hconf hc.up hc.chunks
    · exact ⟨fun _ => hrequest, fun h => by simp [cookieComplete, hconf] at h, hc.up, hc.chunks⟩
  · exact ⟨fun _ => rfl, fun h => by simp [cookieComplete, hconf] at h, hc.up, hc.chunks⟩
  · exact ⟨fun _ => rfl, fun h => by simp [hconf] at h, hc.up, hc.chunks⟩

theorem done_usable {c : Chan} {l : LazyDone} (hc : Usable c) : Usable (doneInterrupt c l) := by
  unfold doneInterrupt
  split
  · simp only [completeDone]
    split
    · exact ⟨hc.settled, hc.unconfigured, hc.up, hc.chunks⟩
    · rename_i d rest hissued
      have hconf := hc.configured_of_issued hissued
      have hkeep : ∀ (e a : Bool) (ds : List Desc), Usable {c with
          xferStarted := false, hwErr := e, aborted := a, issued := ds} :=
        fun _ _ _ => ⟨hc.settled, fun h => by simp [hconf] at h, hc.up, hc.chunks⟩
      split
      · exact doneByRequest_usable (hkeep _ _ _) hconf
      · split
        · exact hkeep _ _ _
        · exact doneByRequest_usable (hkeep _ _ _) hconf
  · exact hc

theorem abort_usable {c : Chan} (hc : Usable c) : Usable (abortInterrupt c) := by
  unfold abortInterrupt
  simp only
  split
  · exact ⟨fun _ => rfl, fun h => ⟨rfl, (hc.unconfigured h).2⟩, hc.up, hc.chunks⟩
  · rename_i d rest hissued
    have hconf := hc.configured_of_issued hissued
    exact ⟨fun _ => rfl, fun h => by simp [cookieComplete, hconf] at h, hc.up, hc.chunks⟩

theorem launch_usable {c : Chan} {ready : Bool} (hc : Usable c) : Usable (launchWork c ready) := by
  have hkeep : ∀ (p : Option Nat) (e x : Bool), Usable {c with
      pendingLaunch := p, hwErr := e, xferStarted := x} :=
    fun _ _ _ => ⟨hc.settled, hc.unconfigured, hc.up, hc.chunks⟩
  unfold launchWork
  split
  · exact hc
  · simp only
    split
    · exact hkeep _ _ _
    · split
      · exact hkeep _ _ _
      · exact hkeep _ _ _

theorem handoff_usable {c : Chan} {shadow ready : Bool} (hc : Usable c) :
    Usable (handoffWork c shadow ready) := by
  unfold handoffWork
  split
  · exact hc
  · rename_i d rest hissued
    have hconf := hc.configured_of_issued hissued
    split
    · exact hc
    · simp only
      split
      · exact ⟨hc.settled, fun h => by simp [hconf] at h, hc.up, hc.chunks⟩
      · split
        · exact ⟨fun _ => rfl, fun h => by simp [cookieComplete, hconf] at h, hc.up, hc.chunks⟩
        · split
          · exact ⟨hc.settled, fun h => by simp [hconf] at h, hc.up, hc.chunks⟩
          · rename_i hnot
            have hrequest : c.request = .none := by
              by_contra h
              exact hnot (.inl h)
            exact ⟨fun _ => hrequest, fun h => by simp [hconf] at h, hc.up, hc.chunks⟩

theorem terminate_usable {c : Chan} {r : TerminateReads} (hc : Usable c)
    (rule : Rule c (.terminate r)) : Usable (deviceTerminateAll c r).1 := by
  rcases terminate_cases c r with ⟨_, heq⟩ | ⟨hconf, hfree, heq⟩ | ⟨_, _, _, _, e, heq⟩ |
    ⟨hconf, hbusy, _, _, heq⟩ <;> rw [heq]
  · exact ⟨hc.settled, hc.unconfigured, hc.up, hc.chunks⟩
  · have hrequest : c.request = .none := by
      by_cases hbusy : c.status = .busy
      · exact rule hconf hbusy (hfree.resolve_left (fun h => h hbusy))
      · exact hc.settled hbusy
    exact ⟨fun _ => hrequest, fun _ => ⟨rfl, rfl⟩, hc.up, by simp [drain]⟩
  · exact ⟨fun _ => rfl, fun _ => ⟨rfl, rfl⟩, hc.up, by simp [drain]⟩
  · exact ⟨fun h => absurd hbusy h, fun h => by simp [hconf] at h, hc.up, hc.chunks⟩

theorem reset_usable {c : Chan} (hc : Usable c) (hrequest : c.request = .none) :
    Usable (resetSw c) :=
  ⟨fun _ => hrequest, fun h => ⟨rfl, (hc.unconfigured h).2⟩, hc.up, hc.chunks⟩

theorem step_usable (c : Chan) (l : Label) (t : Chan) (hc : Usable c) (rule : Rule c l)
    (h : step c l = some t) : Usable t := by
  cases l with
  | config =>
    cases h
    exact ⟨hc.settled, fun h => by simp [deviceConfig] at h, hc.up, hc.chunks⟩
  | submit d =>
    simp only [step] at h
    split at h
    · cases h
    · rename_i hd
      cases h
      refine ⟨hc.settled, hc.unconfigured, hc.up, fun e he => ?_⟩
      rcases List.mem_append.mp he with he | he
      · exact hc.chunks e he
      · rw [List.mem_singleton.mp he]
        exact hd
  | issue =>
    cases h
    exact issue_usable hc
  | pause =>
    cases h
    exact pause_usable hc
  | resume =>
    cases h
    exact resume_usable hc
  | terminate r =>
    cases h
    exact terminate_usable hc rule
  | done l =>
    cases h
    exact done_usable hc
  | abort =>
    cases h
    exact abort_usable hc
  | launch ready =>
    cases h
    exact launch_usable hc
  | handoff shadow ready =>
    cases h
    exact handoff_usable hc
  | reprogram =>
    cases h
    exact reset_usable hc rule
  | reinit r =>
    cases h
    cases r with
    | dead => exact hc
    | invalid => exact reset_usable hc (rule (by decide))
    | live => exact reset_usable (reset_usable hc (rule (by decide))) (rule (by decide))

/-- A step that does not meet the rule leaves an idle channel with a request. -/
theorem settled_iff_rule {c t : Chan} {l : Label} (hc : Usable c) (h : step c l = some t) :
    Settled t ↔ Rule c l := by
  refine ⟨fun hs => ?_, fun hr => (step_usable c l t hc hr h).settled⟩
  cases l with
  | terminate r =>
    intro hconf hbusy hcs
    cases h
    rcases terminate_cases c r with ⟨hno, _⟩ | ⟨_, _, heq⟩ | ⟨_, _, hcs', _⟩ | ⟨_, _, hcs', _⟩
    · rw [hconf] at hno
      cases hno
    · rw [heq] at hs
      exact hs (by simp [drain])
    · exact absurd hcs hcs'
    · exact absurd hcs hcs'
  | reprogram =>
    cases h
    exact hs (by simp [resetSw])
  | reinit r =>
    intro hr
    cases h
    cases r with
    | dead => exact absurd rfl hr
    | invalid => exact hs (by simp [fullReinit, resetSw])
    | live => exact hs (by simp [fullReinit, resetSw])
  | config => trivial
  | submit d => trivial
  | issue => trivial
  | pause => trivial
  | resume => trivial
  | done l => trivial
  | abort => trivial
  | launch ready => trivial
  | handoff shadow ready => trivial

/-! ### Two terminate calls -/

/-- The two calls of the error paths. -/
def terminateTwice (r₁ r₂ : TerminateReads) : List Label := [.terminate r₁, .terminate r₂]

/-- The next transfer on the channel. -/
def transfer (d : Desc) : List Label := [.config, .submit d, .issue]

/-- The channel after two terminate calls. -/
def twice (c : Chan) (r₁ r₂ : TerminateReads) : Chan :=
  (deviceTerminateAll (deviceTerminateAll c r₁).1 r₂).1

/-- The channel after the next transfer has been issued. -/
def next (c : Chan) (d : Desc) : Chan := deviceIssuePending (submit (deviceConfig c) d)

theorem run_terminate_transfer (c : Chan) (r₁ r₂ : TerminateReads) {d : Desc}
    (hd : d.chunks ≠ 0) :
    Machine.run step c (terminateTwice r₁ r₂ ++ transfer d) = some (next (twice c r₁ r₂) d) := by
  simp [terminateTwice, transfer, Machine.run, step, hd, twice, next]

/-- A channel that is idle and has nothing issued starts the next transfer exactly when
it has no request. -/
theorem next_started {c : Chan} {d : Desc} (hd : d.chunks ≠ 0) (hidle : c.status = .idle)
    (hissued : c.issued = []) (hup : c.shuttingDown = false)
    (hchunks : ∀ e ∈ c.submitted, e.chunks ≠ 0) :
    Started c (next c d) ↔ c.request = .none := by
  constructor
  · intro h
    by_contra hrequest
    have hsame : next c d = submit (deviceConfig c) d := by
      unfold next deviceIssuePending
      rw [if_neg]
      rintro ⟨_, _, hnone, _⟩
      exact hrequest hnone
    rw [hsame] at h
    exact absurd h.2 (by simp [submit, deviceConfig])
  · intro hrequest
    obtain ⟨e, rest, hsub⟩ : ∃ e rest, c.submitted ++ [d] = e :: rest :=
      List.exists_cons_of_ne_nil (by simp)
    have he : e.chunks ≠ 0 := by
      have hmem : e ∈ c.submitted ++ [d] := by simp [hsub]
      rcases List.mem_append.mp hmem with hmem | hmem
      · exact hchunks e hmem
      · rw [List.mem_singleton.mp hmem]
        exact hd
    simp [Started, next, deviceIssuePending, submit, deviceConfig, vchanIssuePending,
      startTransfer, hup, hrequest, hidle, hissued, hsub, he]

theorem terminate_unconfigured {c : Chan} (h : c.configured = false) (r : TerminateReads) :
    (deviceTerminateAll c r).1 = {c with pendingLaunch := none} := by
  simp [deviceTerminateAll, h]

/-- A second call on a channel that the first has left unconfigured changes nothing, and
meets the rule. -/
theorem twice_of_unconfigured {c : Chan} {r₁ : TerminateReads}
    (h : (deviceTerminateAll c r₁).1.configured = false) (r₂ : TerminateReads) :
    twice c r₁ r₂ = {(deviceTerminateAll c r₁).1 with pendingLaunch := none} ∧
      (Machine.Admissible step Rule c (terminateTwice r₁ r₂) ↔ Rule c (.terminate r₁)) := by
  refine ⟨terminate_unconfigured h r₂, fun hr => hr.1, fun hr => ⟨hr, ?_, trivial⟩⟩
  intro hconf
  rw [h] at hconf
  cases hconf

/-- The two calls leave an idle channel with nothing issued. -/
structure Cleaned (c : Chan) : Prop where
  idle : c.status = .idle
  issued : c.issued = []
  up : c.shuttingDown = false
  chunks : ∀ d ∈ c.submitted, d.chunks ≠ 0

theorem twice_cleaned {c : Chan} (hc : Usable c) (r₁ r₂ : TerminateReads) :
    Cleaned (twice c r₁ r₂) ∧ (twice c r₁ r₂).starts = c.starts := by
  rcases terminate_cases c r₁ with ⟨hconf, heq⟩ | ⟨_, _, heq⟩ | ⟨_, _, _, _, e, heq⟩ |
    ⟨hconf, hbusy, _, _, heq⟩
  · obtain ⟨htwice, _⟩ := twice_of_unconfigured (by rw [heq]; exact hconf) r₂
    rw [htwice, heq]
    obtain ⟨hidle, hissued⟩ := hc.unconfigured hconf
    exact ⟨⟨hidle, hissued, hc.up, hc.chunks⟩, rfl⟩
  · obtain ⟨htwice, _⟩ := twice_of_unconfigured (by rw [heq]; rfl) r₂
    rw [htwice, heq]
    exact ⟨⟨rfl, rfl, hc.up, by simp [drain]⟩, rfl⟩
  · obtain ⟨htwice, _⟩ := twice_of_unconfigured (by rw [heq]; rfl) r₂
    rw [htwice, heq]
    exact ⟨⟨rfl, rfl, hc.up, by simp [drain]⟩, rfl⟩
  · -- the first call only asks; the second finds the stop request
    unfold twice
    rw [heq]
    rcases terminate_cases {c with pendingLaunch := none, request := .stop} r₂ with
      ⟨hno, _⟩ | ⟨_, _, heq₂⟩ | ⟨_, _, _, _, e, heq₂⟩ | ⟨_, _, _, hno, _⟩
    · exact absurd hno (by simp [hconf])
    · rw [heq₂]
      exact ⟨⟨rfl, rfl, hc.up, by simp [drain]⟩, rfl⟩
    · rw [heq₂]
      exact ⟨⟨rfl, rfl, hc.up, by simp [drain]⟩, rfl⟩
    · exact absurd rfl hno

/-- A request is left exactly when one of the two calls does not meet the rule. -/
theorem twice_request {c : Chan} (hc : Usable c) (r₁ r₂ : TerminateReads) :
    (twice c r₁ r₂).request = .none ↔
      Machine.Admissible step Rule c (terminateTwice r₁ r₂) := by
  rcases terminate_cases c r₁ with ⟨hconf, heq⟩ | ⟨hconf, hfree, heq⟩ | ⟨_, _, hcs, _, e, heq⟩ |
    ⟨hconf, hbusy, hcs, _, heq⟩
  · obtain ⟨htwice, hrule⟩ := twice_of_unconfigured (by rw [heq]; exact hconf) r₂
    rw [htwice, heq, hrule]
    refine ⟨fun _ h => by simp [hconf] at h, fun _ => hc.settled ?_⟩
    simp [(hc.unconfigured hconf).1]
  · obtain ⟨htwice, hrule⟩ := twice_of_unconfigured (by rw [heq]; rfl) r₂
    rw [htwice, heq, hrule]
    refine ⟨fun h _ _ _ => h, fun hr => ?_⟩
    show c.request = .none
    by_cases hbusy : c.status = .busy
    · exact hr hconf hbusy (hfree.resolve_left fun h => h hbusy)
    · exact hc.settled hbusy
  · obtain ⟨htwice, hrule⟩ := twice_of_unconfigured (by rw [heq]; rfl) r₂
    rw [htwice, heq, hrule]
    exact ⟨fun _ _ _ h => absurd h hcs, fun _ => rfl⟩
  · have hrule : Machine.Admissible step Rule c (terminateTwice r₁ r₂) ↔
        chStatus r₂.cs ≠ .complete := by
      simp [terminateTwice, Machine.Admissible, step, Rule, heq, hconf, hbusy, hcs]
    rw [hrule]
    unfold twice
    rw [heq]
    rcases terminate_cases {c with pendingLaunch := none, request := .stop} r₂ with
      ⟨hno, _⟩ | ⟨_, hfree, heq₂⟩ | ⟨_, _, hcs₂, _, e, heq₂⟩ | ⟨_, _, _, hno, _⟩
    · exact absurd hno (by simp [hconf])
    · rw [heq₂]
      have hcs₂ : chStatus r₂.cs = .complete := hfree.resolve_left fun h => h hbusy
      simp [drain, hcs₂]
    · rw [heq₂]
      simp [drain, hcs₂]
    · exact absurd rfl hno

theorem fresh_usable : Usable fresh :=
  ⟨fun _ => rfl, fun _ => ⟨rfl, rfl⟩, rfl, by simp [fresh]⟩

/-- **A channel whose idle resets find no request can be used again**: it never has a
request without being busy, and after two terminate calls the next transfer starts
exactly when they find none where they set IDLE. -/
theorem settled_run_usable (ls : List Label) (c : Chan)
    (rule : Machine.Admissible step Rule fresh ls)
    (h : Machine.run step fresh ls = some c) :
    Settled c ∧ (∀ l t, step c l = some t → (Settled t ↔ Rule c l)) ∧
      ∀ r₁ r₂ d, d.chunks ≠ 0 →
        ∃ t, Machine.run step c (terminateTwice r₁ r₂ ++ transfer d) = some t ∧
          (Started c t ↔ Machine.Admissible step Rule c (terminateTwice r₁ r₂)) := by
  have hc := Machine.invariant_of_admissible step step_usable fresh_usable rule h
  refine ⟨hc.settled, fun l t ht => settled_iff_rule hc ht, fun r₁ r₂ d hd => ?_⟩
  refine ⟨_, run_terminate_transfer c r₁ r₂ hd, ?_⟩
  obtain ⟨hclean, hstarts⟩ := twice_cleaned hc r₁ r₂
  rw [← twice_request hc r₁ r₂,
    ← next_started hd hclean.idle hclean.issued hclean.up hclean.chunks]
  simp only [Started, hstarts]

/-- A transfer is stopped while it runs and the channel starts the next one. -/
theorem stopped_channel_restarts :
    ∃ c t, Machine.run step fresh [.config, .submit ⟨0, 2, false, false⟩, .issue, .launch true] =
        some c ∧
      Machine.run step c (terminateTwice ⟨1, 1, true⟩ ⟨2, 2, true⟩ ++
        transfer ⟨1, 1, false, false⟩) = some t ∧ Started c t := by
  obtain ⟨t, ht, hstarted⟩ := (settled_run_usable
    [.config, .submit ⟨0, 2, false, false⟩, .issue, .launch true] _ (by decide) rfl).2.2
    ⟨1, 1, true⟩ ⟨2, 2, true⟩ ⟨1, 1, false, false⟩ (by decide)
  exact ⟨_, t, rfl, ht, hstarted.mpr (by decide)⟩

/-- The hardware finishes between the two calls: the second takes the "false BUSY"
branch, the stop request stays, and the next transfer is refused. -/
theorem finished_between_calls :
    (¬ ∀ ls c, Machine.run step fresh ls = some c → Settled c) ∧
      ¬ ∀ ls c, Machine.run step fresh ls = some c → ∀ r₁ r₂ d, d.chunks ≠ 0 →
        ∃ t, Machine.run step c (terminateTwice r₁ r₂ ++ transfer d) = some t ∧ Started c t := by
  constructor
  · intro h
    have hc := h [.config, .submit ⟨0, 2, false, false⟩, .issue, .launch true,
      .terminate ⟨1, 1, true⟩, .terminate ⟨3, 3, true⟩] _ rfl
    exact absurd (hc (by decide)) (by decide)
  · intro h
    obtain ⟨t, ht, hstarted⟩ := h [.config, .submit ⟨0, 2, false, false⟩, .issue, .launch true] _
      rfl ⟨1, 1, true⟩ ⟨3, 3, true⟩ ⟨1, 1, false, false⟩ (by decide)
    cases ht
    exact absurd hstarted.1 (by decide)

end DxNpuDriver.Edma.Terminate
