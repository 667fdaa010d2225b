import DxNpuDriver.Rt.Readiness

/-! The recovery statistics (`dxrt_drv_recovery.c`).

`recovery_count` and `recovery_fail_count` go to user space with every recovery event, as
the cumulative successful and failed attempts. A run of the readiness worker counts its
success right before it publishes READY. A failure is counted in the branch of the PING
only: a run that gives the firmware up because its mailbox does not go, does not come back
or is not there goes to FW_HANG past the counter.

`admissible_accounted_iff_faithful` says that nothing else goes wrong. -/
namespace DxNpuDriver.Rt.Readiness

/-- The runs that have published READY and those that have published FW_HANG, and whether
the last access of the worker was to count a failure. -/
structure Tally where
  readyRuns : Nat
  hangRuns : Nat
  failing : Bool
  deriving DecidableEq

/-- What a step adds to the tally. -/
def tally (s : State) (l : Label) (g : Tally) : Tally :=
  match l with
  | .worker _ =>
    match s.worker with
    | .writeReady _ => {g with readyRuns := g.readyRuns + 1, failing := false}
    | .writeHang _ => {g with hangRuns := g.hangRuns + 1, failing := false}
    | .incFailCount _ => {g with failing := true}
    | _ => {g with failing := false}
  | _ => g

def talliedStep : State × Tally → Label → Option (State × Tally) := Machine.watched step tally

def talliedInitial (n : Nat) : State × Tally := (initial n, ⟨0, 0, false⟩)

/-- The worker has counted its success and will publish READY. -/
def Worker.succeeding : Worker → Bool
  | .clearFlag _ | .writeReady _ => true
  | _ => false

/-- The worker will publish FW_HANG. -/
def Worker.hanging : Worker → Bool
  | .writeHang _ => true
  | _ => false

/-- The next access of the worker publishes READY. -/
def Worker.publishesReady : Worker → Bool
  | .writeReady _ => true
  | _ => false

/-- No run being between its count and its write, the two counts are those of the runs. -/
def Faithful (s : State × Tally) : Prop :=
  s.1.worker.succeeding = false → s.1.worker.hanging = false →
    s.1.shared.recoveryCount = s.2.readyRuns ∧ s.1.shared.recoveryFailCount = s.2.hangRuns

/-- A run that publishes FW_HANG comes from a PING that has failed, and neither counter
comes round. -/
def Accounted (s : State × Tally) : Label → Prop
  | .worker _ =>
    (s.1.worker.hanging = true → s.2.failing = true ∧ s.2.hangRuns + 1 < 2 ^ 32) ∧
    (s.1.worker.publishesReady = true → s.2.readyRuns + 1 < 2 ^ 32)
  | _ => True

/-- What the two words are, in terms of the runs. -/
structure Tallied (s : State × Tally) : Prop where
  count : s.1.shared.recoveryCount =
    (s.2.readyRuns + if s.1.worker.succeeding then 1 else 0) % 2 ^ 32
  failCount : s.1.shared.recoveryFailCount = (s.2.hangRuns + if s.2.failing then 1 else 0) % 2 ^ 32
  failing : s.2.failing = true → s.1.worker.hanging = true
  ready : s.2.readyRuns < 2 ^ 32
  hang : s.2.hangRuns < 2 ^ 32

theorem talliedInitial_tallied (n : Nat) : Tallied (talliedInitial n) :=
  ⟨rfl, rfl, (by rintro ⟨⟩), Nat.two_pow_pos 32, Nat.two_pow_pos 32⟩

/-- A failure is counted right before FW_HANG is published. -/
theorem Tallied.calm {s : State × Tally} (inv : Tallied s) (h : s.1.worker.hanging = false) :
    s.2.failing = false := by
  by_contra hfailing
  have := inv.failing (Bool.not_eq_false _ |>.mp hfailing)
  simp [h] at this

/-! ### What a step can do -/

/-- `recovery_count` after an access. -/
def Effect.count (m : Shared) : Effect → Nat
  | .incCount => (m.recoveryCount + 1) % 2 ^ 32
  | _ => m.recoveryCount

/-- `recovery_fail_count` after an access. -/
def Effect.failCount (m : Shared) : Effect → Nat
  | .incFailCount => (m.recoveryFailCount + 1) % 2 ^ 32
  | _ => m.recoveryFailCount

theorem Effect.apply_counts {m n : Shared} {e : Effect} (h : e.apply m = some n) :
    n.recoveryCount = e.count m ∧ n.recoveryFailCount = e.failCount m := by
  cases e with
  | lockMsg | lockRecovery =>
    simp only [Effect.apply] at h
    split at h
    · cases h
    · cases h
      exact ⟨rfl, rfl⟩
  | _ =>
    cases h
    exact ⟨rfl, rfl⟩

/-- No call counts. -/
theorem callerStep_counts {m : Shared} {reset : ResetRet} {ready : Bool} {c d : Caller}
    {e : Effect} (h : callerStep m reset ready c = some (e, d)) :
    e.count m = m.recoveryCount ∧ e.failCount m = m.recoveryFailCount := by
  cases c with
  | notify p => cases p <;> cases h <;> exact ⟨rfl, rfl⟩
  | kick r p =>
    cases p with
    | lock | unlock =>
      cases h
      split <;> exact ⟨rfl, rfl⟩
    | _ => cases h <;> exact ⟨rfl, rfl⟩
  | command p => cases p <;> cases h <;> exact ⟨rfl, rfl⟩

/-- The accesses of the worker that have to do with the counts: the two on its way to READY
after the count, the write of READY, the count of a failure and the write of FW_HANG; and
the others. -/
inductive Tallying (m : Shared) : Worker → Effect → Worker → Prop
  | counted (x : Nat) : Tallying m (.incCount x) .incCount (.clearFlag x)
  | cleared (x : Nat) : Tallying m (.clearFlag x) (.setRecovering false) (.writeReady x)
  | ready (x : Nat) : Tallying m (.writeReady x) (.setState .ready) .idle
  | failed (x : Nat) : Tallying m (.incFailCount x) .incFailCount (.writeHang x)
  | hang (x : Nat) : Tallying m (.writeHang x) (.setState .fwHang) (.hangFlag x)
  | other (w : Worker) (e : Effect) (v : Worker) (hcount : e.count m = m.recoveryCount)
      (hfail : e.failCount m = m.recoveryFailCount) (hw : w.succeeding = false)
      (hhang : w.hanging = false) (hv : v.succeeding = false)
      (htally : ∀ s env g, s.worker = w → tally s (.worker env) g = {g with failing := false}) :
      Tallying m w e v

theorem pingProbe_succeeding (x : Nat) (env : Env) : (pingProbe x env).succeeding = false := by
  unfold pingProbe
  split <;> rfl

theorem gaveUp_succeeding (x : Nat) (c : Check) : (gaveUp x c).succeeding = false := by
  cases c <;> rfl

theorem afterCheck_succeeding (x : Nat) (env : Env) (c : Check) :
    (afterCheck x env c).succeeding = false := by
  have := pingProbe_succeeding x env
  cases c <;> grind [afterCheck, Worker.succeeding]

theorem recoveryReadyWorkFn_tallying {m : Shared} {env : Env} {w v : Worker} {e : Effect}
    (h : recoveryReadyWorkFn m env w = some (e, v)) : Tallying m w e v := by
  cases w with
  | idle => cases h
  | incCount x => cases h; exact .counted x
  | clearFlag x => cases h; exact .cleared x
  | writeReady x => cases h; exact .ready x
  | incFailCount x => cases h; exact .failed x
  | writeHang x => cases h; exact .hang x
  | passed x c =>
    cases h
    exact .other _ _ _ rfl rfl rfl rfl (afterCheck_succeeding x env c)
      fun s env g hs => by simp [tally, hs]
  | checkEpoch x c | checkState x c =>
    cases h
    refine .other _ _ _ rfl rfl rfl rfl ?_ fun s env g hs => by simp [tally, hs]
    split
    · rfl
    · exact gaveUp_succeeding x c
  | readReason x =>
    cases h
    refine .other _ _ _ rfl rfl rfl rfl ?_ fun s env g hs => by simp [tally, hs]
    cases m.lastRecoveryReason <;> rfl
  | readPermFail | permFailCount x =>
    cases h
    refine .other _ _ _ rfl rfl rfl rfl ?_ fun s env g hs => by simp [tally, hs]
    split <;> rfl
  | capture | lockMsg x | unlockMsg x ok | hangFlag x | permFailWrite x =>
    cases h
    exact .other _ _ _ rfl rfl rfl rfl rfl fun s env g hs => by simp [tally, hs]

/-! ### Runs -/

/-- A step that is not the worker's leaves the words and the worker's part of the
invariant. -/
theorem Tallied.other {s : State} {g : Tally} {m : Shared} {w : Worker} {cs : List Caller}
    (inv : Tallied (s, g)) (hcount : m.recoveryCount = s.shared.recoveryCount)
    (hfail : m.recoveryFailCount = s.shared.recoveryFailCount)
    (hsucc : w.succeeding = s.worker.succeeding) (hhang : w.hanging = s.worker.hanging) :
    Tallied (⟨m, w, cs⟩, g) where
  count := by
    show m.recoveryCount = (g.readyRuns + if w.succeeding then 1 else 0) % 2 ^ 32
    rw [hcount, hsucc]
    exact inv.count
  failCount := hfail.trans inv.failCount
  failing h := hhang.trans (inv.failing h)
  ready := inv.ready
  hang := inv.hang

/-- What a step of the worker does to the words and the tally. -/
theorem worker_tallied {s : State} {g : Tally} {env : Env} {e : Effect} {v : Worker} {m : Shared}
    (inv : Tallied (s, g)) (rule : Accounted (s, g) (.worker env))
    (hw : recoveryReadyWorkFn s.shared env s.worker = some (e, v))
    (hm : e.apply s.shared = some m) :
    Tallied ({s with shared := m, worker := v}, tally s (.worker env) g) := by
  obtain ⟨sh, w, cs⟩ := s
  obtain ⟨hcount, hfail⟩ := Effect.apply_counts hm
  have wcount : sh.recoveryCount = (g.readyRuns + if w.succeeding then 1 else 0) % 2 ^ 32 :=
    inv.count
  have wfail : sh.recoveryFailCount = (g.hangRuns + if g.failing then 1 else 0) % 2 ^ 32 :=
    inv.failCount
  have calm : w.hanging = false → g.failing = false := inv.calm
  have hready : g.readyRuns < 2 ^ 32 := inv.ready
  have hhang : g.hangRuns < 2 ^ 32 := inv.hang
  cases recoveryReadyWorkFn_tallying hw with
  | counted x =>
    rw [calm rfl] at wfail
    refine ⟨hcount.trans ?_, hfail.trans wfail, (by rintro ⟨⟩), hready, hhang⟩
    simp only [Effect.count, wcount]
    exact Nat.mod_add_mod _ _ _
  | cleared x =>
    rw [calm rfl] at wfail
    exact ⟨hcount.trans wcount, hfail.trans wfail, (by rintro ⟨⟩), hready, hhang⟩
  | ready x =>
    rw [calm rfl] at wfail
    exact ⟨hcount.trans wcount, hfail.trans wfail, (by rintro ⟨⟩), rule.2 rfl, hhang⟩
  | failed x =>
    rw [calm rfl] at wfail
    refine ⟨hcount.trans wcount, hfail.trans ?_, fun _ => rfl, hready, hhang⟩
    simp only [Effect.failCount, wfail]
    exact Nat.mod_add_mod _ _ _
  | hang x =>
    obtain ⟨failing, small⟩ := rule.1 rfl
    rw [show g.failing = true from failing] at wfail
    exact ⟨hcount.trans wcount, hfail.trans wfail, (by rintro ⟨⟩), hready, small⟩
  | other _ _ _ count fail wsucc whang vsucc same =>
    rw [calm whang] at wfail
    rw [same _ env g rfl]
    refine ⟨(hcount.trans count).trans ?_, (hfail.trans fail).trans wfail, (by rintro ⟨⟩), hready,
      hhang⟩
    rw [wsucc] at wcount
    simp only [vsucc]
    exact wcount

/-- A call that starts counts nothing. -/
theorem tally_call {l : Label} {c : Caller} (hl : l.call = some c) (s : State) (g : Tally) :
    tally s l g = g := by
  cases l with
  | event | reboot | recover => rfl
  | _ => cases hl

theorem step_tallied (s : State × Tally) (l : Label) (t : State × Tally) (inv : Tallied s)
    (rule : Accounted s l) (h : talliedStep s l = some t) : Tallied t := by
  obtain ⟨s, g⟩ := s
  obtain ⟨t, g'⟩ := t
  obtain ⟨hstep, rfl⟩ : step s l = some t ∧ g' = tally s l g :=
    (Machine.watched_eq_some step tally).mp h
  cases step_moved hstep with
  | call l c hl =>
    rw [tally_call hl]
    exact inv.other rfl rfl rfl rfl
  | caller i reset ready c d e m hi hc he hm =>
    obtain ⟨hcount, hfail⟩ := Effect.apply_counts hm
    obtain ⟨ccount, cfail⟩ := callerStep_counts hc
    exact inv.other (hcount.trans ccount) (hfail.trans cfail) rfl rfl
  | run hidle =>
    exact inv.other rfl rfl (by rw [hidle]; rfl) (by rw [hidle]; rfl)
  | worker env e w m hw he hm =>
    exact worker_tallied inv rule hw hm

theorem Tallied.faithful {s : State × Tally} (inv : Tallied s) : Faithful s := by
  intro hsucc hhang
  have hcount := inv.count
  have hfail := inv.failCount
  rw [hsucc] at hcount
  rw [inv.calm hhang] at hfail
  exact ⟨hcount.trans (Nat.mod_eq_of_lt inv.ready), hfail.trans (Nat.mod_eq_of_lt inv.hang)⟩

/-- A run that publishes FW_HANG past the counter, or whose count comes round, leaves counts
that are wrong. -/
theorem broken_unfaithful (s : State × Tally) (l : Label) (inv : Tallied s)
    (hrule : ¬ Accounted s l) : ∃ t, talliedStep s l = some t ∧ ¬ Faithful t := by
  obtain ⟨⟨sh, w, cs⟩, g⟩ := s
  have wcount : sh.recoveryCount = (g.readyRuns + if w.succeeding then 1 else 0) % 2 ^ 32 :=
    inv.count
  have wfail : sh.recoveryFailCount = (g.hangRuns + if g.failing then 1 else 0) % 2 ^ 32 :=
    inv.failCount
  have hready : g.readyRuns < 2 ^ 32 := inv.ready
  have hhang : g.hangRuns < 2 ^ 32 := inv.hang
  cases l with
  | worker env =>
    cases w with
    | writeHang x =>
      refine ⟨_, rfl, fun faithful => hrule ⟨fun _ => ?_, (by rintro ⟨⟩)⟩⟩
      have hfail : sh.recoveryFailCount = g.hangRuns + 1 := (faithful rfl rfl).2
      show g.failing = true ∧ g.hangRuns + 1 < 2 ^ 32
      rw [wfail] at hfail
      cases hg : g.failing with
      | false =>
        rw [hg] at hfail
        have hfail : g.hangRuns % 2 ^ 32 = g.hangRuns + 1 := hfail
        rw [Nat.mod_eq_of_lt hhang] at hfail
        omega
      | true =>
        rw [hg] at hfail
        have := Nat.mod_lt (g.hangRuns + 1) (Nat.two_pow_pos 32)
        exact ⟨rfl, hfail ▸ this⟩
    | writeReady x =>
      refine ⟨_, rfl, fun faithful => hrule ⟨(by rintro ⟨⟩), fun _ => ?_⟩⟩
      have hcount : sh.recoveryCount = g.readyRuns + 1 := (faithful rfl rfl).1
      show g.readyRuns + 1 < 2 ^ 32
      rw [wcount] at hcount
      have := Nat.mod_lt (g.readyRuns + 1) (Nat.two_pow_pos 32)
      exact hcount ▸ this
    | _ => exact absurd ⟨(by rintro ⟨⟩), (by rintro ⟨⟩)⟩ hrule
  | _ => exact absurd trivial hrule

/-- **The statistics are those of the runs** in every state of a history, if and only if
every run of it that publishes FW_HANG comes from a failed PING and no counter comes
round. -/
theorem admissible_accounted_iff_faithful (n : Nat) (ls : List Label) :
    Machine.Admissible talliedStep Accounted (talliedInitial n) ls ↔
      ∀ before after s, ls = before ++ after →
        Machine.run talliedStep (talliedInitial n) before = some s → Faithful s :=
  Machine.admissible_iff_throughout talliedStep step_tallied (fun _ => Tallied.faithful)
    broken_unfaithful (talliedInitial_tallied n)

/-- The link comes back and the mailbox is not ready: FW_HANG, and no failure counted. -/
theorem hang_not_counted :
    ¬ ∀ n ls before after s, ls = before ++ after →
      Machine.run talliedStep (talliedInitial n) before = some s → Faithful s := by
  intro h
  have faithful := h 5 (.event .up :: calls 0 3 ++ works silent 11) _ [] _
    (List.append_nil _).symm rfl rfl rfl
  revert faithful
  decide

end DxNpuDriver.Rt.Readiness
