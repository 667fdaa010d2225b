import DxNpuDriver.Rt.Stale

/-! READY and the proof it rests on (`dxrt_drv_recovery.c`, `dxrt_drv_message.c`).

READY is meant to follow a PONG or, for firmware that has none, a settle window. The
worker publishes it that way, but two writers go past the proof. The recovery command
takes the 1 that `dx_pcie_reset_dma_channels` returns after any endpoint reset for a
success and writes READY at once, over firmware that "cannot respond to messages until
re-initialized"; and it turns a RECOVERING it finds at its end, its own or that of a
later event, into READY once it has read READY. And whatever is proved to the worker may
be overtaken before its write.

`orderly_run_proved` says that nothing else goes wrong. -/
namespace DxNpuDriver.Rt.Readiness

/-- The step enters READY only if the firmware has proved itself since RECOVERING was last
written. -/
def Proved (s : State × Watch) (l : Label) : Prop :=
  effect s.1 l = some (.setState .ready) → s.1.shared.devState ≠ .ready → s.2.proved = true

/-- The worker has made its last check and will write READY. -/
def Worker.publishing : Worker → Bool
  | .passed _ .last | .incCount _ | .clearFlag _ | .writeReady _ => true
  | _ => false

/-- The next access of the worker reads the epoch for its last check. -/
def Worker.readsLastEpoch : Worker → Bool
  | .checkEpoch _ .last => true
  | _ => false

/-- The next access of the worker reads the state for its last check. -/
def Worker.readsLastState : Worker → Bool
  | .checkState _ .last => true
  | _ => false

/-- The command has taken its recovery for a success. -/
def Caller.publishing : Caller → Bool
  | .command (.clearFlag true) | .command (.readState true) | .command (.writeState true) => true
  | _ => false

/-- No DMA reset returns 1. RECOVERING is not written while the worker or a command is on
its way to READY, nor between the worker's last reading of the epoch and its last check of
the state, nor does that reading fall between a write of RECOVERING and the increment that
goes with it; and it does not find the counter gone round. -/
def Orderly (s : State × Watch) : Label → Prop
  | .caller i reset ready =>
    (effect s.1 (.caller i reset ready) = some (.setState .recovering) →
      s.1.worker.publishing = false ∧ ∀ c ∈ s.1.callers, c.publishing = false) ∧
    (s.1.callers[i]? = some (.command .resetDma) → reset ≠ .endpointReset)
  | .worker _ =>
    (s.1.worker.readsLastEpoch = true → s.2.bumps % 2 ^ 32 = 0 → s.2.bumps = 0) ∧
    (s.1.worker.readsLastState = true → s.1.shared.devState = .transportOk → s.2.calm = true)
  | _ => True

instance (s : State × Watch) (l : Label) : Decidable (Orderly s l) :=
  match l with
  | .caller _ _ _ => inferInstanceAs (Decidable ((_ → _ ∧ ∀ c ∈ _, _) ∧ (_ → _ ≠ _)))
  | .worker _ => inferInstanceAs (Decidable ((_ → _ → _) ∧ (_ → _ → _)))
  | .event _ | .reboot _ | .recover | .workerRun => isTrue trivial

/-! ### What a run has in hand -/

/-- Nobody has written RECOVERING since the running worker captured the epoch. -/
def Quiet (s : State × Watch) : Prop :=
  (∀ c ∈ s.1.callers, c.opened = false) ∧ s.2.bumps = 0

/-- What a worker at its place has found, if nobody has started over since. -/
def Evidence (m : Shared) (g : Watch) : Worker → Prop
  | .checkEpoch _ (.pinged true) | .checkState _ (.pinged true) | .passed _ (.pinged true) =>
    g.proved = true
  | .checkEpoch _ .last | .checkState _ .last | .passed _ .last => g.proved = true
  | .checkEpoch _ .settle | .checkState _ .settle | .passed _ .settle =>
    m.lastRecoveryReason = .fwUpdateNodlmsg
  | .incCount _ | .clearFlag _ | .writeReady _ => g.proved = true
  | _ => True

/-- The command has written RECOVERING. -/
def Caller.begun : Caller → Bool
  | .command .gate | .command .lock | .command .recheck | .command .state
  | .command .returned | .command .unlock => false
  | .command _ => true
  | _ => false

structure Backed (s : State × Watch) : Prop where
  counted : Counted s
  evidence : Quiet s → Evidence s.1.shared s.2 s.1.worker
  last : s.1.worker.readsLastState = true → s.2.calm = true → Quiet s
  publishing : s.1.worker.publishing = true → Quiet s
  ready : s.1.shared.devState = .ready → s.2.proved = true ∨ s.2.entered = false
  begun : ∀ c ∈ s.1.callers, c.begun = true → s.2.entered = true
  command : ∀ c ∈ s.1.callers, c.publishing = true → s.2.proved = true

theorem watchedInitial_backed (n : Nat) : Backed (watchedInitial n) where
  counted := watchedInitial_counted n
  evidence _ := trivial
  last := by rintro ⟨⟩
  publishing := by rintro ⟨⟩
  ready _ := .inr rfl
  begun := by rintro _ ⟨⟩
  command := by rintro _ ⟨⟩

/-! ### Steps of a caller -/

/-- The kinds of step a caller takes: it writes RECOVERING, it increments the epoch, or it
does neither and stays on its side of the two. -/
theorem callerStep_opened {m : Shared} {reset : ResetRet} {ready : Bool} {c d : Caller}
    {e : Effect} (h : callerStep m reset ready c = some (e, d)) :
    (e = .setState .recovering ∧ d.opened = true ∧ d.publishing = false) ∨
    (e = .incEpoch ∧ c.opened = true ∧ d.opened = false) ∨
    (e ≠ .setState .recovering ∧ e ≠ .incEpoch ∧ d.opened = c.opened) := by
  cases c with
  | notify p =>
    cases p with
    | read ev =>
      cases h
      refine .inr (.inr ⟨(by rintro ⟨⟩), (by rintro ⟨⟩), ?_⟩)
      split
      · rfl
      · cases ev <;> rfl
    | downState => cases h; exact .inl ⟨rfl, rfl, rfl⟩
    | downEpoch => cases h; exact .inr (.inl ⟨rfl, rfl, rfl⟩)
    | returned => cases h
    | _ => cases h; exact .inr (.inr ⟨(by rintro ⟨⟩), (by rintro ⟨⟩), rfl⟩)
  | kick r p =>
    cases p with
    | read =>
      cases h
      refine .inr (.inr ⟨(by rintro ⟨⟩), (by rintro ⟨⟩), ?_⟩)
      split <;> rfl
    | lock | unlock =>
      cases h
      refine .inr (.inr ⟨?_, ?_, rfl⟩) <;> split <;> rintro ⟨⟩
    | state => cases h; exact .inl ⟨rfl, rfl, rfl⟩
    | epoch => cases h; exact .inr (.inl ⟨rfl, rfl, rfl⟩)
    | returned => cases h
    | _ => cases h; exact .inr (.inr ⟨(by rintro ⟨⟩), (by rintro ⟨⟩), rfl⟩)
  | command p =>
    cases p with
    | gate | recheck | reboot | readState =>
      cases h
      refine .inr (.inr ⟨(by rintro ⟨⟩), (by rintro ⟨⟩), ?_⟩)
      split <;> rfl
    | resetDma =>
      cases h
      refine .inr (.inr ⟨(by rintro ⟨⟩), (by rintro ⟨⟩), ?_⟩)
      cases reset <;> rfl
    | writeState ok =>
      cases h
      refine .inr (.inr ⟨?_, (by rintro ⟨⟩), rfl⟩)
      cases ok <;> rintro ⟨⟩
    | state => cases h; exact .inl ⟨rfl, rfl, rfl⟩
    | epoch => cases h; exact .inr (.inl ⟨rfl, rfl, rfl⟩)
    | returned => cases h
    | _ => cases h; exact .inr (.inr ⟨(by rintro ⟨⟩), (by rintro ⟨⟩), rfl⟩)

/-- The reason is written between the two. -/
theorem callerStep_reason {m : Shared} {reset : ResetRet} {ready : Bool} {c d : Caller}
    {e : Effect} (h : callerStep m reset ready c = some (e, d)) (hc : c.opened = false) :
    e.reason m = m.lastRecoveryReason := by
  cases c with
  | notify p => cases p <;> cases h <;> first | rfl | cases hc
  | kick r p => cases p <;> cases h <;> first | rfl | (split <;> rfl) | cases hc
  | command p => cases p <;> cases h <;> first | rfl | cases hc

/-- A call that writes READY is a command that has taken its recovery for a success. -/
theorem callerStep_ready {m : Shared} {reset : ResetRet} {ready : Bool} {c d : Caller}
    {e : Effect} (h : callerStep m reset ready c = some (e, d)) (he : e.devState m = .ready) :
    m.devState = .ready ∨ (c.publishing = true ∧ e = .setState .ready) := by
  cases c with
  | notify p => cases p <;> cases h <;> first | exact .inl he | cases he
  | kick r p => cases p <;> cases h <;> first | exact .inl he | cases he | (split at he <;> exact .inl he)
  | command p =>
    cases p with
    | writeState ok =>
      cases h
      cases ok with
      | false => cases he
      | true => exact .inr ⟨rfl, rfl⟩
    | _ => cases h <;> first | exact .inl he | cases he

/-- A command is begun by its write of RECOVERING. -/
theorem callerStep_begun {m : Shared} {reset : ResetRet} {ready : Bool} {c d : Caller}
    {e : Effect} (h : callerStep m reset ready c = some (e, d)) (hd : d.begun = true) :
    c.begun = true ∨ e = .setState .recovering := by
  cases c with
  | notify p => cases p <;> cases h <;> cases hd
  | kick r p => cases p <;> cases h <;> cases hd
  | command p =>
    cases p with
    | gate | recheck =>
      cases h
      split at hd <;> cases hd
    | lock | unlock =>
      cases h
      cases hd
    | returned => cases h
    | state =>
      cases h
      exact .inr rfl
    | _ => exact .inl rfl

/-- A command takes its recovery for a success after an endpoint reset, or when it has read
READY. -/
theorem callerStep_publishing {m : Shared} {reset : ResetRet} {ready : Bool} {c d : Caller}
    {e : Effect} (h : callerStep m reset ready c = some (e, d)) (hd : d.publishing = true) :
    c.publishing = true ∨ (c.begun = true ∧ m.devState = .ready) ∨
      (c = .command .resetDma ∧ reset = .endpointReset) := by
  cases c with
  | notify p => cases p <;> cases h <;> cases hd
  | kick r p => cases p <;> cases h <;> cases hd
  | command p =>
    cases p with
    | gate | recheck =>
      cases h
      split at hd <;> cases hd
    | reboot =>
      cases h
      split at hd <;> cases hd
    | resetDma =>
      cases h
      cases reset with
      | endpointReset => exact .inr (.inr ⟨rfl, rfl⟩)
      | _ => cases hd
    | readFinal =>
      cases h
      by_cases hready : m.devState = .ready
      · exact .inr (.inl ⟨rfl, hready⟩)
      · simp [hready, Caller.publishing] at hd
    | clearFlag ok =>
      cases h
      cases ok with
      | true => exact .inl rfl
      | false => cases hd
    | readState ok =>
      cases h
      cases ok with
      | true => exact .inl rfl
      | false => split at hd <;> cases hd
    | writeState ok =>
      cases h
      cases hd
    | returned => cases h
    | _ =>
      cases h
      cases hd

/-- What the watch records of the steps of a caller that it takes no count of. -/
theorem note_caller_other {s : State} {i : Nat} {reset : ResetRet} {ready : Bool} {e : Effect}
    (he : effect s (.caller i reset ready) = some e) (hstate : e ≠ .setState .recovering)
    (hepoch : e ≠ .incEpoch) (g : Watch) : note s (.caller i reset ready) g = g := by
  simp only [note, he]
  split
  · exact absurd (Option.some.inj ‹_›) hepoch
  · exact absurd (Option.some.inj ‹_›) hstate
  · rfl

/-- The caller that writes RECOVERING is not quiet afterwards. -/
theorem not_quiet {s : State} {g : Watch} {i : Nat} {c d : Caller} {m : Shared}
    (hi : s.callers[i]? = some c) (hd : d.opened = true) :
    ¬ Quiet ({s with shared := m, callers := s.callers.set i d}, g) := by
  intro quiet
  have hlt : i < s.callers.length := (List.getElem?_eq_some_iff.mp hi).1
  have := quiet.1 d (List.mem_set hlt d)
  simp [this] at hd

/-- A command that takes its recovery for a success has a proof. -/
theorem Backed.proved_of_publishing {s : State} {g : Watch} {i : Nat} {reset : ResetRet}
    {ready : Bool} {c d : Caller} {e : Effect} (inv : Backed (s, g))
    (rule : Orderly (s, g) (.caller i reset ready)) (hi : s.callers[i]? = some c)
    (hc : callerStep s.shared reset ready c = some (e, d)) (hd : d.publishing = true) :
    g.proved = true := by
  have hmem : c ∈ s.callers := List.mem_of_getElem? hi
  rcases callerStep_publishing hc hd with hpub | ⟨hbegun, hready⟩ | ⟨rfl, hreset⟩
  · exact inv.command c hmem hpub
  · -- it has written RECOVERING itself, so the READY it has read is a later one
    rcases inv.ready hready with hproved | hnot
    · exact hproved
    · have := inv.begun c hmem hbegun
      simp [show g.entered = true from this] at hnot
  · exact absurd hreset (rule.2 hi)

/-- A caller that stays open, or stays closed, changes nothing for the others. -/
theorem quiet_set_iff {s : State} {g : Watch} {m : Shared} {i : Nat} {c d : Caller}
    (hi : s.callers[i]? = some c) (hsame : d.opened = c.opened) :
    Quiet ({s with shared := m, callers := s.callers.set i d}, g) ↔ Quiet (s, g) := by
  constructor
  · intro quiet
    refine ⟨fun b hb => ?_, quiet.2⟩
    obtain ⟨j, hj⟩ := List.getElem?_of_mem hb
    by_cases hij : i = j
    · subst hij
      have hlt : i < s.callers.length := (List.getElem?_eq_some_iff.mp hi).1
      rw [hi] at hj
      cases hj
      exact hsame ▸ quiet.1 d (List.mem_set hlt d)
    · refine quiet.1 b (List.mem_of_getElem? (i := j) ?_)
      rw [List.getElem?_set_ne hij]
      exact hj
  · intro quiet
    have hclosed : d.opened = false := hsame.trans (quiet.1 c (List.mem_of_getElem? hi))
    exact ⟨Machine.forall_mem_set quiet.1 (fun _ => id) hclosed, quiet.2⟩

theorem caller_backed {s : State} {g : Watch} {i : Nat} {reset : ResetRet} {ready : Bool}
    {c d : Caller} {e : Effect} {m : Shared} (inv : Backed (s, g))
    (rule : Orderly (s, g) (.caller i reset ready)) (hi : s.callers[i]? = some c)
    (hc : callerStep s.shared reset ready c = some (e, d))
    (he : effect s (.caller i reset ready) = some e) (hm : e.apply s.shared = some m) :
    Backed ({s with shared := m, callers := s.callers.set i d},
      note s (.caller i reset ready) g) := by
  have counted := caller_counted (d := d) inv.counted he hm
  obtain ⟨hstate, -, hreason⟩ := Effect.apply_words hm
  have hmem : c ∈ s.callers := List.mem_of_getElem? hi
  have hbegun : e ≠ .setState .recovering → ∀ b ∈ s.callers.set i d, b.begun = true →
      g.entered = true := by
    intro hne
    refine Machine.forall_mem_set inv.begun (fun _ => id) fun h => ?_
    rcases callerStep_begun hc h with h | h
    · exact inv.begun c hmem h
    · exact absurd h hne
  have hcommand : ∀ b ∈ s.callers.set i d, b.publishing = true → g.proved = true :=
    Machine.forall_mem_set inv.command (fun _ => id) (inv.proved_of_publishing rule hi hc)
  rcases callerStep_opened hc with ⟨rfl, hopen, hpub⟩ | ⟨rfl, hopen, hclosed⟩ | ⟨hne, hne', hsame⟩
  · -- RECOVERING is written: nobody is on the way to READY
    obtain ⟨hworker, hcallers⟩ := rule.1 he
    have hnote : note s (.caller i reset ready) g =
        {g with calm := false, entered := true, proved := false} := by simp [note, he]
    rw [hnote] at counted ⊢
    refine ⟨counted, fun quiet => absurd quiet (not_quiet hi hopen), (by rintro _ ⟨⟩), fun h => ?_,
      fun h => ?_, fun _ _ _ => rfl, ?_⟩
    · rw [show s.worker.publishing = true from h] at hworker
      cases hworker
    · rw [show m.devState = .ready from h] at hstate
      cases hstate
    · have none := Machine.forall_mem_set (i := i) hcallers (fun _ => id) hpub
      intro b hb h
      simp [none b hb] at h
  · -- the epoch moves: whoever does it has been open
    have open' : ¬ Quiet (s, g) := by
      intro quiet
      simp [quiet.1 c hmem] at hopen
    have hnote : note s (.caller i reset ready) g = {g with bumps := g.bumps + 1, late := true} := by
      simp [note, he]
    rw [hnote] at counted ⊢
    exact ⟨counted, fun quiet => absurd quiet.2 (Nat.succ_ne_zero _),
      fun h calm => absurd (inv.last h calm) open', fun h => absurd (inv.publishing h) open',
      fun h => inv.ready (hstate.symm.trans h), hbegun (by rintro ⟨⟩), hcommand⟩
  · rw [note_caller_other he hne hne'] at counted ⊢
    have hquiet := quiet_set_iff (m := m) (g := g) hi hsame
    refine ⟨counted, fun quiet => ?_, fun h calm => hquiet.mpr (inv.last h calm),
      fun h => hquiet.mpr (inv.publishing h), fun h => ?_, hbegun hne, hcommand⟩
    · have before := hquiet.mp quiet
      have hsameReason : m.lastRecoveryReason = s.shared.lastRecoveryReason :=
        hreason.trans (callerStep_reason hc (before.1 c hmem))
      have evidence := inv.evidence before
      revert evidence
      unfold Evidence
      rw [hsameReason]
      exact id
    · rcases callerStep_ready hc (hstate.symm.trans h) with h | ⟨hpub, -⟩
      · exact inv.ready h
      · exact .inl (inv.command c hmem hpub)

/-! ### Steps of the worker -/

theorem recoveryReadyWorkFn_reason {m : Shared} {env : Env} {w v : Worker} {e : Effect}
    (h : recoveryReadyWorkFn m env w = some (e, v)) : e.reason m = m.lastRecoveryReason := by
  cases w <;> cases h <;> rfl

/-- The worker adds proofs, and takes none away. -/
theorem note_worker_proved (s : State) (env : Env) (g : Watch) :
    (note s (.worker env) g).entered = g.entered ∧
    (g.proved = true → (note s (.worker env) g).proved = true) := by
  simp only [note]
  split
  · exact ⟨rfl, id⟩
  · exact ⟨rfl, id⟩
  · exact ⟨rfl, fun _ => rfl⟩
  · split
    · exact ⟨rfl, fun _ => rfl⟩
    · exact ⟨rfl, id⟩
  · exact ⟨rfl, id⟩

theorem pingProbe_evidence (m : Shared) (g : Watch) (e : Nat) (env : Env) :
    Evidence m g (pingProbe e env) := by
  unfold pingProbe
  split <;> trivial

theorem gaveUp_evidence (m : Shared) (g : Watch) (e : Nat) (c : Check) :
    Evidence m g (gaveUp e c) := by
  cases c <;> trivial

/-- What follows a check that has passed: only the settling ends with evidence of its own. -/
theorem afterCheck_evidence {s : State} {g : Watch} {env : Env} {x : Nat} {c : Check}
    (hx : s.worker = .passed x c) (before : Evidence s.shared g (.passed x c)) :
    Evidence s.shared (note s (.worker env) g) (afterCheck x env c) := by
  cases c with
  | start =>
    simp only [afterCheck]
    split
    · trivial
    · exact pingProbe_evidence _ _ x env
  | settle =>
    have hreason : s.shared.lastRecoveryReason = .fwUpdateNodlmsg := before
    simp only [afterCheck, note, hx, hreason]
    by_cases hexp : env.expired = true
    · simp [hexp, Evidence]
    · simp [hexp, Evidence, hreason]
  | drop | mailbox | back | locked =>
    simp only [afterCheck]
    repeat' split
    all_goals first | trivial | exact pingProbe_evidence _ _ x env
  | poll =>
    simp only [afterCheck]
    repeat' split
    all_goals trivial
  | entry => trivial
  | pinged ok =>
    cases ok with
    | false => trivial
    | true =>
      simp only [note, hx]
      exact before
  | last =>
    simp only [note, hx]
    exact before

/-- The evidence grows with the places: a PONG or an elapsed window is what the places
after it rest on. -/
theorem worker_evidence {s : State} {g : Watch} {env : Env} {e : Effect} {w : Worker}
    (hw : recoveryReadyWorkFn s.shared env s.worker = some (e, w))
    (evidence : s.worker ≠ .capture → Evidence s.shared g s.worker) :
    Evidence s.shared (note s (.worker env) g) w := by
  obtain ⟨m, worker, callers⟩ := s
  cases worker with
  | idle => cases hw
  | readPermFail | permFailCount x =>
    cases hw
    split <;> trivial
  | checkEpoch x c | checkState x c =>
    cases hw
    have before := evidence (by rintro ⟨⟩)
    split
    · cases c with
      | pinged ok => cases ok <;> exact before
      | _ => exact before
    · exact gaveUp_evidence _ _ x c
  | passed x c =>
    cases hw
    exact afterCheck_evidence rfl (evidence (by rintro ⟨⟩))
  | readReason x =>
    cases hw
    cases hr : m.lastRecoveryReason <;> trivial
  | unlockMsg x ok =>
    cases hw
    cases ok with
    | false => trivial
    | true => rfl
  | incCount x | clearFlag x =>
    cases hw
    exact evidence (by rintro ⟨⟩)
  | capture | lockMsg x | writeReady x | incFailCount x | writeHang x | hangFlag x | permFailWrite x =>
    cases hw
    trivial

/-- The last check of the state follows the last reading of the epoch. -/
theorem readsLastState_inv {m : Shared} {env : Env} {w v : Worker} {e : Effect}
    (h : recoveryReadyWorkFn m env w = some (e, v)) (hv : v.readsLastState = true) :
    w = .checkEpoch m.recoveryEpoch .last := by
  cases w with
  | checkEpoch x c =>
    cases h
    split at hv
    case isTrue heq =>
      subst heq
      cases c with
      | last => rfl
      | _ => cases hv
    case isFalse => cases c <;> cases hv
  | readPermFail =>
    cases h
    split at hv <;> cases hv
  | checkState x c =>
    cases h
    split at hv
    · cases hv
    · cases c <;> cases hv
  | passed x c =>
    cases h
    cases c <;> simp only [afterCheck, pingProbe] at hv <;> repeat' split at hv
    all_goals cases hv
  | readReason x =>
    cases h
    cases hr : m.lastRecoveryReason <;> rw [hr] at hv <;> cases hv
  | permFailCount x =>
    cases h
    split at hv <;> cases hv
  | idle => cases h
  | _ =>
    cases h
    cases hv

/-- The way to READY begins with a last check that finds TRANSPORT_OK. -/
theorem publishing_inv {m : Shared} {env : Env} {w v : Worker} {e : Effect}
    (h : recoveryReadyWorkFn m env w = some (e, v)) (hv : v.publishing = true) :
    w.publishing = true ∨ (w.readsLastState = true ∧ m.devState = .transportOk) := by
  cases w with
  | checkState x c =>
    cases h
    split at hv
    case isTrue heq =>
      cases c with
      | last => exact .inr ⟨rfl, heq⟩
      | _ => cases hv
    case isFalse => cases c <;> cases hv
  | checkEpoch x c =>
    cases h
    split at hv
    · cases hv
    · cases c <;> cases hv
  | passed x c =>
    cases h
    cases c with
    | last => exact .inl rfl
    | _ =>
      simp only [afterCheck, pingProbe] at hv
      repeat' split at hv
      all_goals cases hv
  | readPermFail =>
    cases h
    split at hv <;> cases hv
  | readReason x =>
    cases h
    cases hr : m.lastRecoveryReason <;> rw [hr] at hv <;> cases hv
  | permFailCount x =>
    cases h
    split at hv <;> cases hv
  | incCount x | clearFlag x => exact .inl rfl
  | idle => cases h
  | _ =>
    cases h
    cases hv

/-- The worker writes READY where it has been on the way to it. -/
theorem recoveryReadyWorkFn_ready {m : Shared} {env : Env} {w v : Worker} {e : Effect}
    (h : recoveryReadyWorkFn m env w = some (e, v)) (he : e.devState m = .ready) :
    m.devState = .ready ∨ ∃ x, w = .writeReady x := by
  cases w <;> cases h <;> first | exact .inl he | exact .inr ⟨_, rfl⟩ | cases he

theorem worker_backed {s : State} {g : Watch} {env : Env} {e : Effect} {w : Worker} {m : Shared}
    (inv : Backed (s, g)) (rule : Orderly (s, g) (.worker env))
    (hw : recoveryReadyWorkFn s.shared env s.worker = some (e, w))
    (hm : e.apply s.shared = some m) :
    Backed ({s with shared := m, worker := w}, note s (.worker env) g) := by
  obtain ⟨hstate, -, hreason⟩ := Effect.apply_words hm
  rw [recoveryReadyWorkFn_reason hw] at hreason
  obtain ⟨hbumps, -⟩ := note_worker s env g
  obtain ⟨hentered, hproved⟩ := note_worker_proved s env g
  have quiet_of : s.worker ≠ .capture → Quiet (s, g) →
      Quiet ({s with shared := m, worker := w}, note s (.worker env) g) := by
    intro hne quiet
    refine ⟨quiet.1, ?_⟩
    show (note s (.worker env) g).bumps = 0
    rw [hbumps, if_neg hne]
    exact quiet.2
  refine ⟨worker_counted inv.counted hw hm, fun quiet => ?_, fun hlast calm => ?_,
    fun hpub => ?_, fun hready => ?_, fun b hb h => ?_, fun b hb h => ?_⟩
  · have before : s.worker ≠ .capture → Evidence s.shared g s.worker := by
      intro hne
      refine inv.evidence ⟨quiet.1, ?_⟩
      have := quiet.2
      simp only [hbumps, if_neg hne] at this
      exact this
    have evidence := worker_evidence hw before
    revert evidence
    unfold Evidence
    rw [← hreason]
    exact id
  · -- the reading has found the epoch, and nobody open
    have hcheck := readsLastState_inv hw hlast
    have round : g.bumps % 2 ^ 32 = 0 :=
      inv.counted.bumps_mod (e := s.shared.recoveryEpoch) (by rw [hcheck]; rfl) rfl
    refine quiet_of (by simp [hcheck]) ⟨?_, rule.1 (by rw [hcheck]; rfl) round⟩
    simp only [note, hcheck, List.all_eq_true, Bool.not_eq_true'] at calm
    exact calm
  · have hne : s.worker ≠ .capture := by
      rintro h
      rw [h] at hw
      cases hw
      cases hpub
    rcases publishing_inv hw hpub with hpub | ⟨hlast, htransport⟩
    · exact quiet_of hne (inv.publishing hpub)
    · exact quiet_of hne (inv.last hlast (rule.2 hlast htransport))
  · show (note s (.worker env) g).proved = true ∨ (note s (.worker env) g).entered = false
    rw [hentered]
    rcases recoveryReadyWorkFn_ready hw (hstate.symm.trans hready) with hready | ⟨x, hx⟩
    · exact (inv.ready hready).imp_left hproved
    · have quiet := inv.publishing (by rw [hx]; rfl)
      have evidence := inv.evidence quiet
      simp only [hx] at evidence
      exact .inl (hproved evidence)
  · exact hentered ▸ inv.begun b hb h
  · exact hproved (inv.command b hb h)

/-! ### Runs -/

theorem step_backed (s : State × Watch) (l : Label) (t : State × Watch) (inv : Backed s)
    (rule : Orderly s l) (h : watchedStep s l = some t) : Backed t := by
  have counted := step_counted s l t inv.counted h
  obtain ⟨s, g⟩ := s
  obtain ⟨t, g'⟩ := t
  obtain ⟨hstep, rfl⟩ := (Machine.watched_eq_some step note).mp h
  cases step_moved hstep with
  | call _ c hl =>
    rw [note_call hl] at counted ⊢
    obtain ⟨hopen, hbegun, hpub⟩ : c.opened = false ∧ c.begun = false ∧ c.publishing = false :=
      Label.call_start (p := fun c => c.opened = false ∧ c.begun = false ∧ c.publishing = false) hl
        (fun _ => ⟨rfl, rfl, rfl⟩) (fun _ => ⟨rfl, rfl, rfl⟩) ⟨rfl, rfl, rfl⟩
    have quiet_iff : Quiet ({s with callers := s.callers ++ [c]}, g) ↔ Quiet (s, g) := by
      simp only [Quiet, List.forall_mem_append, List.forall_mem_singleton, hopen, and_true]
    refine ⟨counted, fun quiet => inv.evidence (quiet_iff.mp quiet),
      fun hlast calm => quiet_iff.mpr (inv.last hlast calm),
      fun h => quiet_iff.mpr (inv.publishing h), inv.ready, ?_, ?_⟩
    · refine List.forall_mem_append.mpr ⟨inv.begun, List.forall_mem_singleton.mpr fun h => ?_⟩
      simp [hbegun] at h
    · refine List.forall_mem_append.mpr ⟨inv.command, List.forall_mem_singleton.mpr fun h => ?_⟩
      simp [hpub] at h
  | caller i reset ready c d e m hi hc he hm => exact caller_backed inv rule hi hc he hm
  | run hidle =>
    exact ⟨counted, fun _ => trivial, (by rintro ⟨⟩), (by rintro ⟨⟩), inv.ready, inv.begun, inv.command⟩
  | worker env e w m hw he hm => exact worker_backed inv rule hw hm

theorem Backed.proved {s : State × Watch} {l : Label} (inv : Backed s) : Proved s l := by
  obtain ⟨s, g⟩ := s
  intro he hne
  cases l with
  | caller i reset ready =>
    simp only [effect, Option.bind_eq_some_iff, Option.map_eq_some_iff] at he
    obtain ⟨c, hi, ⟨e, d⟩, hc, rfl⟩ := he
    rcases callerStep_ready hc rfl with hready | ⟨hpub, -⟩
    · exact absurd hready hne
    · exact inv.command c (List.mem_of_getElem? hi) hpub
  | worker env =>
    simp only [effect, Option.map_eq_some_iff] at he
    obtain ⟨⟨e, w⟩, hw, rfl⟩ := he
    rcases recoveryReadyWorkFn_ready hw rfl with hready | ⟨x, hx⟩
    · exact absurd hready hne
    · have evidence := inv.evidence (inv.publishing (by rw [hx]; rfl))
      simp only [hx] at evidence
      exact evidence
  | _ => cases he

/-- **READY rests on a proof.** In every orderly run, whatever the DMA resets return short
of 1 and whatever the firmware answers, each entry into READY follows a PONG or a settle
window of the reason FW_UPDATE_NODLMSG, with no RECOVERING in between. -/
theorem orderly_run_proved {n : Nat} {ls : List Label}
    (rule : Machine.Admissible watchedStep Orderly (watchedInitial n) ls) :
    Machine.Admissible watchedStep Proved (watchedInitial n) ls :=
  Machine.Admissible.imp watchedStep step_backed (fun _ _ inv _ => inv.proved)
    (watchedInitial_backed n) rule

/-- The settle window has run out. -/
def settled : Env := ⟨true, true, false, true, .none, false⟩

/-- A recovery command whose firmware reboot the worker confirms, then an update to legacy
firmware, which is READY when its settle window has elapsed. -/
def commandThenLegacy : List Label :=
  .recover :: calls 0 12 ++ works answering 29 ++ calls 0 5 ++
    .reboot .fwUpdateNodlmsg :: calls 1 10 ++ works settled 15

theorem proved_commandThenLegacy :
    Machine.Admissible watchedStep Proved (watchedInitial 5) commandThenLegacy ∧
      (Machine.run watchedStep (watchedInitial 5) commandThenLegacy).map (fun s =>
        (s.1.shared.devState, s.1.shared.recoveryCount, s.2.entered)) = some (.ready, 2, true) :=
  ⟨orderly_run_proved (by decide), by decide⟩

/-- A recovery command after an endpoint reset, up to its write of READY. -/
def resetCommand : List Label := .recover :: List.replicate 10 (.caller 0 .endpointReset true)

theorem ready_without_proof :
    ¬ ∀ n ls, Machine.Admissible watchedStep Proved (watchedInitial n) ls := by
  intro h
  have proved := (h 5 (resetCommand ++ [.caller 0 .endpointReset true])).middle watchedStep
    resetCommand rfl
  have := proved (by decide) (by decide)
  revert this
  decide

end DxNpuDriver.Rt.Readiness
