import DxNpuDriver.Rt.Waiters.Alert

/-! No wake-up is lost (`run_hears`): every function that turns a test true goes on to wake
those who sleep on it, but for a recovery command that `dx_pcie_reset_dma_channels` turns
away, and for the TRANSPORT_OK or PERM_FAIL that are written over READY. -/
namespace DxNpuDriver.Rt.Waiters
open Machine (run)
open WaitQueue (Wait)

variable {ρ : Type}

/-! ### What each function announces -/

/-- The queues that the loops of the driver wake. -/
def Served : Wq → Prop
  | .response ch => ch < dxPcieRespNum
  | .event => True
  | .irq => False

def Called (l : List (Access ρ)) (q : Wq) : Prop := ∃ b ∈ l, b.Calls q

theorem Called.append_left {l : List (Access ρ)} {q : Wq} (h : Called l q) (l' : List (Access ρ)) :
    Called (l ++ l') q := by
  obtain ⟨b, hb, hcalls⟩ := h
  exact ⟨b, List.mem_append_left l' hb, hcalls⟩

theorem Called.append_right {l' : List (Access ρ)} {q : Wq} (l : List (Access ρ))
    (h : Called l' q) : Called (l ++ l') q := by
  obtain ⟨b, hb, hcalls⟩ := h
  exact ⟨b, List.mem_append_right l hb, hcalls⟩

theorem called_wakeAll {q : Wq} (hq : Served q) : Called (wakeAll : List (Access ρ)) q := by
  cases q with
  | response ch =>
    refine ⟨.wakeResponse ch, List.mem_append_left _ (List.mem_map_of_mem ?_), rfl⟩
    exact List.mem_range.mpr (Nat.lt_succ_of_lt hq)
  | event => exact ⟨.wakeEvent, List.mem_append_right _ List.mem_cons_self, rfl⟩
  | irq => exact hq.elim

/-- The access may turn a test of the queue true. -/
def Access.Raises : Access ρ → Wq → Prop
  | .setState d, .response _ => d ≠ .ready
  | .setRecovering true, .response _ | .setRecovering _, .event => True
  | .enqueueResponse ch _, .response c => c = ch
  | .enqueueEvent, .event => True
  | .setTerminating _, .response _ | .setTerminating _, .event => True
  | _, _ => False

/-- The writes that no wake-up follows: the TRANSPORT_OK of an UP or at the end of a kick,
and PERM_FAIL. -/
def Call.bare : Call ρ → Access ρ → Bool
  | .linkUp, .setState .transportOk | .kick _, .setState .transportOk
  | .workerHang _ _, .setState .permFail => true
  | _, _ => false

/-- A recovery command that `dx_pcie_reset_dma_channels` turns away. -/
def Call.refused : Call ρ → Bool
  | .recovery .refused => true
  | _ => false

/-- Whatever an access of the list raises is woken by the rest of it, the bare ones apart. -/
def Announced (c : Call ρ) : List (Access ρ) → Prop
  | [] => True
  | a :: rest =>
    (∀ q, Served q → a.Raises q → c.bare a = false → Called rest q) ∧ Announced c rest

section Announced
variable {c : Call ρ}

theorem Announced.suffix {l : List (Access ρ)} (h : Announced c l) {a : Access ρ}
    {rest : List (Access ρ)} (hsuffix : a :: rest <:+ l) {q : Wq} (hq : Served q)
    (hraises : a.Raises q) (hbare : c.bare a = false) : Called rest q := by
  induction l with
  | nil => cases List.suffix_nil.mp hsuffix
  | cons b l ih =>
    obtain heq | hsuffix := List.suffix_cons_iff.mp hsuffix
    · cases heq
      exact h.1 q hq hraises hbare
    · exact ih h.2 hsuffix

theorem announced_silent {l : List (Access ρ)} (h : ∀ a ∈ l, ∀ q, ¬ a.Raises q) :
    Announced c l := by
  induction l with
  | nil => trivial
  | cons a l ih =>
    obtain ⟨ha, hl⟩ := List.forall_mem_cons.mp h
    exact ⟨fun q _ hraises _ => absurd hraises (ha q), ih hl⟩

theorem announced_bare {a : Access ρ} {l : List (Access ρ)} (ha : c.bare a = true)
    (h : Announced c l) : Announced c (a :: l) :=
  ⟨fun _ _ _ hbare => absurd ha (Bool.eq_false_iff.mp hbare), h⟩

theorem Announced.append {l l' : List (Access ρ)} (h : Announced c l) (h' : Announced c l') :
    Announced c (l ++ l') := by
  induction l with
  | nil => exact h'
  | cons a l ih =>
    exact ⟨fun q hq hraises hbare => (h.1 q hq hraises hbare).append_left l', ih h.2⟩

/-- Before a list that wakes everybody nothing needs to be announced. -/
theorem announced_before {l' : List (Access ρ)} (hall : ∀ q, Served q → Called l' q)
    (h : Announced c l') (l : List (Access ρ)) : Announced c (l ++ l') := by
  induction l with
  | nil => exact h
  | cons a l ih => exact ⟨fun q hq _ _ => (hall q hq).append_right l, ih⟩

theorem announced_wakeAll : Announced c wakeAll := by
  refine announced_silent fun a ha q => ?_
  obtain ha | ha := List.mem_append.mp ha
  · obtain ⟨ch, -, rfl⟩ := List.mem_map.mp ha
    exact fun h => h
  · obtain rfl := List.mem_singleton.mp ha
    exact fun h => h

/-- All that a function does up to its last round of wake-ups. -/
theorem announced_wakeAll_then (l : List (Access ρ)) {l' : List (Access ρ)}
    (h : Announced c l') : Announced c (l ++ wakeAll ++ l') := by
  rw [List.append_assoc]
  exact announced_before (fun q hq => (called_wakeAll hq).append_left l')
    (announced_wakeAll.append h) l

theorem announced_raiseIrq (n : Nat) : Announced c (List.replicate n .raiseIrq) := by
  refine announced_silent fun a ha q => ?_
  rw [List.eq_of_mem_replicate ha]
  exact fun h => h

theorem announced_event (n : Nat) :
    Announced c ([.enqueueEvent] ++ List.replicate n .raiseIrq ++ [.wakeEvent]) := by
  refine ⟨fun q _ hraises _ => ?_, (announced_raiseIrq n).append ⟨fun q _ h => h.elim, trivial⟩⟩
  cases q with
  | event => exact ⟨.wakeEvent, List.mem_append_right _ List.mem_cons_self, rfl⟩
  | response => exact hraises.elim
  | irq => exact hraises.elim

theorem announced_emit (sub : Subcode) (reason : Readiness.Reason) :
    Announced c (emitRecoveryEvent sub reason) := by
  unfold emitRecoveryEvent
  split
  · trivial
  · exact announced_event 1

theorem announced_clear : Announced c dxPcieClearResponseQueue := by
  refine announced_silent fun a ha q => ?_
  obtain ⟨ch, -, rfl⟩ := List.mem_map.mp ha
  exact fun h => h

theorem announced_begin (reason : Readiness.Reason) : Announced c (beginRecovery reason) :=
  announced_wakeAll_then _ (announced_emit _ _)

end Announced

/-- Every function announces what it raises, but for a recovery command that is refused. -/
theorem call_announced {c : Call ρ} (hc : c.refused = false) : Announced c c.accesses := by
  cases c with
  | enqueueResponse ch response =>
    show Announced _ [_, _]
    refine ⟨fun q _ hraises _ => ⟨.wakeResponse ch, List.mem_cons_self, ?_⟩,
      fun q _ h => h.elim, trivial⟩
    cases q with
    | response c => exact congrArg Wq.response hraises
    | event => exact hraises.elim
    | irq => exact hraises.elim
  | enqueueEventResponse error =>
    cases error with
    | true => exact announced_event 1
    | false => exact announced_event 0
  | userIrqEvents => exact (announced_event 0).append (announced_raiseIrq 1)
  | terminateEvent => exact announced_raiseIrq 1
  | deviceInit => exact announced_clear.append announced_clear
  | linkDown => exact announced_begin _
  | linkUp => exact announced_bare rfl trivial
  | kick reason =>
    refine (announced_begin reason).append ?_
    exact announced_bare rfl trivial
  | workerReady reason => exact announced_wakeAll_then _ (announced_emit _ _)
  | workerHang reason permFail =>
    refine Announced.append (announced_wakeAll_then _ (announced_emit _ _)) ?_
    cases permFail with
    | true =>
      exact announced_bare rfl (announced_emit _ _)
    | false => trivial
  | recovery reset =>
    cases reset with
    | refused => cases hc
    | goes reboot finish => exact announced_before (fun q => called_wakeAll) announced_wakeAll _
  | flush file single =>
    show Announced _ ([_] ++ wakeAll ++ (if single then _ else _) ++ [_])
    rw [List.append_assoc]
    refine announced_wakeAll_then _ (Announced.append ?_ (announced_raiseIrq 1))
    split
    · exact announced_raiseIrq _
    · trivial

/-! ### No wake-up is lost -/

theorem test_pending {m : Words ρ} {ch : Nat} :
    m.test (.pending ch) = true ↔ 0 < m.responsePending ch := decide_eq_true_iff

/-- Where a test turns true. -/
theorem Access.raises {m : Words ρ} {a : Access ρ} {q : Wq} {t : Test} (hw : Watched q t)
    (hnew : (a.write m).test t = true) (hold : m.test t ≠ true) :
    a.wakes m = some q ∨ (a.Raises q ∧ Served q) := by
  cases a with
  | setState d =>
    cases q <;> cases t <;> first | exact absurd hnew hold | exact hw.elim | skip
    refine .inr ⟨fun hready => ?_, hw⟩
    rw [hready] at hnew
    cases hnew
  | setRecovering b =>
    cases q <;> cases t <;> first | exact absurd hnew hold | exact hw.elim | skip
    · cases b with
      | true => exact .inr ⟨trivial, hw⟩
      | false => cases hnew
    · exact .inr ⟨by cases b <;> trivial, trivial⟩
    · exact .inr ⟨by cases b <;> trivial, trivial⟩
  | clearPending ch =>
    cases t <;> first | exact absurd hnew hold | skip
    rename_i c
    have hnew : 0 < Function.update m.responsePending ch 0 c := test_pending.mp hnew
    by_cases hc : c = ch
    · rw [hc, Function.update_self] at hnew
      exact absurd hnew (Nat.lt_irrefl 0)
    · rw [Function.update_of_ne hc] at hnew
      exact absurd (test_pending.mpr hnew) hold
  | clearEvents =>
    cases t <;> first | exact absurd hnew hold | skip
    cases hnew
  | enqueueResponse ch response =>
    cases q <;> cases t <;> first | exact absurd hnew hold | exact hw.elim | skip
    rename_i own c
    obtain ⟨hown, rfl⟩ := hw
    have hnew : 0 < Function.update m.responsePending ch (m.responsePending ch + 1) c :=
      test_pending.mp hnew
    by_cases hc : c = ch
    · exact .inr ⟨hc, hown⟩
    · rw [Function.update_of_ne hc] at hnew
      exact absurd (test_pending.mpr hnew) hold
  | enqueueEvent =>
    cases t <;> first
      | (cases q <;> first | exact hw.elim | exact .inr ⟨trivial, trivial⟩)
      | (simp only [write] at hnew; split at hnew <;> exact absurd hnew hold)
  | raiseIrq =>
    cases q <;> cases t <;> first | exact absurd hnew hold | exact hw.elim | skip
    exact .inl (if_neg hold)
  | setTerminating file =>
    cases q <;> cases t <;> first | exact absurd hnew hold | exact hw.elim | skip
    · exact .inr ⟨trivial, hw⟩
    · exact .inr ⟨trivial, trivial⟩
  | clearResponses | wakeResponse | wakeEvent => exact absurd hnew hold

/-- No access of a recovery command that is refused, and no TRANSPORT_OK or PERM_FAIL over
READY but in a recovery command. -/
def Rule (s : State ρ) : Label ρ → Prop
  | .thread i =>
    match s.threads[i]? with
    | some ⟨c, a :: _⟩ => c.refused = false ∧ (c.bare a = true → s.words.devState ≠ .ready)
    | _ => True
  | _ => True

instance (s : State ρ) (l : Label ρ) : Decidable (Rule s l) := by
  unfold Rule
  split
  · split <;> infer_instance
  · infer_instance

/-- A bare write turns a test true only over READY. -/
theorem bare_ready {c : Call ρ} {a : Access ρ} (hbare : c.bare a = true) {m : Words ρ} {t : Test}
    (hnew : (a.write m).test t = true) (hold : m.test t ≠ true) : m.devState = .ready := by
  obtain ⟨d, rfl⟩ : ∃ d, a = .setState d := by
    unfold Call.bare at hbare
    split at hbare
    · exact ⟨_, rfl⟩
    · exact ⟨_, rfl⟩
    · exact ⟨_, rfl⟩
    · cases hbare
  cases t with
  | devStateErrno =>
    simp only [Words.test] at hold
    cases hstate : m.devState with
    | ready => rfl
    | _ => exact absurd (by rw [hstate]; rfl) hold
  | _ => exact absurd hnew hold

/-- Everything that is true alarms, and every caller counts. -/
abbrev Hears : State ρ → Prop := Sound (fun m t => m.test t = true) fun _ => True

theorem hears_alarming : Alarming fun (m : Words ρ) t => m.test t = true :=
  ⟨fun _ _ h => h, fun _ _ _ h => h.test⟩

theorem hears_heralded {s : State ρ} {l : Label ρ} (inv : Hears s) (rule : Rule s l) :
    Heralded (fun m t => m.test t = true) (fun _ => True) s l := by
  intro i c a rest hl hi q t hw hnew
  subst hl
  unfold Rule at rule
  simp only [hi] at rule
  obtain ⟨hrefused, hready⟩ := rule
  by_cases hold : s.words.test t = true
  · exact .inr (.inr hold)
  · obtain hwakes | ⟨hraises, hserved⟩ := a.raises hw hnew hold
    · exact .inl hwakes
    · refine .inr (.inl ⟨trivial, ?_⟩)
      have hsuffix := inv.threads _ (List.mem_of_getElem? hi)
      refine (call_announced hrefused).suffix hsuffix hserved hraises ?_
      cases hbare : c.bare a with
      | false => rfl
      | true => exact absurd (bare_ready hbare hnew hold) (hready hbare)

theorem run_sound {ls : List (Label ρ)} {s : State ρ} (h : run step initial ls = some s)
    (rule : Machine.Admissible step Rule initial ls) : Hears s :=
  Machine.invariant_of_admissible step
    (fun _ _ _ inv rule h => step_sound hears_alarming inv (hears_heralded inv rule) h)
    initial_sound rule h

/-- **No wake-up is lost.** In every run of any number of responses, events, link events,
kicks, probes, recovery commands and flushes in which no command is refused, and no UP, kick
or PERM_FAIL writes over READY: a command that sleeps on a condition that is true has a
thread that is going to wake its queue. -/
theorem run_hears {ls : List (Label ρ)} {s : State ρ} (h : run step initial ls = some s)
    (rule : Machine.Admissible step Rule initial ls) {hd : Handler ρ} (hmem : hd ∈ s.handlers)
    {w : Wait Wq Test} {after : Place ρ} (hpc : hd.pc = .waits w after)
    (hstage : w.stage = .asleep) {t : Test} (ht : t ∈ w.tests)
    (htrue : s.words.test t = true) : ∃ th ∈ s.threads, Called th.rest w.queue := by
  obtain ⟨th, hth, -, hcalled⟩ :=
    ((run_sound h rule).alert hd hmem w after hpc).asleep hstage ht htrue
  exact ⟨th, hth, hcalled⟩

/-- A `DXRT_CMD_NPU_RUN_RESP_V2` that has gone to sleep, and a call that has made its first
access. -/
def sleepThen (c : Call Nat) : List (Label Nat) :=
  .ioctl (.response .runResponseV2 0) 7 :: List.replicate 14 (.handler 0) ++ [.call c, .thread 0]

theorem hears_sleepThen : ∃ s, run step initial (sleepThen .linkDown) = some s ∧
    ∃ th ∈ s.threads, Called th.rest (.response 0) := by
  obtain ⟨s, hs, hd, w, hmem, hpc, hstage, hqueue, ht, htrue⟩ :
      ∃ s, run step initial (sleepThen .linkDown) = some s ∧ ∃ hd w, hd ∈ s.handlers ∧
        hd.pc = .waits w .woken ∧ w.stage = .asleep ∧ w.queue = .response 0 ∧
        Test.devStateErrno ∈ w.tests ∧ s.words.test .devStateErrno = true :=
    ⟨_, rfl, _, _, List.mem_cons_self, rfl, rfl, rfl, by decide, rfl⟩
  have hcalled := run_hears hs (by decide) hmem hpc hstage ht htrue
  rw [hqueue] at hcalled
  exact ⟨s, hs, hcalled⟩

/-- Nobody wakes the command after the TRANSPORT_OK of an UP over READY, or after the last
access of a recovery command that is refused. -/
example : ([.linkUp, .recovery .refused].map fun c =>
    (run step initial (sleepThen c ++ List.replicate (c.accesses.length - 1) (.thread 0))).map
      fun s => (s.handlers.map Handler.asleep, s.threads.map fun th => th.rest.length,
        s.words.test .devStateErrno)) =
      List.replicate 2 (some ([true], [0], true)) := by
  decide

end DxNpuDriver.Rt.Waiters
