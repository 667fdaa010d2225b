import DxNpuDriver.Rt.Readiness

/-! PERM_FAIL and who leaves it (`dxrt_drv_recovery.c`).

`perm_fail_check` enters PERM_FAIL, and only an explicit recovery command is meant to
leave it. A link event and a kick ask for PERM_FAIL once, at their start, and write
`dev_state` later: one that has asked before the worker enters PERM_FAIL overwrites it.
`alone_run_held` says that this is the only way out. -/
namespace DxNpuDriver.Rt.Readiness

/-- The call has found `dev_state` other than PERM_FAIL and has still to write it. -/
def Caller.armed : Caller → Bool
  | .notify .downState | .notify .upState => true
  | .kick _ .state | .kick _ .reason | .kick _ .flag | .kick _ .epoch | .kick _ .cancel
  | .kick _ .transportOk => true
  | _ => false

/-- The next access of the worker enters PERM_FAIL. -/
def Worker.entersPermFail : Worker → Bool
  | .permFailWrite _ => true
  | _ => false

/-- PERM_FAIL stays until a step of `dxrt_recovery_device`. -/
def Held (s : State) (l : Label) : Prop :=
  s.shared.devState = .permFail → ofCommand s l = false →
    ∀ t, step s l = some t → t.shared.devState = .permFail

/-- PERM_FAIL is entered only while no link event and no kick is armed. -/
def Alone (s : State) : Label → Prop
  | .worker _ => s.worker.entersPermFail = true → ∀ c ∈ s.callers, c.armed = false
  | _ => True

instance (s : State) (l : Label) : Decidable (Alone s l) :=
  match l with
  | .worker _ => inferInstanceAs (Decidable (_ → ∀ c ∈ _, _))
  | .event _ | .reboot _ | .recover | .caller _ _ _ | .workerRun => isTrue trivial

/-- In PERM_FAIL nobody but a command is about to write `dev_state`. -/
structure Sealed (s : State) : Prop where
  callers : s.shared.devState = .permFail → ∀ c ∈ s.callers, c.armed = false
  worker : s.shared.devState = .permFail → s.worker = .idle ∨ s.worker = .readPermFail

theorem initial_sealed (n : Nat) : Sealed (initial n) := ⟨(by rintro ⟨⟩), (by rintro ⟨⟩)⟩

/-! ### Steps -/

/-- A call arms itself only where it reads something else than PERM_FAIL. -/
theorem callerStep_armed {m : Shared} {reset : ResetRet} {ready : Bool} {c d : Caller} {e : Effect}
    (h : callerStep m reset ready c = some (e, d)) (hm : m.devState = .permFail)
    (hc : c.armed = false) : d.armed = false := by
  cases c with
  | notify p =>
    cases p <;> simp_all [callerStep, linkEventNotify, Caller.armed] <;> grind [Caller.armed]
  | kick r p =>
    cases p <;> simp_all [callerStep, kickFwRebootRecovery, Caller.armed] <;> grind [Caller.armed]
  | command p =>
    simp only [callerStep, Option.map_eq_some_iff] at h
    obtain ⟨⟨e', q⟩, -, h⟩ := h
    cases h
    rfl

/-- Only an armed call and a command write `dev_state`. -/
theorem callerStep_setState {m : Shared} {reset : ResetRet} {ready : Bool} {c d : Caller}
    {e : Effect} (h : callerStep m reset ready c = some (e, d)) (hc : c.armed = false)
    (hp : ∀ p, c ≠ .command p) : e.devState m = m.devState := by
  cases c with
  | notify p =>
    cases p <;> simp_all [callerStep, linkEventNotify, Caller.armed] <;> grind [Effect.devState]
  | kick r p =>
    cases p <;> simp_all [callerStep, kickFwRebootRecovery, Caller.armed] <;> grind [Effect.devState]
  | command p => exact absurd rfl (hp p)

/-- No call enters PERM_FAIL. -/
theorem callerStep_permFail {m : Shared} {reset : ResetRet} {ready : Bool} {c d : Caller}
    {e : Effect} (h : callerStep m reset ready c = some (e, d)) (he : e.devState m = .permFail) :
    m.devState = .permFail := by
  cases c with
  | notify p => cases p <;> simp_all [callerStep, linkEventNotify] <;> grind [Effect.devState]
  | kick r p => cases p <;> simp_all [callerStep, kickFwRebootRecovery] <;> grind [Effect.devState]
  | command p => cases p <;> simp_all [callerStep, recoveryDevice] <;> grind [Effect.devState]

/-- The worker enters PERM_FAIL at one place, and its run is then over. -/
theorem recoveryReadyWorkFn_permFail {m : Shared} {env : Env} {w v : Worker} {e : Effect}
    (h : recoveryReadyWorkFn m env w = some (e, v)) (he : e.devState m = .permFail) :
    m.devState = .permFail ∨ (w.entersPermFail = true ∧ v = .idle) := by
  cases w <;> simp_all [recoveryReadyWorkFn, Worker.entersPermFail] <;> grind [Effect.devState]

theorem step_sealed (s : State) (l : Label) (t : State) (inv : Sealed s) (rule : Alone s l)
    (h : step s l = some t) : Sealed t := by
  cases step_moved h with
  | call _ c hl =>
    refine ⟨fun hp b hb => ?_, inv.worker⟩
    rcases List.mem_append.mp hb with hb | hb
    · exact inv.callers hp b hb
    · rw [List.mem_singleton.mp hb]
      exact Label.call_start (p := fun c => c.armed = false) hl (fun _ => rfl) (fun _ => rfl) rfl
  | caller i reset ready c d e m hi hc he hm =>
    obtain ⟨hstate, -, -⟩ := Effect.apply_words hm
    have before : m.devState = .permFail → s.shared.devState = .permFail :=
      fun hp => callerStep_permFail hc (hstate ▸ hp)
    refine ⟨fun hp b hb => ?_, fun hp => inv.worker (before hp)⟩
    have unarmed := inv.callers (before hp)
    have moved := callerStep_armed hc (before hp) (unarmed c (List.mem_of_getElem? hi))
    exact Machine.forall_mem_set unarmed (fun _ => id) moved b hb
  | run hidle => exact ⟨inv.callers, fun _ => .inr rfl⟩
  | worker env e w m hw he hm =>
    obtain ⟨hstate, -, -⟩ := Effect.apply_words hm
    constructor
    · intro hp
      rcases recoveryReadyWorkFn_permFail hw (hstate ▸ hp) with hp | ⟨enters, -⟩
      · exact inv.callers hp
      · exact rule enters
    · intro hp
      rcases recoveryReadyWorkFn_permFail hw (hstate ▸ hp) with hp | ⟨-, rfl⟩
      · -- a run that finds PERM_FAIL ends there
        rcases inv.worker hp with hidle | hread
        · simp [hidle, recoveryReadyWorkFn] at hw
        · simp only [hread, recoveryReadyWorkFn, hp, if_true, Option.some.injEq,
            Prod.mk.injEq] at hw
          exact .inl hw.2.symm
      · exact .inl rfl

/-- Where nobody is about to write, only a command leaves PERM_FAIL. -/
theorem Sealed.held {s : State} {l : Label} (inv : Sealed s) : Held s l := by
  intro hp hl t h
  cases step_moved h with
  | call => exact hp
  | caller i reset ready c d e m hi hc he hm =>
    obtain ⟨hstate, -, -⟩ := Effect.apply_words hm
    have notCommand : ∀ p, c ≠ .command p := by
      rintro p rfl
      simp [ofCommand, hi] at hl
    have unarmed := inv.callers hp c (List.mem_of_getElem? hi)
    rw [← hp, ← callerStep_setState hc unarmed notCommand]
    exact hstate
  | run => exact hp
  | worker env e w m hw he hm =>
    obtain ⟨hstate, -, -⟩ := Effect.apply_words hm
    show m.devState = .permFail
    rcases inv.worker hp with hidle | hread
    · simp [hidle, recoveryReadyWorkFn] at hw
    · simp only [hread, recoveryReadyWorkFn, hp, if_true, Option.some.injEq,
        Prod.mk.injEq] at hw
      rw [hstate, ← hw.1]
      exact hp

/-! ### Runs -/

/-- **PERM_FAIL is left by a command only.** In every run in which the worker never enters
PERM_FAIL under an armed link event or kick, every step from PERM_FAIL keeps it, unless it
is a step of a recovery command. -/
theorem alone_run_held {n : Nat} {ls : List Label}
    (rule : Machine.Admissible step Alone (initial n) ls) :
    Machine.Admissible step Held (initial n) ls :=
  Machine.Admissible.imp step step_sealed (fun _ _ inv _ => inv.held) (initial_sealed n) rule

/-- The link comes back and the worker gives the firmware up, with caller `i` as the UP
event; the last of `k` accesses is the end of the run. -/
def hangRun (i k : Nat) : List Label :=
  .event .up :: calls i 3 ++ works silent k

/-- With the default limit of five, four runs that give up; the fifth stops before it
enters PERM_FAIL. -/
def fiveHangs : List Label :=
  (List.range 4).flatMap (hangRun · 12) ++ hangRun 4 12

/-- The fifth failure enters PERM_FAIL and a DOWN that comes afterwards is ignored. -/
theorem held_after_fiveHangs :
    Machine.Admissible step Held (initial 5)
        (fiveHangs ++ .worker silent :: .event .down :: calls 5 1) ∧
      (Machine.run step (initial 5)
        (fiveHangs ++ .worker silent :: .event .down :: calls 5 1)).map
          (·.shared.devState) = some .permFail :=
  ⟨alone_run_held (by decide), by decide⟩

/-- The same with the DOWN between its question and its write: PERM_FAIL becomes
RECOVERING. -/
theorem permFail_overwritten :
    ¬ ∀ n ls, Machine.Admissible step Held (initial n) ls := by
  intro h
  have held := (h 5 (fiveHangs ++ [.event .down, .caller 5 .ok true, .worker silent] ++
    [.caller 5 .ok true])).middle step
      (fiveHangs ++ [.event .down, .caller 5 .ok true, .worker silent]) rfl
  have := held (by decide) (by decide) _ rfl
  revert this
  decide

end DxNpuDriver.Rt.Readiness
