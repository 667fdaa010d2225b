import DxNpuDriver.Rt.Readiness

/-! A stale readiness worker (`dxrt_drv_recovery.c`).

A run of the worker captures `recovery_epoch` and compares it again after its waits;
whoever starts a new recovery increments it. The comparison and the writes it guards are
separate accesses, and the two deadlines of `dxrt_wait_fw_reboot_mailbox_cycle` lead to
FW_HANG without another comparison: a recovery that starts in between has its state
overwritten and its `recovering` flag cleared by the run before it.

`undisturbed_run_fresh` says that these gaps are all there is: where no increment falls
between a run's last reading of the epoch and its last write, and the 32-bit counter does
not come round to the captured value, a run that is no longer current writes nothing. -/
namespace DxNpuDriver.Rt.Readiness

/-- The access writes `dev_state`, `recovering`, `recovery_count` or
`recovery_fail_count`. -/
def Effect.publishes : Effect → Bool
  | .setState _ | .setRecovering _ | .incCount | .incFailCount => true
  | _ => false

/-- A step of the worker writes only while the epoch is the one its run has captured, and
has been since. -/
def Fresh (s : State × Watch) : Label → Prop
  | .worker env => ∀ e, effect s.1 (.worker env) = some e → e.publishes = true → s.2.bumps = 0
  | _ => True

/-- The next access of the worker is one of those writes. -/
def Worker.writing : Worker → Bool
  | .incCount _ | .clearFlag _ | .writeReady _ => true
  | .incFailCount _ | .writeHang _ | .hangFlag _ | .permFailWrite _ => true
  | _ => false

/-- The next access of the worker is the first of its writes, or a further one after
`perm_fail_check` has counted. -/
def turns (s : State) (env : Env) : Bool :=
  !s.worker.writing && match recoveryReadyWorkFn s.shared env s.worker with
    | some (_, w) => w.writing
    | none => false

/-- The next access of the worker reads the epoch. -/
def Worker.readsEpoch : Worker → Bool
  | .checkEpoch _ _ => true
  | _ => false

/-- No increment between the last reading of the epoch and the last write: none falls on
a worker that is writing, and a worker turns to its writes only if none has fallen since
its last reading. No reading finds the counter gone round. -/
def Undisturbed (s : State × Watch) : Label → Prop
  | .caller i reset ready =>
    effect s.1 (.caller i reset ready) = some .incEpoch → s.1.worker.writing = false
  | .worker env =>
    (turns s.1 env = true → s.2.late = false) ∧
    (s.1.worker.readsEpoch = true → s.2.bumps % 2 ^ 32 = 0 → s.2.bumps = 0)
  | _ => True

instance (s : State × Watch) (l : Label) : Decidable (Undisturbed s l) :=
  match l with
  | .caller _ _ _ => inferInstanceAs (Decidable (_ → _))
  | .worker _ => inferInstanceAs (Decidable ((_ → _) ∧ (_ → _ → _)))
  | .event _ | .reboot _ | .recover | .workerRun => isTrue trivial

/-! ### What a run knows of the epoch -/

/-- The epoch a run has captured. -/
def Worker.startEpoch : Worker → Option Nat
  | .idle | .readPermFail | .capture => none
  | .checkEpoch e _ | .checkState e _ | .passed e _ | .readReason e | .lockMsg e
  | .unlockMsg e _ | .incCount e | .clearFlag e | .writeReady e | .incFailCount e
  | .writeHang e | .hangFlag e | .permFailCount e | .permFailWrite e => some e

/-- The last reading has found the captured epoch. -/
def Worker.confirmed : Worker → Bool
  | .checkState _ _ | .passed _ _ | .permFailCount _ => true
  | w => w.writing

/-- The watch counts what the epoch has moved by since the capture. -/
structure Counted (s : State × Watch) : Prop where
  bound : s.1.shared.recoveryEpoch < 2 ^ 32
  since : ∀ e, s.1.worker.startEpoch = some e →
    e < 2 ^ 32 ∧ s.1.shared.recoveryEpoch = (e + s.2.bumps) % 2 ^ 32

theorem watchedInitial_counted (n : Nat) : Counted (watchedInitial n) :=
  ⟨Nat.two_pow_pos 32, (by rintro _ ⟨⟩)⟩

/-- A reading that finds the captured epoch has seen a multiple of `2 ^ 32` increments. -/
theorem Counted.bumps_mod {s : State × Watch} (inv : Counted s) {e : Nat}
    (he : s.1.worker.startEpoch = some e) (heq : s.1.shared.recoveryEpoch = e) :
    s.2.bumps % 2 ^ 32 = 0 := by
  obtain ⟨hlt, hsince⟩ := inv.since e he
  omega

/-! ### Steps of the worker -/

@[simp] theorem pingProbe_startEpoch (e : Nat) (env : Env) :
    (pingProbe e env).startEpoch = some e := by
  unfold pingProbe
  split <;> rfl

@[simp] theorem afterCheck_startEpoch (e : Nat) (env : Env) (c : Check) :
    (afterCheck e env c).startEpoch = some e := by
  cases c <;> simp only [afterCheck] <;> repeat' split
  all_goals first | rfl | exact pingProbe_startEpoch e env

@[simp] theorem waitFor_startEpoch (e : Nat) (r : Reason) : (waitFor e r).startEpoch = some e := by
  cases r <;> rfl

theorem gaveUp_startEpoch {e x : Nat} {c : Check} (h : (gaveUp e c).startEpoch = some x) :
    x = e := by
  cases c <;> simp_all [gaveUp, Worker.startEpoch]

/-- A run keeps what it has captured. -/
theorem recoveryReadyWorkFn_startEpoch {m : Shared} {env : Env} {w v : Worker} {e : Effect}
    (h : recoveryReadyWorkFn m env w = some (e, v)) {x : Nat} (hv : v.startEpoch = some x) :
    w.startEpoch = some x ∨ (w = .capture ∧ x = m.recoveryEpoch) := by
  cases w with
  | idle => cases h
  | readPermFail =>
    cases h
    split at hv <;> cases hv
  | capture =>
    cases h
    cases hv
    exact .inr ⟨rfl, rfl⟩
  | checkEpoch y c | checkState y c =>
    cases h
    split at hv
    · exact .inl hv
    · exact .inl (congrArg some (gaveUp_startEpoch hv).symm)
  | passed y c | readReason y =>
    cases h
    simp only [afterCheck_startEpoch, waitFor_startEpoch] at hv
    exact .inl hv
  | permFailCount y =>
    cases h
    split at hv
    · exact .inl hv
    · cases hv
  | writeReady y | permFailWrite y =>
    cases h
    cases hv
  | lockMsg y | unlockMsg y ok | incCount y | clearFlag y | incFailCount y | writeHang y
  | hangFlag y =>
    cases h
    exact .inl hv

/-- The worker does not move the epoch. -/
theorem recoveryReadyWorkFn_epoch {m : Shared} {env : Env} {w v : Worker} {e : Effect}
    (h : recoveryReadyWorkFn m env w = some (e, v)) : e.epoch m = m.recoveryEpoch := by
  cases w <;> cases h <;> rfl

@[simp] theorem gaveUp_confirmed (e : Nat) (c : Check) : (gaveUp e c).confirmed = false := by
  cases c <;> rfl

@[simp] theorem waitFor_confirmed (e : Nat) (r : Reason) : (waitFor e r).confirmed = false := by
  cases r <;> rfl

/-- What has been found is found again only by another reading. -/
theorem recoveryReadyWorkFn_confirmed {m : Shared} {env : Env} {w v : Worker} {e : Effect}
    (h : recoveryReadyWorkFn m env w = some (e, v)) (hv : v.confirmed = true) :
    w.confirmed = true ∨ ∃ c, w = .checkEpoch m.recoveryEpoch c := by
  cases w with
  | idle => cases h
  | readPermFail =>
    cases h
    split at hv <;> cases hv
  | checkEpoch y c =>
    cases h
    split at hv
    case isTrue heq =>
      subst heq
      exact .inr ⟨c, rfl⟩
    case isFalse => simp at hv
  | readReason y =>
    cases h
    simp at hv
  | capture | lockMsg y | unlockMsg y ok =>
    cases h
    cases hv
  | _ => exact .inl rfl

theorem Worker.confirmed_of_writing {w : Worker} (h : w.writing = true) : w.confirmed = true := by
  cases w <;> first | rfl | exact h

/-- The writes are those of the writing places. -/
theorem recoveryReadyWorkFn_publishes {m : Shared} {env : Env} {w v : Worker} {e : Effect}
    (h : recoveryReadyWorkFn m env w = some (e, v)) (he : e.publishes = true) :
    w.writing = true := by
  cases w <;> cases h <;> first | rfl | cases he

/-- What the watch records of a step of the worker. -/
theorem note_worker (s : State) (env : Env) (g : Watch) :
    (note s (.worker env) g).bumps = (if s.worker = .capture then 0 else g.bumps) ∧
    (s.worker.confirmed = true → (note s (.worker env) g).late = g.late) := by
  simp only [note]
  split
  · exact ⟨by simp_all, by simp_all [Worker.confirmed, Worker.writing]⟩
  · exact ⟨by simp_all, by simp_all [Worker.confirmed, Worker.writing]⟩
  · exact ⟨by simp_all, by simp_all⟩
  · split
    · exact ⟨by simp_all, by simp_all⟩
    · exact ⟨by simp_all, by simp_all⟩
  · exact ⟨by simp_all, by simp_all⟩

/-- What the watch records of a step of a caller. -/
theorem note_caller {s : State} {i : Nat} {reset : ResetRet} {ready : Bool} {e : Effect}
    (he : effect s (.caller i reset ready) = some e) (g : Watch) :
    (e = .incEpoch → (note s (.caller i reset ready) g).bumps = g.bumps + 1 ∧
      (note s (.caller i reset ready) g).late = true) ∧
    (e ≠ .incEpoch → (note s (.caller i reset ready) g).bumps = g.bumps ∧
      (note s (.caller i reset ready) g).late = g.late) := by
  simp only [note, he]
  split
  · exact ⟨fun _ => ⟨rfl, rfl⟩, fun h => by simp_all⟩
  · exact ⟨fun h => by simp_all, fun _ => ⟨rfl, rfl⟩⟩
  · exact ⟨fun h => by simp_all, fun _ => ⟨rfl, rfl⟩⟩

theorem worker_counted {s : State} {g : Watch} {env : Env} {e : Effect} {w : Worker} {m : Shared}
    (inv : Counted (s, g)) (hw : recoveryReadyWorkFn s.shared env s.worker = some (e, w))
    (hm : e.apply s.shared = some m) :
    Counted ({s with shared := m, worker := w}, note s (.worker env) g) := by
  obtain ⟨-, hepoch, -⟩ := Effect.apply_words hm
  rw [recoveryReadyWorkFn_epoch hw] at hepoch
  obtain ⟨hbumps, -⟩ := note_worker s env g
  refine ⟨hepoch ▸ inv.bound, fun x hx => ?_⟩
  show x < 2 ^ 32 ∧ m.recoveryEpoch = _
  rw [hepoch, hbumps]
  rcases recoveryReadyWorkFn_startEpoch hw hx with before | ⟨hcap, rfl⟩
  · rw [if_neg (by rintro h; simp [h, Worker.startEpoch] at before)]
    exact inv.since x before
  · rw [if_pos hcap]
    exact ⟨inv.bound, (Nat.mod_eq_of_lt inv.bound).symm⟩

theorem caller_counted {s : State} {g : Watch} {i : Nat} {reset : ResetRet} {ready : Bool}
    {d : Caller} {e : Effect} {m : Shared} (inv : Counted (s, g))
    (he : effect s (.caller i reset ready) = some e) (hm : e.apply s.shared = some m) :
    Counted ({s with shared := m, callers := s.callers.set i d},
      note s (.caller i reset ready) g) := by
  obtain ⟨-, hepoch, -⟩ := Effect.apply_words hm
  obtain ⟨hinc, hother⟩ := note_caller he g
  by_cases hbump : e = .incEpoch
  · obtain ⟨hb, -⟩ := hinc hbump
    subst hbump
    simp only [Effect.epoch] at hepoch
    refine ⟨?_, fun x hx => ?_⟩
    · show m.recoveryEpoch < 2 ^ 32
      omega
    · obtain ⟨hx, hsince⟩ := inv.since x hx
      refine ⟨hx, ?_⟩
      show m.recoveryEpoch = _
      simp only [hb] at hsince ⊢
      omega
  · obtain ⟨hb, -⟩ := hother hbump
    have hepoch : m.recoveryEpoch = s.shared.recoveryEpoch := by
      rw [hepoch]
      cases e <;> first | rfl | exact absurd rfl hbump
    refine ⟨hepoch ▸ inv.bound, fun x hx => ?_⟩
    show x < 2 ^ 32 ∧ m.recoveryEpoch = _
    rw [hepoch, hb]
    exact inv.since x hx

theorem step_counted (s : State × Watch) (l : Label) (t : State × Watch) (inv : Counted s)
    (h : watchedStep s l = some t) : Counted t := by
  obtain ⟨s, g⟩ := s
  obtain ⟨t, g'⟩ := t
  obtain ⟨hstep, rfl⟩ := (Machine.watched_eq_some step note).mp h
  cases step_moved hstep with
  | call _ c hl =>
    rw [note_call hl]
    exact ⟨inv.bound, inv.since⟩
  | caller i reset ready c d e m hi hc he hm => exact caller_counted inv he hm
  | run hidle => exact ⟨inv.bound, (by rintro _ ⟨⟩)⟩
  | worker env e w m hw he hm => exact worker_counted inv hw hm

/-! ### Runs -/

/-- What undisturbed steps keep. -/
structure Traced (s : State × Watch) : Prop where
  counted : Counted s
  confirmed : s.1.worker.confirmed = true → s.2.late = false → s.2.bumps = 0
  writing : s.1.worker.writing = true → s.2.bumps = 0

theorem watchedInitial_traced (n : Nat) : Traced (watchedInitial n) :=
  ⟨watchedInitial_counted n, (by rintro ⟨⟩), (by rintro ⟨⟩)⟩

/-- A confirmed place comes from another one, or from a reading that has found the
epoch. -/
theorem worker_confirmed {s : State} {g : Watch} {env : Env} {e : Effect} {w : Worker}
    (inv : Traced (s, g)) (rule : Undisturbed (s, g) (.worker env))
    (hw : recoveryReadyWorkFn s.shared env s.worker = some (e, w)) (hc : w.confirmed = true)
    (hl : (note s (.worker env) g).late = false) : (note s (.worker env) g).bumps = 0 := by
  obtain ⟨hbumps, hlate⟩ := note_worker s env g
  rcases recoveryReadyWorkFn_confirmed hw hc with before | ⟨c, hcheck⟩
  · have hne : s.worker ≠ .capture := by
      intro h
      simp [h, Worker.confirmed, Worker.writing] at before
    rw [hbumps, if_neg hne]
    exact inv.confirmed before (hlate before ▸ hl)
  · rw [hbumps, if_neg (by simp [hcheck])]
    have round : g.bumps % 2 ^ 32 = 0 :=
      inv.counted.bumps_mod (e := s.shared.recoveryEpoch) (by rw [hcheck]; rfl) rfl
    exact rule.2 (by rw [hcheck]; rfl) round

theorem worker_writing {s : State} {g : Watch} {env : Env} {e : Effect} {w : Worker}
    (inv : Traced (s, g)) (rule : Undisturbed (s, g) (.worker env))
    (hw : recoveryReadyWorkFn s.shared env s.worker = some (e, w)) (hwriting : w.writing = true) :
    (note s (.worker env) g).bumps = 0 := by
  obtain ⟨hbumps, hlate⟩ := note_worker s env g
  by_cases before : s.worker.writing = true
  · have hne : s.worker ≠ .capture := by
      intro h
      simp [h, Worker.writing] at before
    rw [hbumps, if_neg hne]
    exact inv.writing before
  · -- the turn to the writes: nothing has moved since the last reading
    have hturns : turns s env = true := by
      simp [turns, hw, Bool.eq_false_iff.mpr before, hwriting]
    have hl := rule.1 hturns
    have hc := Worker.confirmed_of_writing hwriting
    refine worker_confirmed inv rule hw hc ?_
    rcases recoveryReadyWorkFn_confirmed hw hc with hbefore | ⟨c, hcheck⟩
    · exact (hlate hbefore).trans hl
    · simp [note, hcheck]

theorem step_traced (s : State × Watch) (l : Label) (t : State × Watch) (inv : Traced s)
    (rule : Undisturbed s l) (h : watchedStep s l = some t) : Traced t := by
  have counted := step_counted s l t inv.counted h
  obtain ⟨s, g⟩ := s
  obtain ⟨t, g'⟩ := t
  obtain ⟨hstep, rfl⟩ := (Machine.watched_eq_some step note).mp h
  cases step_moved hstep with
  | call _ c hl =>
    rw [note_call hl] at counted ⊢
    exact ⟨counted, inv.confirmed, inv.writing⟩
  | caller i reset ready c d e m hi hc he hm =>
    obtain ⟨hinc, hother⟩ := note_caller he g
    by_cases hbump : e = .incEpoch
    · obtain ⟨-, hl⟩ := hinc hbump
      have hnot : s.worker.writing = false := rule (hbump ▸ he)
      refine ⟨counted, fun _ h => ?_, fun h => ?_⟩
      · rw [hl] at h
        cases h
      · rw [show s.worker.writing = true from h] at hnot
        cases hnot
    · obtain ⟨hb, hl⟩ := hother hbump
      refine ⟨counted, fun hc h => ?_, fun h => ?_⟩
      · rw [hb]
        exact inv.confirmed hc (hl ▸ h)
      · rw [hb]
        exact inv.writing h
  | run hidle => exact ⟨counted, (by rintro ⟨⟩), (by rintro ⟨⟩)⟩
  | worker env e w m hw he hm =>
    exact ⟨counted, worker_confirmed inv rule hw, worker_writing inv rule hw⟩

theorem Traced.fresh {s : State × Watch} {l : Label} (inv : Traced s) : Fresh s l := by
  cases l with
  | worker env =>
    intro e he hp
    simp only [effect, Option.map_eq_some_iff] at he
    obtain ⟨⟨e', w⟩, hw, rfl⟩ := he
    exact inv.writing (recoveryReadyWorkFn_publishes hw hp)
  | _ => trivial

/-- **A stale worker writes nothing.** In every run of any number of link events, kicks and
recovery commands in which no increment falls between a worker's last reading of the epoch
and its last write, and none of its readings finds the counter gone round, a worker run
writes only while the epoch it has captured stands. -/
theorem undisturbed_run_fresh {n : Nat} {ls : List Label}
    (rule : Machine.Admissible watchedStep Undisturbed (watchedInitial n) ls) :
    Machine.Admissible watchedStep Fresh (watchedInitial n) ls :=
  Machine.Admissible.imp watchedStep step_traced (fun _ _ inv _ => inv.fresh)
    (watchedInitial_traced n) rule

/-- The link goes and comes back, the worker finds the firmware alive and publishes READY;
a second DOWN comes while the next run waits. -/
def twoFlaps : List Label :=
  .event .down :: calls 0 6 ++ .event .up :: calls 1 3 ++ works answering 29 ++
    .event .up :: calls 2 3 ++ works answering 6 ++ .event .down :: calls 3 6 ++
    [.worker answering]

/-- The second run is stale where the DOWN has moved the epoch, and ends without a write. -/
theorem fresh_twoFlaps :
    Machine.Admissible watchedStep Fresh (watchedInitial 5) twoFlaps ∧
      (Machine.run watchedStep (watchedInitial 5) twoFlaps).map (fun s =>
        (s.1.shared.devState, s.1.shared.recoveryCount, s.1.worker, s.2.bumps)) =
        some (.recovering, 1, .idle, 1) :=
  ⟨undisturbed_run_fresh (by decide), by decide⟩

/-- A run has made its last check and counted the recovery; a DOWN then blocks the device
and moves the epoch, and the run clears its flag. -/
def overtaken : List Label :=
  .event .up :: calls 0 3 ++ works answering 27 ++ .event .down :: calls 1 5

theorem stale_worker_writes :
    ¬ ∀ n ls, Machine.Admissible watchedStep Fresh (watchedInitial n) ls := by
  intro h
  have fresh := (h 5 (overtaken ++ [.worker answering])).middle watchedStep overtaken rfl
  have := fresh (.setRecovering false) (by decide) rfl
  revert this
  decide

end DxNpuDriver.Rt.Readiness
