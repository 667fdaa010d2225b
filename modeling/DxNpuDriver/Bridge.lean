import DxNpuDriver.Pcie.Transport

/-! The transport and the RT module together (`dx_link_health.c`, `dw-edma-pcie.c`,
`dx_sgdma.c`, `dxrt_drv_recovery.c`, `dxrt_drv_message.c`).

The transport tells the RT module of a link that goes and comes back by calling
`dxrt_link_event_notify` in its own thread; a recovery command of the RT module asks the
transport for a DMA reset and, if that is refused with `-EAGAIN`, leaves the device in
RECOVERING "so the link-event bridge can drive the rest". It is refused, too, while
`background_recovery_paused` is set, and `dx_dma_pcie_reset_done` delivers its UP before
it clears that: a command in between waits for an event that has come already, and
everything else refuses to touch a device in RECOVERING.

`attended_run` says when somebody is still there to leave RECOVERING and TRANSPORT_OK. -/
namespace DxNpuDriver.Bridge
open Pcie (Op Words DevState LinkState Code access)
open Rt.Recovery (Event)
open Rt.Readiness (ResetRet Shared Effect Notify Command Worker Env linkEventNotify recoveryDevice
  recoveryReadyWorkFn)

/-- A call into the transport, with where `dxrt_link_event_notify` stands while it delivers
an event; a recovery command, with what its DMA reset has still to do. -/
inductive Thread where
  | transport (call : Pcie.Call) (prog : Code ResetRet) (notify : Option Notify)
  | command (place : Command) (reset : Code ResetRet)

structure State where
  words : Words
  shared : Shared
  worker : Worker
  threads : List Thread

def initial (enabled : Bool) (maxRetries : Nat) : State :=
  ⟨.probed enabled, .init maxRetries, .idle, []⟩

/-- What the transport sees of itself. -/
def State.transport (s : State) : Pcie.State :=
  ⟨s.words, s.threads.filterMap fun
    | .transport c p _ => some ⟨c, p⟩
    | .command _ _ => none⟩

/-- A step of a transport thread. At a delivery it goes through `dxrt_link_event_notify`
before it goes on. -/
def transportStep (s : State) (answer : Bool) (c : Pcie.Call) (prog : Code ResetRet) :
    Option Notify → Option (Words × Shared × Thread)
  | some .returned =>
    match prog with
    | .op (.notify _) k => some (s.words, s.shared, .transport c (k ()) none)
    | _ => none
  | some p => do
    let (e, q) ← linkEventNotify s.shared p
    let m ← e.apply s.shared
    some (s.words, m, .transport c prog (some q))
  | none =>
    match prog with
    | .ret _ => none
    | .op (.notify ev) _ => some (s.words, s.shared, .transport c prog (some (.read ev)))
    | .op o k =>
      (Pcie.exec s.transport answer o).map fun (v, w) => (w, s.shared, .transport c (k v) none)

/-- A step of a recovery command; `dx_pcie_reset_dma_channels` is a part of it. -/
def commandStep (s : State) (answer ready : Bool) (reset : Code ResetRet) :
    Command → Option (Words × Shared × Thread)
  | .resetDma =>
    match reset with
    | .ret r => (recoveryDevice s.shared r ready .resetDma).map fun (_, q) =>
        (s.words, s.shared, .command q reset)
    | .op o k => (Pcie.exec s.transport answer o).map fun (v, w) =>
        (w, s.shared, .command .resetDma (k v))
  | p => do
    let (e, q) ← recoveryDevice s.shared .ok ready p
    let m ← e.apply s.shared
    some (s.words, m, .command q reset)

inductive Label where
  | start (c : Pcie.Call)
  | recover
  | go (i : Nat) (answer ready : Bool)
  | workerRun
  | worker (env : Env)
  deriving DecidableEq

def threadStep (s : State) (answer ready : Bool) : Thread → Option (Words × Shared × Thread)
  | .transport c prog n => transportStep s answer c prog n
  | .command p reset => commandStep s answer ready reset p

def step (s : State) : Label → Option State
  -- a DMA reset is part of a command
  | .start .resetDmaChannels => none
  | .start c => (Pcie.startWords s.transport c).map fun w =>
      {s with words := w, threads := s.threads ++ [.transport c c.code none]}
  | .recover => some {s with threads := s.threads ++ [.command .gate Pcie.resetDmaChannels]}
  | .go i answer ready => do
    let t ← s.threads[i]?
    let (w, m, u) ← threadStep s answer ready t
    some {s with words := w, shared := m, threads := s.threads.set i u}
  | .workerRun =>
    match s.worker with
    | .idle =>
      if s.shared.pending then
        some {s with shared := {s.shared with pending := false}, worker := .readPermFail}
      else none
    | _ => none
  | .worker env => do
    let (e, v) ← recoveryReadyWorkFn s.shared env s.worker
    let m ← e.apply s.shared
    some {s with shared := m, worker := v}

/-! ### Who attends -/

def isNotify : Op → Bool
  | .notify _ => true
  | _ => false

/-- The thread delivers an event, or is bound to. -/
def Thread.delivering : Thread → Bool
  | .transport _ prog _ => prog.must (A := access) isNotify
  | .command _ _ => false

def Thread.executing : Thread → Bool
  | .transport _ _ _ => false
  | .command p _ => decide (p ≠ .returned)

/-- With a transport that is up, nothing to be delivered, no command and no work, the
device is not in a state that only they leave. -/
def Attended (s : State) : Prop :=
  s.words.devState = .live → s.words.linkState = .up → s.words.backgroundRecoveryPaused = false →
  (∀ t ∈ s.threads, t.delivering = false) → (∀ t ∈ s.threads, t.executing = false) →
  s.shared.pending = false → s.worker = .idle → s.shared.devState.inTransition = false

/-- The next access of the thread to the words of the transport. -/
def Thread.next : Thread → Option Op
  | .transport _ prog none => prog.head
  | .command .resetDma reset => reset.head
  | _ => none

/-- `dx_pcie_reset_dma_channels` has come to return `-EAGAIN`. -/
def refusing (reset : Code ResetRet) : Bool := reset.always fun r => decide (r = .again)

/-- A quiesce or an UP that is still to come: the thread is about to write AER_RESET, or
has not yet written TRANSPORT_OK for its UP. -/
def Thread.coming : Thread → Bool
  | .transport _ prog none =>
    match prog.head with
    | some (.setDev .aerReset _) => true
    | some (.notify .up) => true
    | _ => false
  | .transport _ _ (some (.read .up)) | .transport _ _ (some .upState) => true
  | _ => false

/-- An UP that has still to schedule the readiness work. -/
def Thread.scheduling : Thread → Bool
  | .transport _ _ (some .upSchedule) => true
  | _ => false

/-- A command that has written RECOVERING and writes the state it ends in. -/
def Thread.commanding : Thread → Bool
  | .command .resetDma reset => !refusing reset
  | .command p _ =>
    match p with
    | .gate | .lock | .recheck | .state | .unlock | .returned => false
    | _ => true
  | _ => false

/-- A run that has still to decide, on the epoch that is current, or has decided. -/
def serving (epoch : Nat) : Worker → Bool
  | .readPermFail | .capture | .incCount _ | .clearFlag _ | .writeReady _ | .incFailCount _
  | .writeHang _ => true
  | .checkEpoch e _ | .checkState e _ | .passed e _ | .readReason e | .lockMsg e
  | .unlockMsg e _ => decide (e = epoch)
  | .idle | .hangFlag _ | .permFailCount _ | .permFailWrite _ => false

/-- The readiness work is queued, running or about to be scheduled. -/
def Served (s : State) : Prop :=
  s.shared.pending = true ∨ serving s.shared.recoveryEpoch s.worker = true ∨
    ∃ t ∈ s.threads, t.scheduling = true

/-- The link-event bridge drives the rest. -/
def Carried (s : State) : Prop :=
  (∃ t ∈ s.threads, t.coming = true) ∨ (s.shared.devState = .transportOk ∧ Served s)

/-- Somebody is left to leave RECOVERING and TRANSPORT_OK. -/
def Covered (s : State) : Prop :=
  s.shared.devState.inTransition = true →
    s.words.devState ≠ .live ∨ Carried s ∨ ∃ t ∈ s.threads, t.commanding = true

/-! ### The rule -/

/-- A DMA reset that finds the link DOWN or the recovery paused, and gives up. -/
def Thread.refused (w : Words) : Thread → Bool
  | .command .resetDma reset =>
    match reset.head with
    | some .readLink => decide (w.linkState = .down)
    | some .readPaused => w.backgroundRecoveryPaused
    | _ => false
  | _ => false

/-- A DOWN event about to write RECOVERING. -/
def Thread.takesDown : Thread → Bool
  | .transport _ _ (some .downState) => true
  | _ => false

/-- A DOWN event about to end the readiness work: by the epoch, or by `cancel_work`. -/
def Thread.endsWork : Thread → Bool
  | .transport _ _ (some .downEpoch) | .transport _ _ (some .downCancel) => true
  | _ => false

/-- Whoever takes the device out of another's hands leaves somebody who leads it on: a
refused DMA reset; a DOWN that writes RECOVERING; a DOWN that ends the readiness work of
a device in TRANSPORT_OK; and `dx_dma_pcie_error_resume`, which writes LIVE with no UP. -/
structure HandsOn (s : State) (t : Thread) : Prop where
  refused : t.refused s.words = true → s.shared.devState.inTransition = true →
    s.words.devState ≠ .live ∨ Carried s
  takesDown : t.takesDown = true →
    s.words.devState ≠ .live ∨ ∃ u ∈ s.threads, (u.coming || u.commanding) = true
  endsWork : t.endsWork = true → s.shared.devState = .transportOk →
    s.words.devState ≠ .live ∨
      ∃ u ∈ s.threads, (u.coming || u.commanding || u.scheduling) = true
  resumes : t.next = some (.setDev .live .errorResume) → s.shared.devState.inTransition = true →
    Carried s ∨ ∃ u ∈ s.threads, u.commanding = true

/-- The rule on steps: the thread that moves hands on. -/
def HandedOn (s : State) : Label → Prop
  | .go i _ _ => ∀ t, s.threads[i]? = some t → HandsOn s t
  | _ => True

instance (s : State) : Decidable (Served s) := inferInstanceAs (Decidable (_ ∨ _))

instance (s : State) : Decidable (Carried s) := inferInstanceAs (Decidable (_ ∨ _))

instance (s : State) (t : Thread) : Decidable (HandsOn s t) :=
  decidable_of_iff
    ((t.refused s.words = true → s.shared.devState.inTransition = true →
      s.words.devState ≠ .live ∨ Carried s) ∧
    (t.takesDown = true →
      s.words.devState ≠ .live ∨ ∃ u ∈ s.threads, (u.coming || u.commanding) = true) ∧
    (t.endsWork = true → s.shared.devState = .transportOk → s.words.devState ≠ .live ∨
      ∃ u ∈ s.threads, (u.coming || u.commanding || u.scheduling) = true) ∧
    (t.next = some (.setDev .live .errorResume) → s.shared.devState.inTransition = true →
      Carried s ∨ ∃ u ∈ s.threads, u.commanding = true))
    ⟨fun h => ⟨h.1, h.2.1, h.2.2.1, h.2.2.2⟩, fun h => ⟨h.1, h.2, h.3, h.4⟩⟩

instance (s : State) (l : Label) : Decidable (HandedOn s l) :=
  match l with
  | .go i _ _ =>
    match h : s.threads[i]? with
    | none => isTrue fun _ ht => nomatch h.symm.trans ht
    | some t => decidable_of_iff (HandsOn s t)
      ⟨fun handsOn _ hu => Option.some.inj (h.symm.trans hu) ▸ handsOn, fun all => all t h⟩
  | .start _ | .recover | .workerRun | .worker _ => isTrue trivial

/-! ### The shape of the threads -/

/-- How the accesses of a call of the transport follow each other: AER_RESET is followed by
an event, LIVE in a reinit by its UP, and only a reinit and an error resume write LIVE. -/
def callFits (o : Op) (_ : o.Val) (p : Code ResetRet) : Bool :=
  (match p.head with
    | some (.setDev .aerReset _) => p.must (A := access) isNotify
    | _ => true) &&
  (match o with
    | .setDev .live .fullReinit => decide (p.head = some (.notify .up))
    | .setDev .live .errorResume => true
    | .setDev .live _ => false
    | _ => true)

/-- A DMA reset comes to `-EAGAIN` by one of three answers only; before it returns it may
have to unlock. -/
def resetFits : (o : Op) → o.Val → Code ResetRet → Bool
  | .readLink, v, p => !refusing p || decide (v = .down)
  | .readDev, v, p => !refusing p || decide (v = .aerReset)
  | .readPaused, v, p => !refusing p || v
  | .unlockWr, _, _ => true
  | _, _, p => !refusing p

/-- The command has its DMA reset ahead of it. -/
def ahead : Command → Bool
  | .gate | .lock | .recheck | .state | .reason | .flag | .epoch => true
  | _ => false

def Thread.Shaped : Thread → Prop
  | .transport _ prog n =>
    prog.every (A := access) callFits = true ∧
    (∀ site, prog.head = some (.setDev .aerReset site) → prog.must (A := access) isNotify = true) ∧
    (n ≠ none → prog.must (A := access) isNotify = true)
  | .command p reset =>
    reset.every (A := access) resetFits = true ∧ (ahead p = true → refusing reset = false)

theorem call_shaped {c : Pcie.Call} (hc : c ≠ .resetDmaChannels) :
    (Thread.transport c c.code none).Shaped := by
  refine ⟨?_, ?_, fun h => absurd rfl h⟩
  · cases c with
    | resetDmaChannels => exact absurd rfl hc
    | healthSetEnabled b | errorDetected b => cases b <;> decide
    | _ => decide
  · intro site h
    cases c with
    | healthSetEnabled b | errorDetected b => cases b <;> cases h
    | _ => cases h

theorem command_shaped : (Thread.command .gate Pcie.resetDmaChannels).Shaped :=
  ⟨by decide, fun _ => by decide⟩

/-! ### What a step can do -/

/-- What a step of a thread can be. -/
inductive Went (s : State) (answer ready : Bool) : Thread → Words → Shared → Thread → Prop
  | access (c : Pcie.Call) (o : Op) (k : o.Val → Code ResetRet) (v : o.Val) (w : Words)
      (ho : isNotify o = false) (hexec : Pcie.exec s.transport answer o = some (v, w)) :
      Went s answer ready (.transport c (.op (A := access) o k) none) w s.shared
        (.transport c (k v) none)
  | deliver (c : Pcie.Call) (ev : Event) (k : Unit → Code ResetRet) :
      Went s answer ready (.transport c (.op (A := access) (.notify ev) k) none) s.words s.shared
        (.transport c (.op (A := access) (.notify ev) k) (some (.read ev)))
  | event (c : Pcie.Call) (prog : Code ResetRet) (p q : Notify) (e : Effect) (m : Shared)
      (hp : linkEventNotify s.shared p = some (e, q)) (hm : e.apply s.shared = some m) :
      Went s answer ready (.transport c prog (some p)) s.words m (.transport c prog (some q))
  | delivered (c : Pcie.Call) (ev : Event) (k : Unit → Code ResetRet) :
      Went s answer ready (.transport c (.op (A := access) (.notify ev) k) (some .returned))
        s.words s.shared (.transport c (k ()) none)
  | reset (o : Op) (k : o.Val → Code ResetRet) (v : o.Val) (w : Words)
      (hexec : Pcie.exec s.transport answer o = some (v, w)) :
      Went s answer ready (.command .resetDma (.op (A := access) o k)) w s.shared
        (.command .resetDma (k v))
  | outcome (r : ResetRet) (e : Effect) (q : Command)
      (hp : recoveryDevice s.shared r ready .resetDma = some (e, q)) :
      Went s answer ready (.command .resetDma (.ret r)) s.words s.shared (.command q (.ret r))
  | command (p q : Command) (reset : Code ResetRet) (e : Effect) (m : Shared) (hne : p ≠ .resetDma)
      (hp : recoveryDevice s.shared .ok ready p = some (e, q)) (hm : e.apply s.shared = some m) :
      Went s answer ready (.command p reset) s.words m (.command q reset)

theorem transportStep_went {s : State} {answer ready : Bool} {c : Pcie.Call} {prog : Code ResetRet}
    {n : Option Notify} {w : Words} {m : Shared} {u : Thread}
    (h : transportStep s answer c prog n = some (w, m, u)) :
    Went s answer ready (.transport c prog n) w m u := by
  cases n with
  | none =>
    cases prog with
    | ret r => cases h
    | op o k =>
      cases o with
      | notify ev =>
        cases h
        exact .deliver c ev k
      | _ =>
        simp only [transportStep, Option.map_eq_some_iff] at h
        obtain ⟨⟨v, w'⟩, hexec, heq⟩ := h
        cases heq
        exact .access c _ k v w' rfl hexec
  | some p =>
    cases p with
    | returned =>
      simp only [transportStep] at h
      split at h
      · cases h
        exact .delivered c _ _
      · cases h
    | _ =>
      simp only [transportStep, Option.bind_eq_bind, Option.bind_eq_some_iff] at h
      obtain ⟨⟨e, q⟩, hp, m', hm, heq⟩ := h
      cases heq
      exact .event c prog _ q e _ hp hm

theorem commandStep_went {s : State} {answer ready : Bool} {reset : Code ResetRet} {p : Command}
    {w : Words} {m : Shared} {u : Thread}
    (h : commandStep s answer ready reset p = some (w, m, u)) :
    Went s answer ready (.command p reset) w m u := by
  cases p with
  | resetDma =>
    cases reset with
    | ret r =>
      simp only [commandStep, Option.map_eq_some_iff] at h
      obtain ⟨⟨e, q⟩, hp, heq⟩ := h
      cases heq
      exact .outcome r e q hp
    | op o k =>
      simp only [commandStep, Option.map_eq_some_iff] at h
      obtain ⟨⟨v, w'⟩, hexec, heq⟩ := h
      cases heq
      exact .reset o k v w' hexec
  | _ =>
    simp only [commandStep, Option.bind_eq_bind, Option.bind_eq_some_iff] at h
    obtain ⟨⟨e, q⟩, hp, m', hm, heq⟩ := h
    cases heq
    exact .command _ q reset e _ (by intro h; cases h) hp hm

/-- A step starts a call or a command, moves a thread, starts the worker or moves it. -/
inductive Moved (s : State) : Label → State → Prop
  | start (c : Pcie.Call) (w : Words) (hc : c ≠ .resetDmaChannels)
      (hw : Pcie.startWords s.transport c = some w) :
      Moved s (.start c) {s with words := w, threads := s.threads ++ [.transport c c.code none]}
  | recover :
      Moved s .recover {s with threads := s.threads ++ [.command .gate Pcie.resetDmaChannels]}
  | go (i : Nat) (answer ready : Bool) (t u : Thread) (w : Words) (m : Shared)
      (hi : s.threads[i]? = some t) (went : Went s answer ready t w m u) :
      Moved s (.go i answer ready) {s with words := w, shared := m, threads := s.threads.set i u}
  | run (hidle : s.worker = .idle) (hpending : s.shared.pending = true) :
      Moved s .workerRun {s with shared := {s.shared with pending := false}, worker := .readPermFail}
  | worker (env : Env) (e : Effect) (v : Worker) (m : Shared)
      (hv : recoveryReadyWorkFn s.shared env s.worker = some (e, v))
      (hm : e.apply s.shared = some m) :
      Moved s (.worker env) {s with shared := m, worker := v}

theorem step_moved {s t : State} {l : Label} (h : step s l = some t) : Moved s l t := by
  cases l with
  | start c =>
    by_cases hc : c = .resetDmaChannels
    · subst hc
      cases h
    · have hw : ∃ w, Pcie.startWords s.transport c = some w ∧
          {s with words := w, threads := s.threads ++ [.transport c c.code none]} = t := by
        cases c with
        | resetDmaChannels => exact absurd rfl hc
        | _ => exact Option.map_eq_some_iff.mp h
      obtain ⟨w, hw, rfl⟩ := hw
      exact .start c w hc hw
  | recover =>
    cases h
    exact .recover
  | go i answer ready =>
    simp only [step, Option.bind_eq_bind, Option.bind_eq_some_iff] at h
    obtain ⟨t, hi, ⟨w, m, u⟩, hu, heq⟩ := h
    cases heq
    refine .go i answer ready t u w m hi ?_
    cases t with
    | transport c prog n => exact transportStep_went hu
    | command p reset => exact commandStep_went hu
  | workerRun =>
    simp only [step] at h
    split at h
    · split at h
      · cases h
        exact .run ‹_› ‹_›
      · cases h
    · cases h
  | worker env =>
    simp only [step, Option.bind_eq_bind, Option.bind_eq_some_iff] at h
    obtain ⟨⟨e, v⟩, hv, m, hm, heq⟩ := h
    cases heq
    exact .worker env e v m hv hm

theorem went_shaped {s : State} {answer ready : Bool} {t u : Thread} {w : Words} {m : Shared}
    (went : Went s answer ready t w m u) (ht : t.Shaped) : u.Shaped := by
  have next : ∀ {c : Pcie.Call} {o : Op} {k : o.Val → Code ResetRet} (v : o.Val),
      (Prog.op (A := access) o k).every callFits = true →
        (Thread.transport c (k v) none).Shaped := by
    intro c o k v h
    obtain ⟨hfits, hrest⟩ := Prog.every_next h v
    refine ⟨hrest, fun site hsite => ?_, fun h => absurd rfl h⟩
    simp only [callFits, hsite, Bool.and_eq_true] at hfits
    exact hfits.1
  cases went with
  | access c o k v w ho hexec => exact next v ht.1
  | deliver c ev k => exact ⟨ht.1, ht.2.1, fun _ => rfl⟩
  | event c prog p q e m hp hm => exact ⟨ht.1, ht.2.1, fun _ => ht.2.2 (fun h => by cases h)⟩
  | delivered c ev k => exact next () ht.1
  | reset o k v w hexec => exact ⟨(Prog.every_next ht.1 v).2, fun h => by cases h⟩
  | outcome r e q hp =>
    refine ⟨rfl, fun h => ?_⟩
    cases r <;> cases hp <;> cases h
  | command p q reset e m hne hp hm =>
    refine ⟨ht.1, fun h => ht.2 ?_⟩
    cases p with
    | gate | lock | recheck | state | reason | flag | epoch => rfl
    | resetDma => exact absurd rfl hne
    | returned => cases hp
    | _ =>
      simp only [recoveryDevice, Option.some.injEq, Prod.mk.injEq] at hp
      obtain ⟨-, rfl⟩ := hp
      first
        | cases h
        | (split at h <;> cases h)

/-! ### The invariant -/

structure Inv (s : State) : Prop where
  shaped : ∀ t ∈ s.threads, t.Shaped
  covered : Covered s

section Set
variable {s : State} {i : Nat} {t u : Thread} {w : Words} {m : Shared}

/-- The thread that moves keeps leading the device on as it did; the recovery words the
cover depends on stay. -/
theorem carried_set (hi : s.threads[i]? = some t) (hcoming : t.coming = true → u.coming = true)
    (hscheduling : t.scheduling = true → u.scheduling = true)
    (hstate : m.devState = s.shared.devState) (hepoch : m.recoveryEpoch = s.shared.recoveryEpoch)
    (hpending : m.pending = s.shared.pending) (h : Carried s) :
    Carried {s with words := w, shared := m, threads := s.threads.set i u} := by
  rcases h with h | ⟨hok, h⟩
  · exact .inl (Machine.exists_mem_set hi h hcoming)
  · refine .inr ⟨hstate.trans hok, ?_⟩
    rcases h with h | h | h
    · exact .inl (hpending.trans h)
    · exact .inr (.inl (by rw [hepoch]; exact h))
    · exact .inr (.inr (Machine.exists_mem_set hi h hscheduling))

/-- A step that leaves the words alone and keeps the mover where it leads. -/
theorem covered_set (hi : s.threads[i]? = some t) (hcoming : t.coming = true → u.coming = true)
    (hscheduling : t.scheduling = true → u.scheduling = true)
    (hcommanding : t.commanding = true → u.commanding = true)
    (hstate : m.devState = s.shared.devState) (hepoch : m.recoveryEpoch = s.shared.recoveryEpoch)
    (hpending : m.pending = s.shared.pending) (h : Covered s) :
    Covered {s with shared := m, threads := s.threads.set i u} := by
  intro htrans
  rcases h (hstate ▸ htrans) with h | h | h
  · exact .inl h
  · exact .inr (.inl (carried_set hi hcoming hscheduling hstate hepoch hpending h))
  · exact .inr (.inr (Machine.exists_mem_set hi h hcommanding))

/-- A thread that has become one that leads. -/
theorem mem_moved (hi : s.threads[i]? = some t) : u ∈ s.threads.set i u := by
  obtain ⟨hlt, -⟩ := List.getElem?_eq_some_iff.mp hi
  exact List.mem_set hlt u

theorem covered_of_commanding (hi : s.threads[i]? = some t) (hu : u.commanding = true) :
    Covered {s with words := w, shared := m, threads := s.threads.set i u} :=
  fun _ => .inr (.inr ⟨u, mem_moved hi, hu⟩)

theorem covered_of_settled (h : m.devState.inTransition = false) :
    Covered {s with words := w, shared := m, threads := s.threads.set i u} := by
  intro htrans
  rw [h] at htrans
  cases htrans

end Set

/-! ### The transport -/

section Transport
variable {s : State} {i : Nat} {answer : Bool} {c : Pcie.Call}

/-- An access of a call. LIVE is written by a reinit, which has its UP to deliver, or by an
error resume, which the rule is about. -/
theorem access_covered {o : Op} {k : o.Val → Code ResetRet} {v : o.Val} {w : Words} (inv : Inv s)
    (rule : HandsOn s (.transport c (.op (A := access) o k) none))
    (hi : s.threads[i]? = some (.transport c (.op (A := access) o k) none))
    (ho : isNotify o = false) (hexec : Pcie.exec s.transport answer o = some (v, w)) :
    Covered {s with words := w, threads := s.threads.set i (.transport c (k v) none)} := by
  intro htrans
  by_cases hlive : w.devState = .live
  swap
  · exact .inl hlive
  have hdev := (Pcie.exec_words hexec).1
  have hfits := (Prog.every_next (inv.shaped _ (List.mem_of_getElem? hi)).1 v).1
  -- what is coming is another thread: the mover does not write AER_RESET
  have keep : Carried s →
      Carried {s with words := w, threads := s.threads.set i (.transport c (k v) none)} := by
    refine carried_set hi ?_ (fun h => by cases h) rfl rfl rfl
    intro h
    simp only [Thread.coming, Prog.head] at h
    split at h
    · next heq =>
      cases heq
      rw [hlive] at hdev
      cases hdev
    · next heq =>
      cases heq
      cases ho
    · cases h
  have others : (∃ t ∈ s.threads, t.commanding = true) →
      ∃ t ∈ s.threads.set i (.transport c (k v) none), t.commanding = true :=
    fun h => Machine.exists_mem_set hi h (fun h => by cases h)
  have led : Carried s ∨ (∃ t ∈ s.threads, t.commanding = true) ∨
      (k v).head = some (.notify .up) := by
    rcases inv.covered htrans with h | h | h
    · have hset : ∃ site, o = .setDev .live site := by
        cases o with
        | setDev d site =>
          rw [hlive] at hdev
          exact ⟨site, by rw [show d = .live from hdev.symm]⟩
        | _ => exact absurd (hdev.symm.trans hlive) h
      obtain ⟨site, rfl⟩ := hset
      simp only [callFits, Bool.and_eq_true] at hfits
      cases site with
      | fullReinit => exact .inr (.inr (of_decide_eq_true hfits.2))
      | errorResume =>
        rcases rule.resumes rfl htrans with h | h
        · exact .inl h
        · exact .inr (.inl h)
      | _ => cases hfits.2
    · exact .inl h
    · exact .inr (.inl h)
  rcases led with h | h | h
  · exact .inr (.inl (keep h))
  · exact .inr (.inr (others h))
  · exact .inr (.inl (.inl ⟨_, mem_moved hi, by simp only [Thread.coming, h]⟩))

/-- A step of `dxrt_link_event_notify`. -/
theorem event_covered {prog : Code ResetRet} {p q : Notify} {e : Effect} {m : Shared} (inv : Inv s)
    (rule : HandsOn s (.transport c prog (some p)))
    (hi : s.threads[i]? = some (.transport c prog (some p)))
    (hp : linkEventNotify s.shared p = some (e, q)) (hm : e.apply s.shared = some m) :
    Covered {s with shared := m, threads := s.threads.set i (.transport c prog (some q))} := by
  cases p with
  | returned => cases hp
  | read ev =>
    cases hp
    cases hm
    by_cases hfail : s.shared.devState = .permFail
    · exact covered_of_settled (by rw [hfail]; rfl)
    · refine covered_set hi ?_ (fun h => by cases h) (fun h => by cases h) rfl rfl rfl inv.covered
      cases ev with
      | down => exact fun h => by cases h
      | up =>
        rw [if_neg hfail]
        exact fun _ => rfl
  | downState =>
    cases hp
    cases hm
    intro _
    rcases rule.takesDown rfl with h | h
    · exact .inl h
    · obtain ⟨u, hu, hleads⟩ := Machine.exists_mem_set hi
        (y := .transport c prog (some .downReason)) h (fun h => by cases h)
      rcases Bool.or_eq_true_iff.mp hleads with hcoming | hcommanding
      · exact .inr (.inl (.inl ⟨u, hu, hcoming⟩))
      · exact .inr (.inr ⟨u, hu, hcommanding⟩)
  | downReason | downFlag =>
    cases hp
    cases hm
    exact covered_set hi (fun h => by cases h) (fun h => by cases h) (fun h => by cases h) rfl rfl rfl
      inv.covered
  | downEpoch | downCancel =>
    cases hp
    cases hm
    intro htrans
    rcases inv.covered htrans with h | (h | ⟨hok, -⟩) | h
    · exact .inl h
    · exact .inr (.inl (.inl (Machine.exists_mem_set hi h (fun h => by cases h))))
    · -- the work that served the device ends here
      rcases rule.endsWork rfl hok with h | h
      · exact .inl h
      · obtain ⟨u, hu, hleads⟩ := Machine.exists_mem_set hi
          (y := .transport c prog (some _)) h (fun h => by cases h)
        simp only [Bool.or_eq_true] at hleads
        rcases hleads with (hcoming | hcommanding) | hscheduling
        · exact .inr (.inl (.inl ⟨u, hu, hcoming⟩))
        · exact .inr (.inr ⟨u, hu, hcommanding⟩)
        · exact .inr (.inl (.inr ⟨hok, .inr (.inr ⟨u, hu, hscheduling⟩)⟩))
    · exact .inr (.inr (Machine.exists_mem_set hi h (fun h => by cases h)))
  | upState =>
    cases hp
    cases hm
    exact fun _ => .inr (.inl (.inr ⟨rfl, .inr (.inr ⟨_, mem_moved hi, rfl⟩)⟩))
  | upSchedule =>
    cases hp
    cases hm
    intro htrans
    rcases inv.covered htrans with h | (h | ⟨hok, -⟩) | h
    · exact .inl h
    · exact .inr (.inl (.inl (Machine.exists_mem_set hi h (fun h => by cases h))))
    · exact .inr (.inl (.inr ⟨hok, .inl rfl⟩))
    · exact .inr (.inr (Machine.exists_mem_set hi h (fun h => by cases h)))

end Transport

/-! ### The command -/

section Recover
variable {s : State} {i : Nat} {answer ready : Bool}

/-- An access of the DMA reset: the command answers for the device until it is refused. -/
theorem reset_covered {o : Op} {k : o.Val → Code ResetRet} {v : o.Val} {w : Words} (inv : Inv s)
    (rule : HandsOn s (.command .resetDma (.op (A := access) o k)))
    (hi : s.threads[i]? = some (.command .resetDma (.op (A := access) o k)))
    (hexec : Pcie.exec s.transport answer o = some (v, w)) :
    Covered {s with words := w, threads := s.threads.set i (.command .resetDma (k v))} := by
  cases hagain : refusing (k v) with
  | false => exact covered_of_commanding hi (by simp only [Thread.commanding, hagain, Bool.not_false])
  | true =>
    have hfits := (Prog.every_next (inv.shaped _ (List.mem_of_getElem? hi)).1 v).1
    have carry : Carried s →
        Carried {s with words := w, threads := s.threads.set i (.command .resetDma (k v))} :=
      carried_set hi (fun h => by cases h) (fun h => by cases h) rfl rfl rfl
    intro htrans
    cases o with
    | readLink =>
      simp only [resetFits, hagain, Bool.not_true, Bool.false_or, decide_eq_true_eq] at hfits
      cases hexec
      rcases rule.refused (decide_eq_true hfits) htrans with h | h
      · exact .inl h
      · exact .inr (.inl (carry h))
    | readPaused =>
      simp only [resetFits, hagain, Bool.not_true, Bool.false_or] at hfits
      cases hexec
      rcases rule.refused hfits htrans with h | h
      · exact .inl h
      · exact .inr (.inl (carry h))
    | readDev =>
      simp only [resetFits, hagain, Bool.not_true, Bool.false_or, decide_eq_true_eq] at hfits
      cases hexec
      exact .inl (by rw [hfits]; exact fun h => by cases h)
    | unlockWr =>
      cases hexec
      have before : refusing (.op (A := access) .unlockWr k) = true := by
        simp only [refusing, Prog.always, List.all_eq_true]
        exact fun _ _ => hagain
      rcases inv.covered htrans with h | h | h
      · exact .inl h
      · exact .inr (.inl (carry h))
      · refine .inr (.inr (Machine.exists_mem_set hi h ?_))
        simp only [Thread.commanding, before, Bool.not_true]
        exact fun h => by cases h
    | _ =>
      simp only [resetFits, hagain] at hfits
      cases hfits

/-- What the command makes of the result. -/
theorem outcome_covered {r : ResetRet} {e : Effect} {q : Command} (inv : Inv s)
    (hi : s.threads[i]? = some (.command .resetDma (.ret r)))
    (hp : recoveryDevice s.shared r ready .resetDma = some (e, q)) :
    Covered {s with threads := s.threads.set i (.command q (.ret r))} := by
  cases r with
  | again =>
    cases hp
    exact covered_set hi (fun h => by cases h) (fun h => by cases h) (fun h => by cases h) rfl rfl rfl
      inv.covered
  | _ =>
    cases hp
    exact covered_of_commanding hi rfl

/-- The other steps of the command. -/
theorem command_covered {p q : Command} {reset : Code ResetRet} {e : Effect} {m : Shared}
    (inv : Inv s) (hne : p ≠ .resetDma) (hi : s.threads[i]? = some (.command p reset))
    (hp : recoveryDevice s.shared .ok ready p = some (e, q)) (hm : e.apply s.shared = some m) :
    Covered {s with shared := m, threads := s.threads.set i (.command q reset)} := by
  cases p with
  | resetDma => exact absurd rfl hne
  | returned => cases hp
  | gate | recheck | unlock =>
    cases hp
    cases hm
    exact covered_set hi (fun h => by cases h) (fun h => by cases h) (fun h => by cases h) rfl rfl rfl
      inv.covered
  | lock =>
    cases hp
    simp only [Effect.apply] at hm
    split at hm
    · cases hm
    · cases hm
      exact covered_set hi (fun h => by cases h) (fun h => by cases h) (fun h => by cases h) rfl rfl
        rfl inv.covered
  | state | reason | flag | transportOk | cancel | schedule | flush | readFinal | clearFlag ok =>
    cases hp
    exact covered_of_commanding hi rfl
  | epoch =>
    cases hp
    have undecided := (inv.shaped _ (List.mem_of_getElem? hi)).2 rfl
    exact covered_of_commanding hi (by simp only [Thread.commanding, undecided, Bool.not_false])
  | reboot =>
    cases hp
    exact covered_of_commanding hi (by cases ready <;> rfl)
  | readState ok =>
    cases hp
    cases hm
    by_cases htrans : s.shared.devState.inTransition = true
    · rw [if_pos htrans]
      exact covered_of_commanding hi rfl
    · exact covered_of_settled (Bool.not_eq_true _ ▸ htrans)
  | writeState ok =>
    cases hp
    cases hm
    exact covered_of_settled (by cases ok <;> rfl)

end Recover

/-! ### The worker -/

theorem serving_afterCheck {epoch e : Nat} {env : Env} {c : Rt.Readiness.Check}
    (h : serving epoch (.passed e c) = true) :
    serving epoch (Rt.Readiness.afterCheck e env c) = true := by
  cases c with
  | start | back | mailbox | settle | drop | pinged ok | locked | poll =>
    simp only [Rt.Readiness.afterCheck, Rt.Readiness.pingProbe]
    split <;> first | exact h | rfl | (split <;> first | exact h | rfl)
  | _ => first | exact h | rfl

/-- A run that serves a device in TRANSPORT_OK serves it on, or takes it out of that state. -/
theorem serving_next {m n : Shared} {env : Env} {x v : Worker} {e : Effect}
    (hv : recoveryReadyWorkFn m env x = some (e, v)) (hm : e.apply m = some n)
    (hok : m.devState = .transportOk) (h : serving m.recoveryEpoch x = true) :
    n.devState.inTransition = false ∨ serving n.recoveryEpoch v = true := by
  obtain ⟨hstate, hepoch, -⟩ := Effect.apply_words hm
  rw [hstate, hepoch]
  cases x with
  | idle => cases hv
  | hangFlag _ | permFailCount _ | permFailWrite _ => cases h
  | readPermFail =>
    cases hv
    rw [if_neg (by rw [hok]; exact fun h => by cases h)]
    exact .inr rfl
  | capture =>
    cases hv
    exact .inr (decide_eq_true rfl)
  | checkEpoch start c =>
    cases hv
    have hcurrent : start = m.recoveryEpoch := of_decide_eq_true h
    rw [if_pos hcurrent.symm]
    exact .inr h
  | checkState start c =>
    cases hv
    rw [if_pos hok]
    exact .inr h
  | passed start c =>
    cases hv
    exact .inr (serving_afterCheck h)
  | readReason start =>
    cases hv
    refine .inr ?_
    cases m.lastRecoveryReason <;> exact h
  | lockMsg start | unlockMsg start ok =>
    cases hv
    exact .inr h
  | incCount _ | clearFlag _ | incFailCount _ =>
    cases hv
    exact .inr rfl
  | writeReady _ | writeHang _ =>
    cases hv
    exact .inl rfl

/-- The worker does not put a device into RECOVERING or TRANSPORT_OK, nor touch the queue. -/
theorem worker_words {m n : Shared} {env : Env} {x v : Worker} {e : Effect}
    (hv : recoveryReadyWorkFn m env x = some (e, v)) (hm : e.apply m = some n) :
    (n.devState.inTransition = false ∨ n.devState = m.devState) ∧ n.pending = m.pending := by
  cases x with
  | idle => cases hv
  | lockMsg _ =>
    cases hv
    simp only [Effect.apply] at hm
    split at hm
    · cases hm
    · cases hm
      exact ⟨.inr rfl, rfl⟩
  | writeReady _ | writeHang _ | permFailWrite _ =>
    cases hv
    cases hm
    exact ⟨.inl rfl, rfl⟩
  | _ =>
    cases hv
    cases hm
    exact ⟨.inr rfl, rfl⟩

theorem worker_covered {s : State} {env : Env} {e : Effect} {v : Worker} {m : Shared} (inv : Inv s)
    (hv : recoveryReadyWorkFn s.shared env s.worker = some (e, v)) (hm : e.apply s.shared = some m) :
    Covered {s with shared := m, worker := v} := by
  intro htrans
  obtain ⟨hleft | hstate, hpending⟩ := worker_words hv hm
  · rw [hleft] at htrans
    cases htrans
  · rcases inv.covered (hstate ▸ htrans) with h | (h | ⟨hok, h⟩) | h
    · exact .inl h
    · exact .inr (.inl (.inl h))
    · refine .inr (.inl (.inr ⟨hstate.trans hok, ?_⟩))
      rcases h with h | h | h
      · exact .inl (hpending.trans h)
      · rcases serving_next hv hm hok h with hleft | hserving
        · rw [hleft] at htrans
          cases htrans
        · exact .inr (.inl hserving)
      · exact .inr (.inr h)
    · exact .inr (.inr h)

/-! ### Steps and runs -/

theorem initial_inv (enabled : Bool) (maxRetries : Nat) : Inv (initial enabled maxRetries) :=
  ⟨fun _ h => (by cases h), fun h => (by cases h)⟩

theorem go_covered {s : State} {i : Nat} {answer ready : Bool} {t u : Thread} {w : Words}
    {m : Shared} (inv : Inv s) (rule : HandsOn s t) (hi : s.threads[i]? = some t)
    (went : Went s answer ready t w m u) :
    Covered {s with words := w, shared := m, threads := s.threads.set i u} := by
  cases went with
  | access c o k v w ho hexec => exact access_covered inv rule hi ho hexec
  | deliver c ev k =>
    refine covered_set hi ?_ (fun h => by cases h) (fun h => by cases h) rfl rfl rfl inv.covered
    cases ev with
    | down => exact fun h => by cases h
    | up => exact fun _ => rfl
  | event c prog p q e m hp hm => exact event_covered inv rule hi hp hm
  | delivered c ev k =>
    exact covered_set hi (fun h => by cases h) (fun h => by cases h) (fun h => by cases h) rfl rfl rfl
      inv.covered
  | reset o k v w hexec => exact reset_covered inv rule hi hexec
  | outcome r e q hp => exact outcome_covered inv hi hp
  | command p q reset e m hne hp hm => exact command_covered inv hne hi hp hm

/-- A thread that starts covers nothing yet and uncovers nothing. -/
theorem start_inv {s : State} {t : Thread} {w : Words} (inv : Inv s) (ht : t.Shaped)
    (hw : w.devState = s.words.devState) :
    Inv {s with words := w, threads := s.threads ++ [t]} := by
  have still : ∀ {p : Thread → Prop}, (∃ u ∈ s.threads, p u) → ∃ u ∈ s.threads ++ [t], p u := by
    rintro p ⟨u, hu, hp⟩
    exact ⟨u, List.mem_append_left _ hu, hp⟩
  refine ⟨fun u hu => ?_, fun htrans => ?_⟩
  · rcases List.mem_append.mp hu with hu | hu
    · exact inv.shaped u hu
    · rw [List.mem_singleton.mp hu]
      exact ht
  · rcases inv.covered htrans with h | (h | ⟨hok, h | h | h⟩) | h
    · exact .inl (hw ▸ h)
    · exact .inr (.inl (.inl (still h)))
    · exact .inr (.inl (.inr ⟨hok, .inl h⟩))
    · exact .inr (.inl (.inr ⟨hok, .inr (.inl h)⟩))
    · exact .inr (.inl (.inr ⟨hok, .inr (.inr (still h))⟩))
    · exact .inr (.inr (still h))

theorem step_inv (s : State) (l : Label) (t : State) (inv : Inv s) (rule : HandedOn s l)
    (h : step s l = some t) : Inv t := by
  cases step_moved h with
  | start c w hc hw => exact start_inv inv (call_shaped hc) (Pcie.startWords_words hw).1
  | recover => exact start_inv inv command_shaped rfl
  | go i answer ready t u w m hi went =>
    refine ⟨?_, go_covered inv (rule t hi) hi went⟩
    exact Machine.forall_mem_set inv.shaped (fun _ => id)
      (went_shaped went (inv.shaped t (List.mem_of_getElem? hi)))
  | run hidle hpending =>
    refine ⟨inv.shaped, fun htrans => ?_⟩
    rcases inv.covered htrans with h | (h | ⟨hok, -⟩) | h
    · exact .inl h
    · exact .inr (.inl (.inl h))
    · exact .inr (.inl (.inr ⟨hok, .inr (.inl rfl)⟩))
    · exact .inr (.inr h)
  | worker env e v m hv hm => exact ⟨inv.shaped, worker_covered inv hv hm⟩

theorem delivering_of_coming {t : Thread} (ht : t.Shaped) (h : t.coming = true) :
    t.delivering = true := by
  cases t with
  | command p reset => cases h
  | transport c prog n =>
    cases n with
    | some p => exact ht.2.2 (fun h => by cases h)
    | none =>
      simp only [Thread.coming] at h
      split at h
      · next heq => exact ht.2.1 _ heq
      · next heq =>
        cases prog with
        | ret r => cases heq
        | op o k =>
          cases heq
          rfl
      · cases h

theorem delivering_of_scheduling {t : Thread} (ht : t.Shaped) (h : t.scheduling = true) :
    t.delivering = true := by
  cases t with
  | command p reset => cases h
  | transport c prog n =>
    cases n with
    | some p => exact ht.2.2 (fun h => by cases h)
    | none => cases h

theorem executing_of_commanding {t : Thread} (h : t.commanding = true) : t.executing = true := by
  cases t with
  | transport c prog n => cases h
  | command p reset =>
    cases p with
    | returned => cases h
    | _ => rfl

theorem Inv.attended {s : State} (inv : Inv s) : Attended s := by
  intro hlive _ _ quiet idle hpending hworker
  have nobody : ∀ {p : Thread → Bool}, (∀ t ∈ s.threads, p t = true → t.delivering = true) →
      ¬ ∃ t ∈ s.threads, p t = true := by
    rintro p hp ⟨t, ht, h⟩
    have := hp t ht h
    rw [quiet t ht] at this
    cases this
  cases htrans : s.shared.devState.inTransition with
  | false => rfl
  | true =>
    exfalso
    rcases inv.covered htrans with h | (h | ⟨-, h | h | h⟩) | ⟨t, ht, h⟩
    · exact h hlive
    · exact nobody (fun t ht => delivering_of_coming (inv.shaped t ht)) h
    · rw [hpending] at h
      cases h
    · rw [hworker] at h
      cases h
    · exact nobody (fun t ht => delivering_of_scheduling (inv.shaped t ht)) h
    · have := executing_of_commanding h
      rw [idle t ht] at this
      cases this

/-- **No orphaned recovery.** In every run of the transport's workers and callbacks, of
recovery commands and of the readiness worker in which whoever takes the device out of
another's hands leaves somebody who leads it on, a device that is up, with no event to be
delivered, no command and no work, is neither in RECOVERING nor in TRANSPORT_OK. -/
theorem attended_run {enabled : Bool} {maxRetries : Nat} {ls : List Label} {s : State}
    (rule : Machine.Admissible step HandedOn (initial enabled maxRetries) ls)
    (h : Machine.run step (initial enabled maxRetries) ls = some s) : Attended s :=
  (Machine.invariant_of_admissible step step_inv (initial_inv enabled maxRetries) rule h).attended

/-! ### Parts of runs -/

/-- Thread `i` makes `n` steps, with one answer to all it asks. -/
def goes (i n : Nat) (answer : Bool) : List Label := List.replicate n (.go i answer true)

/-- The readiness worker starts and makes `n` accesses; the firmware answers. -/
def works (n : Nat) : List Label :=
  .workerRun :: List.replicate n (.worker Rt.Readiness.answering)

/-- What `Attended` looks at. -/
def State.view (s : State) : (Words × Rt.Recovery.DevState) × (Bool × Worker) × Bool × Bool :=
  ((s.words, s.shared.devState), (s.shared.pending, s.worker),
    s.threads.all fun t => !t.delivering, s.threads.all fun t => !t.executing)

/-- A function reset, with a recovery command that comes in before the reset is done: it is
refused, and the UP leads the device on. -/
def refusedRun : List Label :=
  .start .resetPrepare :: goes 0 2 false ++ .recover :: goes 1 12 false ++ goes 0 10 false ++
    .start .resetDone :: goes 2 16 false ++ works 29

theorem attended_refusedRun :
    ∃ s, Machine.run step (initial true 3) refusedRun = some s ∧
      s.view = ((⟨.live, .up, false, true, true, false, false⟩, .ready), (false, .idle), true, true) ∧
      Attended s := by
  have handed : Machine.Admissible step HandedOn (initial true 3) refusedRun := by decide
  have hrun : (Machine.run step (initial true 3) refusedRun).map State.view =
      some ((⟨.live, .up, false, true, true, false, false⟩, .ready), (false, .idle), true, true) := by
    decide
  obtain ⟨s, hs, hview⟩ := Option.map_eq_some_iff.mp hrun
  exact ⟨s, hs, hview, attended_run handed hs⟩

/-- The command comes in between the UP and the write that ends the pause. -/
def overtakenRun : List Label :=
  .start .resetPrepare :: goes 0 12 false ++ .start .resetDone :: goes 1 11 false ++ works 29 ++
    .recover :: goes 2 13 false ++ goes 1 5 false

theorem recovery_orphaned :
    ¬ ∀ enabled maxRetries ls s,
      Machine.run step (initial enabled maxRetries) ls = some s → Attended s := by
  intro h
  have hrun : (Machine.run step (initial true 3) overtakenRun).map State.view =
      some ((⟨.live, .up, false, true, true, false, false⟩, .recovering), (false, .idle), true,
        true) := by decide
  obtain ⟨s, hs, hview⟩ := Option.map_eq_some_iff.mp hrun
  simp only [State.view, Prod.mk.injEq, List.all_eq_true, Bool.not_eq_true'] at hview
  obtain ⟨⟨hwords, hstate⟩, ⟨hpending, hworker⟩, quiet, idle⟩ := hview
  have := h true 3 overtakenRun s hs (by rw [hwords]) (by rw [hwords]) (by rw [hwords]) quiet idle
    hpending hworker
  rw [hstate] at this
  cases this

end DxNpuDriver.Bridge
