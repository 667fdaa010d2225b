import DxNpuDriver.Rt.Waiters.Close

/-! Where the commands end up once nobody is at work on the device: each returns, or sleeps
with a condition that is false (`quiet_settles`). The one way out of that is a device that
says READY and `recovering` at once, where a command that waits for a response goes round
its loop for ever (`recovering_spins`). -/
namespace DxNpuDriver.Rt.Waiters
open Machine (run run_cons)
open WaitQueue (Wait)

variable {ρ : Type}

/-- The handler is back, or sleeps with a condition that is false. -/
def Handler.Settled (m : Words ρ) (h : Handler ρ) : Prop :=
  h.Returned ∨
    ∃ w after, h.pc = .waits w after ∧ w.stage = .asleep ∧ ∀ t ∈ w.tests, m.test t = false

abbrev Settles : Words ρ → Handler ρ → Prop := Gets fun m h => h.Settled m

section Settles
variable {m : Words ρ} {h : Handler ρ}

theorem Returns.settles {m : Words ρ} {h : Handler ρ} (hret : Returns m h) : Settles m h := by
  induction hret with
  | here hreturned => exact .here (.inl hreturned)
  | step hstep _ ih => exact .step hstep ih

theorem settles_ret (r : Ret ρ) : Settles m {h with pc := .ret r} := .here (.inl ⟨r, rfl⟩)

theorem settles_rests {w : Wait Wq Test} {after : Place ρ} (hw : w.Rests m.test)
    (hrestart : Settles m {h with pc := Handler.interrupted after}) :
    Settles m {h with pc := .waits w after} := by
  induction hw with
  | restart hnext =>
    refine .step (n := m) (p := Handler.interrupted after) ?_ hrestart
    simp only [Handler.step, hnext, Option.map_some]
  | asleep hstage hfalse => exact .here (.inr ⟨_, _, rfl, hstage, hfalse⟩)
  | @step w v hnext _ ih =>
    refine .step (n := m) (p := .waits v after) ?_ ih
    simp only [Handler.step, hnext, Option.map_some]

/-- A wait from which no wake-up is missing: what comes behind it is needed only where the
condition holds. -/
theorem settles_waits {w : Wait Wq Test} {after : Place ρ} {coming : Wq → Prop}
    (hw : w.Alert (fun t => m.test t = true) coming) (hnone : ¬ coming w.queue)
    (hdone : ∀ t ∈ w.tests, m.test t = true → Settles m {h with pc := .stands after})
    (hrestart : Settles m {h with pc := Handler.interrupted after}) :
    Settles m {h with pc := .waits w after} := by
  by_cases htrue : ∃ t ∈ w.tests, m.test t = true
  · obtain ⟨t, ht, htrue⟩ := htrue
    exact gets_leaves (hw.leaves (fun _ h => h) hnone ht htrue) (hdone t ht htrue) hrestart
  · refine settles_rests (hw.rests fun t ht => ?_) hrestart
    exact Bool.eq_false_iff.mpr fun h => htrue ⟨t, ht, h⟩

theorem settles_start {queue : Wq} {tests : List Test} {signal : Bool} {after : Place ρ}
    (hdone : ∀ t ∈ tests, m.test t = true → Settles m {h with pc := .stands after})
    (hrestart : Settles m {h with pc := Handler.interrupted after}) :
    Settles m {h with pc := .waits (.start queue tests signal) after} := by
  have halert : (Wait.start queue tests signal).Alert (fun t => m.test t = true) fun _ => False :=
    Wait.start_alert queue tests signal
  exact settles_waits halert id hdone hrestart

theorem settles_canceled {p : Place ρ} {pc : Pc ρ}
    (hplace : h.place m p = some (m, if m.terminating h.file then .ret (.err .ECANCELED) else pc))
    (hopen : m.terminating h.file = false → Settles m {h with pc := pc}) :
    Settles m {h with pc := .stands p} := by
  refine gets_at hplace (gets_ite (fun _ => settles_ret _) fun hfile => ?_)
  exact hopen (Bool.eq_false_iff.mpr hfile)

/-! ### Events -/

section Event
variable (hcommand : h.command = .event ∨ h.command = .eventV2)
include hcommand

theorem eventAgain_settles : Settles m {h with pc := .stands .eventAgain} := by
  have hplace := place_event (m := m) hcommand .eventAgain
  simp only [Handler.eventPlace] at hplace
  split at hplace
  · exact gets_at hplace (settles_ret _)
  · exact gets_at hplace (settles_ret _)

theorem clearIrq_settles : Settles m {h with pc := .stands .clearIrq} :=
  gets_at (place_event hcommand _) (eventAgain_settles hcommand)

theorem eventDequeue_settles : Settles m {h with pc := .stands .eventDequeue} := by
  have hplace := place_event (m := m) hcommand .eventDequeue
  simp only [Handler.eventPlace] at hplace
  split at hplace
  · exact gets_at hplace (settles_ret _)
  · refine gets_at hplace (settles_start (fun _ _ _ => ?_) ?_)
    · exact clearIrq_settles hcommand
    · exact clearIrq_settles hcommand

theorem recovering_settles (hrecovering : m.recovering = true) :
    Settles m {h with pc := .stands .recovering} := by
  refine gets_at (place_event hcommand _) ?_
  rw [if_pos hrecovering]
  refine settles_start (fun t ht htrue => ?_) (settles_ret _)
  obtain rfl | ht := List.mem_cons.mp ht
  · simp only [Words.test, hrecovering] at htrue
    cases htrue
  · obtain rfl := List.mem_singleton.mp ht
    exact (returns_canceled htrue (place_event hcommand _)).settles

theorem recheck_settles : Settles m {h with pc := .stands .recheck} := by
  refine gets_at (place_event hcommand _) (gets_ite (fun hrecovering => ?_) fun _ => ?_)
  · exact recovering_settles hcommand hrecovering
  · exact eventDequeue_settles hcommand

theorem eventWoken_settles : Settles m {h with pc := .stands .eventWoken} :=
  settles_canceled (place_event hcommand _) fun _ => recheck_settles hcommand

theorem waitEvent_settles : Settles m {h with pc := h.waitEvent} :=
  settles_start (fun _ _ _ => eventWoken_settles hcommand) (settles_ret _)

theorem event_settles {p : Place ρ} (hp : p.ofResponse = false) :
    Settles m {h with pc := .stands p} := by
  have hrecovering : Settles m {h with pc := .stands .recovering} := by
    cases hm : m.recovering with
    | true => exact recovering_settles hcommand hm
    | false =>
      refine gets_at (place_event hcommand _) ?_
      rw [hm]
      exact waitEvent_settles hcommand
  cases p with
  | eventEnter => exact settles_canceled (place_event hcommand _) fun _ => hrecovering
  | recovering => exact hrecovering
  | recovered =>
    exact settles_canceled (place_event hcommand _) fun _ => waitEvent_settles hcommand
  | eventWoken => exact eventWoken_settles hcommand
  | recheck => exact recheck_settles hcommand
  | eventDequeue => exact eventDequeue_settles hcommand
  | clearIrq => exact clearIrq_settles hcommand
  | eventAgain => exact eventAgain_settles hcommand
  | _ => cases hp

end Event

/-! ### Responses -/

/-- A device that recovers does not say READY. -/
def Calm (m : Words ρ) : Prop := m.recovering = true → m.devState ≠ .ready

section Response
variable {kind : Response.Kind} {ch : Nat} (hcommand : h.command = .response kind ch)
include hcommand

/-- Where the loop comes round again, it has given a credit back. -/
def Rounds (m : Words ρ) (h : Handler ρ) (ch : Nat) : Prop :=
  ∀ n : Words ρ, n.recovering = m.recovering → n.devState = m.devState →
    n.responsePending ch = m.responsePending ch - 1 → Settles n {h with pc := .stands .retry}

omit hcommand in
theorem Rounds.of_eq {n : Words ρ} (hrounds : Rounds m h ch)
    (hrecovering : n.recovering = m.recovering) (hstate : n.devState = m.devState)
    (hpending : n.responsePending ch = m.responsePending ch) : Rounds n h ch :=
  fun o h₁ h₂ h₃ => hrounds o (h₁.trans hrecovering) (h₂.trans hstate) (h₃.trans (by rw [hpending]))

theorem decrement_settles (hrounds : Rounds m h ch) (got : Option ρ) :
    Settles m {h with pc := .stands (.decrement got)} := by
  refine gets_at (place_response hcommand _) ?_
  cases got with
  | none => exact hrounds _ rfl rfl (Function.update_self ..)
  | some response => exact settles_ret _

theorem dequeue_settles (hrounds : Rounds m h ch) : Settles m {h with pc := .stands .dequeue} := by
  refine gets_at (place_response hcommand _) ?_
  refine decrement_settles hcommand ?_ _
  exact hrounds.of_eq rfl rfl rfl

theorem again_settles (hrounds : Rounds m h ch) : Settles m {h with pc := .stands .again} :=
  settles_canceled (place_response hcommand _) fun _ => dequeue_settles hcommand hrounds

theorem devState_settles (hrounds : Rounds m h ch) :
    Settles m {h with pc := .stands .devState} := by
  refine gets_at (place_response hcommand _) ?_
  split
  · exact settles_ret _
  · split
    · exact again_settles hcommand hrounds
    · exact dequeue_settles hcommand hrounds
    · exact dequeue_settles hcommand hrounds

theorem woken_settles (hrounds : Rounds m h ch) : Settles m {h with pc := .stands .woken} :=
  settles_canceled (place_response hcommand _) fun _ => devState_settles hcommand hrounds

/-- A wait on a READY device that does not recover goes on only with a credit, or because
the file is closed. -/
theorem waitResponse_settles (hready : m.devState = .ready) (hcalm : m.recovering = false)
    (hrounds : 0 < m.responsePending ch → Rounds m h ch) :
    Settles m {h with pc := h.waitResponse kind ch} := by
  refine settles_start (fun t ht htrue => ?_) (settles_ret _)
  have ht : t = .pending ch ∨ t = .recovering ∨ t = .devStateErrno ∨ t = .terminating h.file := by
    cases kind <;> simp only [responseTests, List.mem_cons, List.not_mem_nil, or_false] at ht <;>
      obtain rfl | rfl | rfl | rfl := ht <;> simp
  obtain rfl | rfl | rfl | rfl := ht
  · exact woken_settles hcommand (hrounds (test_pending.mp htrue))
  · rw [Words.test, hcalm] at htrue
    cases htrue
  · rw [Words.test, hready] at htrue
    cases htrue
  · exact (returns_canceled htrue (place_response hcommand _)).settles

theorem retry_settles (hcalm : Calm m) : Settles m {h with pc := .stands .retry} := by
  induction hk : m.responsePending ch using Nat.strong_induction_on generalizing m with
  | _ k ih =>
    refine gets_at (place_response hcommand _) ?_
    cases herrno : dxrtDevStateErrno m.devState with
    | some e => exact settles_ret _
    | none =>
      have hready : m.devState = .ready := by
        cases hstate : m.devState with
        | ready => rfl
        | _ =>
          rw [hstate] at herrno
          cases herrno
      have hrecovering : m.recovering = false :=
        Bool.eq_false_iff.mpr fun htrue => hcalm htrue hready
      have hrounds (hpos : 0 < m.responsePending ch) : Rounds m h ch := by
        intro n hr hs hn
        refine ih (m.responsePending ch - 1) (by omega) ?_ hn
        rw [Calm, hr, hs]
        exact hcalm
      have hwait := waitResponse_settles hcommand hready hrecovering hrounds
      cases kind with
      | runResponseV1 =>
        refine gets_at (place_response hcommand _) (gets_ite (fun _ => hwait) fun hpos => ?_)
        exact again_settles hcommand (hrounds (Nat.pos_of_ne_zero hpos))
      | runResponseV2 => exact hwait
      | readOutput => exact hwait

theorem response_settles (hcalm : Calm m) {p : Place ρ} (hp : p.ofResponse = true) :
    Settles m {h with pc := .stands p} := by
  have hrounds : Rounds m h ch := by
    intro n hr hs _
    refine retry_settles hcommand ?_
    rw [Calm, hr, hs]
    exact hcalm
  have henter : Settles m {h with pc := .stands .enter} := by
    refine gets_at (place_response hcommand _) (gets_ite (fun _ => settles_ret _) fun _ => ?_)
    exact gets_ite (fun _ => settles_ret _) fun _ => retry_settles hcommand hcalm
  cases p with
  | gate =>
    refine gets_at (place_response hcommand _) ?_
    split
    · exact settles_ret _
    · exact henter
  | enter => exact henter
  | retry => exact retry_settles hcommand hcalm
  | probe =>
    refine gets_at (place_response hcommand _) (gets_ite (fun _ => ?_) fun _ => ?_)
    · exact settles_start (fun _ _ _ => woken_settles hcommand hrounds) (settles_ret _)
    · exact again_settles hcommand hrounds
  | woken => exact woken_settles hcommand hrounds
  | devState => exact devState_settles hcommand hrounds
  | again => exact again_settles hcommand hrounds
  | dequeue => exact dequeue_settles hcommand hrounds
  | decrement got => exact decrement_settles hcommand hrounds got
  | _ => cases hp

end Response

theorem place_settles (hcalm : Calm m) {p : Place ρ} (hhere : h.Here p) :
    Settles m {h with pc := .stands p} := by
  obtain ⟨kind, ch, hcommand⟩ | hcommand := h.command_cases
  · exact response_settles hcommand hcalm (hhere.response hcommand).1
  · exact event_settles hcommand (hhere.event hcommand)

theorem interrupted_settles {after : Place ρ} (hhere : h.Here after) :
    Settles m {h with pc := Handler.interrupted after} := by
  cases after with
  | clearIrq =>
    obtain ⟨kind, ch, hcommand⟩ | hcommand := h.command_cases
    · cases (hhere.response hcommand).1
    · exact clearIrq_settles hcommand
  | _ => exact settles_ret _

end Settles

/-- **Everybody settles.** When nobody is at work on the device any more, and it does not say
READY while it recovers, every command returns by its own steps or goes to sleep with a
condition that is false: no response, no event, the file open and, for a response, READY. -/
theorem quiet_settles {ls : List (Label ρ)} {s : State ρ} (h : run step initial ls = some s)
    (rule : Machine.Admissible step Rule initial ls) (hquiet : ∀ th ∈ s.threads, th.rest = [])
    (hcalm : Calm s.words) {i : Nat} {hd : Handler ρ} (hi : s.handlers[i]? = some hd) :
    ∃ n t g, run step s (List.replicate n (.handler i)) = some t ∧ t.handlers[i]? = some g ∧
      g.Settled t.words := by
  have inv := run_sound h rule
  have hmem := List.mem_of_getElem? hi
  have hfits := inv.fits hd hmem
  refine Gets.run (P := fun m h => h.Settled m) (m := s.words) (h := hd) ?_ rfl hi
  obtain ⟨command, file, signal, pc⟩ := hd
  cases pc with
  | ret r => exact .here (.inl ⟨r, rfl⟩)
  | stands p => exact place_settles (h := ⟨command, file, signal, .stands p⟩) hcalm hfits
  | waits w after =>
    obtain ⟨hhere, -⟩ := hfits
    have hnone : ¬ Coming (fun _ => True) s.threads w.queue := by
      rintro ⟨th, hth, -, b, hb, -⟩
      rw [hquiet th hth] at hb
      cases hb
    exact settles_waits (h := ⟨command, file, signal, .waits w after⟩)
      (inv.alert _ hmem w after rfl) hnone (fun _ _ _ => place_settles hcalm hhere)
      (interrupted_settles hhere)

/-- The link goes while a command sleeps, and comes back. -/
def flapRun : List (Label Nat) :=
  sleepThen .linkDown ++ List.replicate 21 (.thread 0) ++
    [.call .linkUp, .thread 1, .call (.workerReady .linkFlap)] ++ List.replicate 10 (.thread 2)

theorem settles_flapRun : ∃ s, run step initial flapRun = some s ∧
    ∃ n t g, run step s (List.replicate n (.handler 0)) = some t ∧ t.handlers[0]? = some g ∧
      g.Settled t.words := by
  obtain ⟨s, hd, hs, hquiet, hready, hi⟩ : ∃ s hd, run step initial flapRun = some s ∧
      (s.threads.map fun th => th.rest.length) = [0, 0, 0] ∧ s.words.recovering = false ∧
        s.handlers[0]? = some hd :=
    ⟨_, _, rfl, rfl, rfl, rfl⟩
  refine ⟨s, hs, quiet_settles hs (by decide) (fun th hth => ?_) (fun h => ?_) hi⟩
  · have hlength : th.rest.length ∈ [0, 0, 0] := hquiet ▸ List.mem_map_of_mem hth
    exact List.eq_nil_of_length_eq_zero (by simpa using hlength)
  · rw [hready] at h
    cases h

/-! ### READY and `recovering` -/

/-- The loop of a command that waits for a response, on a device that says READY and
`recovering` and has none. -/
structure Spins (m : Words ρ) (h : Handler ρ) (kind : Response.Kind) (ch : Nat) : Prop where
  command : h.command = .response kind ch
  devState : m.devState = .ready
  recovering : m.recovering = true
  isOpen : m.terminating h.file = false
  empty : (m.responses ch).list = []
  pc : (∃ p ∈ [Place.retry, .probe, .woken, .devState, .again, .dequeue, .decrement none],
    h.pc = .stands p) ∨ ∃ w left, h.pc = .waits w .woken ∧ w.stage = .look left ∧
      Test.recovering ∈ left

section Spins
variable {m : Words ρ} {h : Handler ρ} {kind : Response.Kind} {ch : Nat}

theorem Spins.not_settled (hspins : Spins m h kind ch) : ¬ h.Settled m := by
  rintro (⟨r, hret⟩ | ⟨w, after, hpc, hstage, -⟩)
  · obtain ⟨p, -, hpc⟩ | ⟨w, left, hpc, -⟩ := hspins.pc
    · rw [hret] at hpc
      cases hpc
    · rw [hret] at hpc
      cases hpc
  · obtain ⟨p, -, hpc'⟩ | ⟨w', left, hpc', hstage', -⟩ := hspins.pc
    · rw [hpc] at hpc'
      cases hpc'
    · rw [hpc] at hpc'
      cases hpc'
      rw [hstage] at hstage'
      cases hstage'

/-- The loop goes on to a place of its own. -/
theorem Spins.place (hspins : Spins m h kind ch) {p : Place ρ}
    (hp : p ∈ [Place.retry, .probe, .woken, .devState, .again, .dequeue, .decrement none]) :
    Spins m {h with pc := .stands p} kind ch :=
  ⟨hspins.command, hspins.devState, hspins.recovering, hspins.isOpen, hspins.empty,
    .inl ⟨p, hp, rfl⟩⟩

theorem Spins.wait (hspins : Spins m h kind ch) :
    Spins m {h with pc := h.waitResponse kind ch} kind ch := by
  refine ⟨hspins.command, hspins.devState, hspins.recovering, hspins.isOpen, hspins.empty,
    .inr ⟨_, _, rfl, rfl, ?_⟩⟩
  cases kind <;> simp [responseTests]

theorem Spins.step (hspins : Spins m h kind ch) :
    ∃ n pc, h.step m = some (n, pc) ∧ Spins n {h with pc := pc} kind ch := by
  have hready : dxrtDevStateErrno m.devState = none := by
    rw [hspins.devState]
    rfl
  have hopen : ¬ m.terminating h.file = true := Bool.eq_false_iff.mp hspins.isOpen
  obtain ⟨p, hp, hpc⟩ | ⟨w, left, hpc, hstage, hleft⟩ := hspins.pc
  · have hstep : h.step m = h.responsePlace m kind ch p := by
      unfold Handler.step
      rw [hpc]
      exact place_response hspins.command p
    rw [hstep]
    simp only [List.mem_cons, List.not_mem_nil, or_false] at hp
    obtain rfl | rfl | rfl | rfl | rfl | rfl | rfl := hp
    · refine ⟨_, _, rfl, ?_⟩
      rw [hready]
      cases kind with
      | runResponseV1 => exact hspins.place (by simp)
      | runResponseV2 => exact hspins.wait
      | readOutput => exact hspins.wait
    · refine ⟨_, _, rfl, ?_⟩
      by_cases hzero : m.responsePending ch = 0
      · rw [if_pos hzero]
        exact hspins.wait
      · rw [if_neg hzero]
        exact hspins.place (by simp)
    · refine ⟨_, _, rfl, ?_⟩
      rw [if_neg hopen]
      exact hspins.place (by simp)
    · refine ⟨_, _, rfl, ?_⟩
      rw [hready]
      cases kind <;> exact hspins.place (by simp)
    · refine ⟨_, _, rfl, ?_⟩
      rw [if_neg hopen]
      exact hspins.place (by simp)
    · have hnone : Response.dequeueResponse (m.responses ch) = (m.responses ch, none) := by
        unfold Response.dequeueResponse
        rw [hspins.empty]
      refine ⟨_, _, rfl, ?_⟩
      rw [hnone, Function.update_eq_self]
      exact hspins.place (by simp)
    · exact ⟨_, _, rfl, hspins.command, hspins.devState, hspins.recovering, hspins.isOpen,
        hspins.empty, .inl ⟨.retry, by simp, rfl⟩⟩
  · obtain ⟨queue, tests, signal, stage⟩ := w
    obtain rfl : stage = .look left := hstage
    cases left with
    | nil => cases hleft
    | cons t left =>
      cases htrue : m.test t with
      | true =>
        refine ⟨m, .stands .woken, ?_, hspins.place (by simp)⟩
        simp only [Handler.step, hpc, Wait.next, htrue, if_true, Option.map_some]
      | false =>
        refine ⟨m, .waits ⟨queue, tests, signal, .look left⟩ .woken, ?_, ?_⟩
        · simp only [Handler.step, hpc, Wait.next, htrue, Bool.false_eq_true, if_false,
            Option.map_some]
        · refine ⟨hspins.command, hspins.devState, hspins.recovering, hspins.isOpen, hspins.empty,
            .inr ⟨_, left, rfl, rfl, ?_⟩⟩
          refine (List.mem_cons.mp hleft).resolve_left fun heq => ?_
          subst heq
          rw [Words.test, hspins.recovering] at htrue
          cases htrue

theorem Spins.interrupt (hspins : Spins m h kind ch) : Spins m h.interrupt kind ch := by
  obtain ⟨p, hp, hpc⟩ | ⟨w, left, hpc, hstage, hleft⟩ := hspins.pc
  · have heq : h.interrupt = {h with signal := true} := by
      unfold Handler.interrupt
      rw [hpc]
    rw [heq]
    exact ⟨hspins.command, hspins.devState, hspins.recovering, hspins.isOpen, hspins.empty,
      .inl ⟨p, hp, hpc⟩⟩
  · have heq : h.interrupt = {h with signal := true, pc := .waits w.interrupt .woken} := by
      unfold Handler.interrupt
      rw [hpc]
    rw [heq]
    refine ⟨hspins.command, hspins.devState, hspins.recovering, hspins.isOpen, hspins.empty,
      .inr ⟨_, left, rfl, ?_, hleft⟩⟩
    simp only [Wait.interrupt, Wait.rouse, hstage]

end Spins

/-- **READY and `recovering` at once is a busy loop.** A command at its `retry` on a channel
without responses neither returns nor sleeps as long as nobody changes the words, and no
signal ends it. -/
theorem recovering_spins {s : State ρ} {i : Nat} {hd : Handler ρ} {kind : Response.Kind} {ch : Nat}
    (hi : s.handlers[i]? = some hd) (hspins : Spins s.words hd kind ch) {ls : List (Label ρ)}
    (hls : ∀ l ∈ ls, l = .handler i ∨ l = .signal i) :
    ∃ t g, run step s ls = some t ∧ t.handlers[i]? = some g ∧ ¬ g.Settled t.words := by
  induction ls generalizing s hd with
  | nil => exact ⟨s, hd, rfl, hi, hspins.not_settled⟩
  | cons l ls ih =>
    obtain ⟨hl, hrest⟩ := List.forall_mem_cons.mp hls
    obtain ⟨hlt, -⟩ := List.getElem?_eq_some_iff.mp hi
    obtain rfl | rfl := hl
    · obtain ⟨n, pc, hstep, hspins'⟩ := hspins.step
      let u : State ρ := {s with words := n, handlers := s.handlers.set i {hd with pc := pc}}
      have hu : step s (.handler i) = some u := by
        simp only [step, hi, Option.bind_some, hstep, Option.map_some, u]
      obtain ⟨t, g, hrun, hg, hsettled⟩ :=
        @ih u {hd with pc := pc} (List.getElem?_set_self hlt) hspins' hrest
      exact ⟨t, g, (run_cons step).mpr ⟨u, hu, hrun⟩, hg, hsettled⟩
    · let u : State ρ := {s with handlers := s.handlers.set i hd.interrupt}
      have hu : step s (.signal i) = some u := by
        simp only [step, hi, Option.map_some, u]
      obtain ⟨t, g, hrun, hg, hsettled⟩ :=
        @ih u hd.interrupt (List.getElem?_set_self hlt) hspins.interrupt hrest
      exact ⟨t, g, (run_cons step).mpr ⟨u, hu, hrun⟩, hg, hsettled⟩

/-- The worker has made its last check and cleared `recovering`; a DOWN sets it again, and
the worker writes READY. Nobody is at work after that. -/
def overtakenRun : List (Label Nat) :=
  [.ioctl (.response .runResponseV2 0) 7, .handler 0, .handler 0,
    .call (.workerReady .linkFlap), .thread 0, .call .linkDown, .thread 1, .thread 1] ++
    List.replicate 9 (.thread 0) ++ List.replicate 20 (.thread 1)

theorem spins_overtakenRun : ∃ s, run step initial overtakenRun = some s ∧
    (s.threads.map fun th => th.rest.length) = [0, 0] ∧
      ∃ t g, run step s (List.replicate 1000 (.handler 0)) = some t ∧
        t.handlers[0]? = some g ∧ ¬ g.Settled t.words := by
  obtain ⟨s, hd, hs, hquiet, hi, hspins⟩ : ∃ s hd, run step initial overtakenRun = some s ∧
      (s.threads.map fun th => th.rest.length) = [0, 0] ∧ s.handlers[0]? = some hd ∧
        Spins s.words hd .runResponseV2 0 :=
    ⟨_, _, rfl, rfl, rfl, rfl, rfl, rfl, rfl, rfl, .inl ⟨.retry, List.mem_cons_self, rfl⟩⟩
  exact ⟨s, hs, hquiet, recovering_spins hi hspins fun l hl => .inl (List.eq_of_mem_replicate hl)⟩

end DxNpuDriver.Rt.Waiters
