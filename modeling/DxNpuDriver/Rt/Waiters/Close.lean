import DxNpuDriver.Rt.Waiters.Wakeup

/-! Closing a file gets its commands out (`flush_releases`). Here only `terminating` counts,
and only the flush that sets it wakes. -/
namespace DxNpuDriver.Rt.Waiters
open Machine (run run_cons invariant)
open WaitQueue (Wait)

variable {ρ : Type}

/-- What a flush of the file tells. -/
def Closed (file : Nat) (m : Words ρ) (t : Test) : Prop :=
  t = .terminating file ∧ m.terminating file = true

def OfFlush (file : Nat) (c : Call ρ) : Prop := ∃ single, c = .flush file single

theorem closed_alarming (file : Nat) : Alarming (Closed file : Words ρ → Test → Prop) where
  test := by
    rintro m t ⟨rfl, h⟩
    exact h
  lowers := by
    rintro m n t hlowers ⟨rfl, h⟩
    rw [hlowers.terminating] at h
    exact ⟨rfl, h⟩

theorem setTerminating_mem {c : Call ρ} {file : Nat} (h : .setTerminating file ∈ c.accesses) :
    OfFlush file c := by
  have hemit (sub : Subcode) (reason : Readiness.Reason) :
      .setTerminating file ∉ (emitRecoveryEvent sub reason : List (Access ρ)) := by
    unfold emitRecoveryEvent dxPcieEnqueueRecoveryEvent
    split <;> simp
  cases c with
  | flush f single =>
    refine ⟨single, ?_⟩
    cases single <;> simp [Call.accesses, dxrtWakeupWaiters, wakeAll] at h <;> rw [h]
  | recovery reset =>
    cases reset with
    | refused => simp [Call.accesses, dxrtRecoveryDevice] at h
    | goes reboot finish =>
      cases reboot <;> cases finish <;> simp [Call.accesses, dxrtRecoveryDevice,
        dxPcieClearResponseQueue, dxrtClearAllPending, wakeAll, Finish.accesses] at h
  | workerHang reason permFail =>
    cases permFail <;> simp [Call.accesses, dxrtClearAllPending, wakeAll, hemit] at h
  | enqueueEventResponse error =>
    cases error <;> simp [Call.accesses, dxPcieEnqueueEventResponse] at h
  | _ =>
    simp [Call.accesses, beginRecovery, dxPcieClearResponseQueue, dxrtClearAllPending, wakeAll,
      dxPcieEnqueueEventResponse, hemit] at h

theorem closed_heralded {file : Nat} {s : State ρ} {l : Label ρ}
    (inv : Sound (Closed file) (OfFlush file) s) :
    Heralded (Closed file) (OfFlush file) s l := by
  rintro i c a rest - hi q t hw ⟨rfl, hnew⟩
  by_cases hold : s.words.terminating file = true
  · exact .inr (.inr ⟨rfl, hold⟩)
  · refine .inr (.inl ?_)
    have hsuffix := inv.threads _ (List.mem_of_getElem? hi)
    obtain rfl : a = .setTerminating file := by
      cases a with
      | setTerminating f =>
        by_cases hf : file = f
        · rw [hf]
        · have hsame : Function.update s.words.terminating f true file = true := hnew
          rw [Function.update_of_ne hf] at hsame
          exact absurd hsame hold
      | enqueueEvent =>
        simp only [Access.write] at hnew
        split at hnew <;> exact absurd hnew hold
      | _ => exact absurd hnew hold
    obtain ⟨single, rfl⟩ := setTerminating_mem (hsuffix.subset List.mem_cons_self)
    obtain hwakes | ⟨hraises, hserved⟩ := Access.raises hw hnew hold
    · cases hwakes
    · exact ⟨⟨single, rfl⟩, (call_announced rfl).suffix hsuffix hserved hraises rfl⟩

theorem run_closed (file : Nat) {ls : List (Label ρ)} {s : State ρ}
    (h : run step initial ls = some s) : Sound (Closed file) (OfFlush file) s :=
  invariant step (fun _ _ _ inv hstep => step_sound (closed_alarming file) inv
    (closed_heralded inv) hstep) initial_sound h

/-- By its own steps the handler gets to where `P` holds. -/
inductive Gets (P : Words ρ → Handler ρ → Prop) : Words ρ → Handler ρ → Prop
  | here {m : Words ρ} {h : Handler ρ} : P m h → Gets P m h
  | step {m n : Words ρ} {h : Handler ρ} {p : Pc ρ} :
    h.step m = some (n, p) → Gets P n {h with pc := p} → Gets P m h

theorem Gets.run {P : Words ρ → Handler ρ → Prop} {m : Words ρ} {h : Handler ρ}
    (hgets : Gets P m h) {s : State ρ} {i : Nat} (hm : s.words = m)
    (hi : s.handlers[i]? = some h) :
    ∃ n t g, Machine.run Waiters.step s (List.replicate n (.handler i)) = some t ∧
      t.handlers[i]? = some g ∧ P t.words g := by
  induction hgets generalizing s with
  | here hP =>
    subst hm
    exact ⟨0, s, _, rfl, hi, hP⟩
  | @step m n h p hstep rest ih =>
    subst hm
    let t : State ρ := {s with words := n, handlers := s.handlers.set i {h with pc := p}}
    have ht : Waiters.step s (.handler i) = some t := by
      simp only [Waiters.step, hi, Option.bind_some, hstep, Option.map_some, t]
    obtain ⟨hlt, -⟩ := List.getElem?_eq_some_iff.mp hi
    obtain ⟨k, u, g, hrun, hg, hP⟩ := @ih t rfl (List.getElem?_set_self hlt)
    exact ⟨k + 1, u, g, (run_cons Waiters.step).mpr ⟨t, ht, hrun⟩, hg, hP⟩

section Gets
variable {P : Words ρ → Handler ρ → Prop} {m : Words ρ} {h : Handler ρ}

theorem gets_at {n : Words ρ} {p : Place ρ} {pc : Pc ρ} (hplace : h.place m p = some (n, pc))
    (rest : Gets P n {h with pc := pc}) : Gets P m {h with pc := .stands p} :=
  .step (n := n) (p := pc) hplace rest

theorem gets_ite {c : Prop} [Decidable c] {p q : Pc ρ} (hp : c → Gets P m {h with pc := p})
    (hq : ¬ c → Gets P m {h with pc := q}) : Gets P m {h with pc := if c then p else q} := by
  split
  · exact hp ‹_›
  · exact hq ‹_›

/-- A wait that the task leaves by itself. -/
theorem gets_leaves {w : Wait Wq Test} {after : Place ρ} (hw : w.Leaves m.test)
    (hdone : Gets P m {h with pc := .stands after})
    (hrestart : Gets P m {h with pc := Handler.interrupted after}) :
    Gets P m {h with pc := .waits w after} := by
  induction hw with
  | done hnext =>
    refine .step (n := m) (p := .stands after) ?_ hdone
    simp only [Handler.step, hnext, Option.map_some]
  | restart hnext =>
    refine .step (n := m) (p := Handler.interrupted after) ?_ hrestart
    simp only [Handler.step, hnext, Option.map_some]
  | @step w v hnext _ ih =>
    refine .step (n := m) (p := .waits v after) ?_ ih
    simp only [Handler.step, hnext, Option.map_some]

theorem place_response {kind : Response.Kind} {ch : Nat} (hcommand : h.command = .response kind ch)
    (p : Place ρ) : h.place m p = h.responsePlace m kind ch p := by
  unfold Handler.place
  rw [hcommand]

theorem place_event (hcommand : h.command = .event ∨ h.command = .eventV2) (p : Place ρ) :
    h.place m p = h.eventPlace m p := by
  unfold Handler.place
  obtain hcommand | hcommand := hcommand <;> rw [hcommand]

end Gets

def Handler.Returned (h : Handler ρ) : Prop := ∃ r, h.pc = .ret r

/-- By its own steps the handler gets to its return. -/
abbrev Returns : Words ρ → Handler ρ → Prop := Gets fun _ h => h.Returned

section Returns
variable {m : Words ρ} {h : Handler ρ}

theorem returns_ret (r : Ret ρ) : Returns m {h with pc := .ret r} := .here ⟨r, rfl⟩

theorem interrupted_returns {after : Place ρ} (hafter : after ≠ .clearIrq) :
    Returns m {h with pc := Handler.interrupted after} := by
  cases after with
  | clearIrq => exact absurd rfl hafter
  | _ => exact returns_ret _

/-! The places of a command whose file is closed. -/

theorem returns_start (hclosed : m.terminating h.file = true) {queue : Wq} {tests : List Test}
    {signal : Bool} {after : Place ρ} (ht : .terminating h.file ∈ tests)
    (hdone : Returns m {h with pc := .stands after})
    (hrestart : Returns m {h with pc := Handler.interrupted after}) :
    Returns m {h with pc := .waits (.start queue tests signal) after} :=
  gets_leaves (Wait.leaves_look queue tests signal ht hclosed tests) hdone hrestart

theorem returns_canceled (hclosed : m.terminating h.file = true) {p : Place ρ} {pc : Pc ρ}
    (hplace : h.place m p =
      some (m, if m.terminating h.file then .ret (.err .ECANCELED) else pc)) :
    Returns m {h with pc := .stands p} := by
  rw [if_pos hclosed] at hplace
  exact gets_at hplace (returns_ret _)

theorem response_wait_returns (hclosed : m.terminating h.file = true) {kind : Response.Kind}
    {ch : Nat} (hcommand : h.command = .response kind ch) :
    Returns m {h with pc := h.waitResponse kind ch} := by
  refine returns_start hclosed ?_ (returns_canceled hclosed (place_response hcommand _))
    (returns_ret _)
  cases kind <;> simp [responseTests]

theorem again_returns (hclosed : m.terminating h.file = true) {kind : Response.Kind} {ch : Nat}
    (hcommand : h.command = .response kind ch) : Returns m {h with pc := .stands .again} :=
  returns_canceled hclosed (place_response hcommand _)

theorem retry_returns (hclosed : m.terminating h.file = true) {kind : Response.Kind} {ch : Nat}
    (hcommand : h.command = .response kind ch) : Returns m {h with pc := .stands .retry} := by
  refine gets_at (place_response hcommand _) ?_
  split
  · exact returns_ret _
  · split
    · refine gets_at (place_response hcommand _) (gets_ite (fun _ => ?_) fun _ => ?_)
      · exact response_wait_returns hclosed hcommand
      · exact again_returns hclosed hcommand
    · exact response_wait_returns hclosed hcommand
    · exact response_wait_returns hclosed hcommand

theorem decrement_returns (hclosed : m.terminating h.file = true) {kind : Response.Kind} {ch : Nat}
    (hcommand : h.command = .response kind ch) (got : Option ρ) :
    Returns m {h with pc := .stands (.decrement got)} := by
  refine gets_at (place_response hcommand _) ?_
  cases got with
  | none => exact retry_returns hclosed hcommand
  | some response => exact returns_ret _

/-- From wherever a command that waits for a response stands outside its wait. -/
theorem response_returns (hclosed : m.terminating h.file = true) {kind : Response.Kind} {ch : Nat}
    (hcommand : h.command = .response kind ch) {p : Place ρ} (hp : p.ofResponse = true) :
    Returns m {h with pc := .stands p} := by
  have henter : Returns m {h with pc := .stands .enter} := by
    refine gets_at (place_response hcommand _) (gets_ite (fun _ => returns_ret _) fun _ => ?_)
    rw [if_pos hclosed]
    exact returns_ret _
  have hdequeue : Returns m {h with pc := .stands .dequeue} := by
    refine gets_at (place_response hcommand _) (decrement_returns ?_ hcommand _)
    exact hclosed
  cases p with
  | gate =>
    refine gets_at (place_response hcommand _) ?_
    split
    · exact returns_ret _
    · exact henter
  | enter => exact henter
  | retry => exact retry_returns hclosed hcommand
  | probe =>
    refine gets_at (place_response hcommand _) (gets_ite (fun _ => ?_) fun _ => ?_)
    · exact response_wait_returns hclosed hcommand
    · exact again_returns hclosed hcommand
  | woken => exact returns_canceled hclosed (place_response hcommand _)
  | devState =>
    refine gets_at (place_response hcommand _) ?_
    split
    · exact returns_ret _
    · split
      · exact again_returns hclosed hcommand
      · exact hdequeue
      · exact hdequeue
  | again => exact again_returns hclosed hcommand
  | dequeue => exact hdequeue
  | decrement got => exact decrement_returns hclosed hcommand got
  | _ => cases hp

theorem event_wait_returns (hclosed : m.terminating h.file = true)
    (hcommand : h.command = .event ∨ h.command = .eventV2) : Returns m {h with pc := h.waitEvent} :=
  returns_start hclosed (List.mem_cons_of_mem _ (List.mem_cons_of_mem _ List.mem_cons_self))
    (returns_canceled hclosed (place_event hcommand _)) (returns_ret _)

/-- Past its last look at `terminating`, `dxrt_handle_event_v2` has an event to take. -/
def Place.past : Place ρ → Bool
  | .recheck | .eventDequeue | .clearIrq | .eventAgain => true
  | _ => false

theorem event_returns (hclosed : m.terminating h.file = true)
    (hcommand : h.command = .event ∨ h.command = .eventV2) {p : Place ρ}
    (hp : p.ofResponse = false) (hpast : p.past = false) : Returns m {h with pc := .stands p} := by
  cases p with
  | eventEnter => exact returns_canceled hclosed (place_event hcommand _)
  | recovering =>
    refine gets_at (place_event hcommand _) (gets_ite (fun _ => ?_) fun _ => ?_)
    · exact returns_start hclosed (List.mem_cons_of_mem _ List.mem_cons_self)
        (returns_canceled hclosed (place_event hcommand _)) (returns_ret _)
    · exact event_wait_returns hclosed hcommand
  | recovered => exact returns_canceled hclosed (place_event hcommand _)
  | eventWoken => exact returns_canceled hclosed (place_event hcommand _)
  | recheck | eventDequeue | clearIrq | eventAgain => cases hpast
  | _ => cases hp

theorem place_returns (hclosed : m.terminating h.file = true) {p : Place ρ} (hhere : h.Here p)
    (hpast : p.past = false) : Returns m {h with pc := .stands p} := by
  obtain ⟨kind, ch, hcommand⟩ | hcommand := h.command_cases
  · exact response_returns hclosed hcommand (hhere.response hcommand).1
  · exact event_returns hclosed hcommand (hhere.event hcommand) hpast

end Returns

/-- Past its last look at `terminating`, or in the wait of `dx_pcie_interrupt_event`. -/
def Handler.past (h : Handler ρ) : Bool :=
  match h.pc with
  | .stands p | .waits _ p => p.past
  | .ret _ => false

/-- **A flush gets the commands of its file out.** Once `terminating` is set and every flush
of the file has made its wake-ups, each command of the file that has not yet passed its last
look at `terminating` returns by its own steps, whatever else is going on. -/
theorem flush_releases {ls : List (Label ρ)} {s : State ρ} (h : run step initial ls = some s)
    {file : Nat} (hterm : s.words.terminating file = true)
    (hflush : ∀ th ∈ s.threads, OfFlush file th.call → th.rest = []) {i : Nat} {hd : Handler ρ}
    (hi : s.handlers[i]? = some hd) (hfile : hd.file = file) (hpast : hd.past = false) :
    ∃ n t g, run step s (List.replicate n (.handler i)) = some t ∧
      t.handlers[i]? = some g ∧ g.Returned := by
  subst hfile
  have inv := run_closed hd.file h
  have hmem := List.mem_of_getElem? hi
  have hfits := inv.fits hd hmem
  refine Gets.run (P := fun _ h => h.Returned) (m := s.words) (h := hd) ?_ rfl hi
  obtain ⟨command, file, signal, pc⟩ := hd
  cases pc with
  | ret r => exact .here ⟨r, rfl⟩
  | stands p => exact place_returns (h := ⟨command, file, signal, .stands p⟩) hterm hfits hpast
  | waits w after =>
    obtain ⟨hhere, hw⟩ := hfits
    have halert := inv.alert _ hmem w after rfl
    have hnone : ¬ Coming (OfFlush file) s.threads w.queue := by
      rintro ⟨th, hth, hof, b, hb, -⟩
      rw [hflush th hth hof] at hb
      cases hb
    have ht : .terminating file ∈ w.tests := by
      cases after with
      | woken =>
        obtain ⟨kind, ch, -, -, htests⟩ := hw
        rw [htests]
        cases kind <;> simp [responseTests]
      | recovered =>
        rw [hw.2]
        exact List.mem_cons_of_mem _ List.mem_cons_self
      | eventWoken =>
        rw [hw.2]
        exact List.mem_cons_of_mem _ (List.mem_cons_of_mem _ List.mem_cons_self)
      | clearIrq => cases hpast
      | _ => exact hw.elim
    have hleaves := halert.leaves ((closed_alarming file).test s.words) hnone ht ⟨rfl, hterm⟩
    refine gets_leaves (h := ⟨command, file, signal, .waits w after⟩) hleaves
      (place_returns hterm hhere hpast) (interrupted_returns fun heq => ?_)
    subst heq
    cases hpast

/-- The command sleeps, and its file is closed. -/
theorem released_sleepThen : ∃ s, run step initial
    (sleepThen (.flush 7 false) ++ List.replicate 6 (.thread 0)) = some s ∧
      ∃ n t g, run step s (List.replicate n (.handler 0)) = some t ∧
        t.handlers[0]? = some g ∧ g.Returned := by
  obtain ⟨s, hs, hd, hterm, hflush, hi, hfile, hpast⟩ : ∃ s, run step initial
      (sleepThen (.flush 7 false) ++ List.replicate 6 (.thread 0)) = some s ∧
        ∃ hd, s.words.terminating 7 = true ∧ (∀ th ∈ s.threads, OfFlush 7 th.call → th.rest = []) ∧
          s.handlers[0]? = some hd ∧ hd.file = 7 ∧ hd.past = false :=
    ⟨_, rfl, _, rfl, fun th hth _ => by rw [List.mem_singleton.mp hth], rfl, rfl, rfl⟩
  exact ⟨s, hs, flush_releases hs hterm hflush hi hfile hpast⟩

end DxNpuDriver.Rt.Waiters
