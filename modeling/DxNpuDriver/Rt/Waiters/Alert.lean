import DxNpuDriver.Rt.Waiters

/-! What keeps a sleeping command alert: of the tests it has found false, none has turned
true without a wake-up that is coming.

Which tests count, and whose wake-ups, is a parameter. `step_sound` carries the invariant
over a step whose access, if it turns a test true, wakes the queue or leaves that to the
rest of its function. -/
namespace DxNpuDriver.Rt.Waiters
open WaitQueue (Wait)

variable {ρ : Type}

/-! ### Handlers -/

/-- A place of the functions that wait for a response. -/
def Place.ofResponse : Place ρ → Bool
  | .gate | .enter | .retry | .probe | .woken | .devState | .again | .dequeue | .decrement _ => true
  | _ => false

namespace Handler

/-- The place is of the command's function, and past its check the channel is in range. -/
def Here (h : Handler ρ) (p : Place ρ) : Prop :=
  match h.command with
  | .response _ ch => p.ofResponse = true ∧ (p = .gate ∨ p = .enter ∨ ch < dxPcieRespNum)
  | .event | .eventV2 => p.ofResponse = false

/-- The waits of a command: their queue and their condition. -/
def Waiting (h : Handler ρ) (w : Wait Wq Test) : Place ρ → Prop
  | .woken => ∃ kind ch, h.command = .response kind ch ∧ w.queue = .response ch ∧
      w.tests = responseTests kind ch h.file
  | .recovered => w.queue = .event ∧ w.tests = recoveryTests h.file
  | .eventWoken => w.queue = .event ∧ w.tests = eventTests h.file
  | .clearIrq => w.queue = .irq ∧ w.tests = [.irq]
  | _ => False

def Fits (h : Handler ρ) : Prop :=
  match h.pc with
  | .stands p => h.Here p
  | .waits w after => h.Here after ∧ h.Waiting w after
  | .ret _ => True

theorem here_response {h : Handler ρ} {kind : Response.Kind} {ch : Nat}
    (hcommand : h.command = .response kind ch) (hch : ch < dxPcieRespNum) {p : Place ρ}
    (hp : p.ofResponse = true) : h.Here p := by
  unfold Here
  rw [hcommand]
  exact ⟨hp, .inr (.inr hch)⟩

theorem Here.response {h : Handler ρ} {kind : Response.Kind} {ch : Nat}
    (hcommand : h.command = .response kind ch) {p : Place ρ} (hhere : h.Here p) :
    p.ofResponse = true ∧ (p = .gate ∨ p = .enter ∨ ch < dxPcieRespNum) := by
  unfold Here at hhere
  rw [hcommand] at hhere
  exact hhere

theorem command_cases (h : Handler ρ) :
    (∃ kind ch, h.command = .response kind ch) ∨ h.command = .event ∨ h.command = .eventV2 := by
  cases h.command with
  | response kind ch => exact .inl ⟨kind, ch, rfl⟩
  | event => exact .inr (.inl rfl)
  | eventV2 => exact .inr (.inr rfl)

theorem Here.event {h : Handler ρ} (hcommand : h.command = .event ∨ h.command = .eventV2)
    {p : Place ρ} (hhere : h.Here p) : p.ofResponse = false := by
  unfold Here at hhere
  obtain hcommand | hcommand := hcommand <;> rw [hcommand] at hhere <;> exact hhere

theorem here_event {h : Handler ρ} (hcommand : h.command = .event ∨ h.command = .eventV2)
    {p : Place ρ} (hp : p.ofResponse = false) : h.Here p := by
  unfold Here
  obtain hcommand | hcommand := hcommand <;> rw [hcommand] <;> exact hp

end Handler

/-- A queue that a command may sleep on, and the tests it may sleep for. -/
def Watched : Wq → Test → Prop
  | .response ch, .pending c => ch < dxPcieRespNum ∧ c = ch
  | .response ch, .recovering | .response ch, .devStateErrno | .response ch, .terminating _ =>
    ch < dxPcieRespNum
  | .event, .recovering | .event, .notRecovering | .event, .eventPending
  | .event, .terminating _ => True
  | .irq, .irq => True
  | _, _ => False

theorem Handler.Waiting.watched {h : Handler ρ} {w : Wait Wq Test} {after : Place ρ}
    (hhere : h.Here after) (hw : h.Waiting w after) {t : Test} (ht : t ∈ w.tests) :
    Watched w.queue t := by
  cases after with
  | woken =>
    obtain ⟨kind, ch, hcommand, hqueue, htests⟩ := hw
    obtain ⟨-, heq | heq | hch⟩ := hhere.response hcommand <;> first | cases heq | skip
    rw [hqueue]
    rw [htests] at ht
    cases kind <;> simp only [responseTests, List.mem_cons, List.not_mem_nil, or_false] at ht <;>
      obtain rfl | rfl | rfl | rfl := ht <;> simp [Watched, hch]
  | recovered =>
    obtain ⟨hqueue, htests⟩ := hw
    rw [hqueue]
    rw [htests] at ht
    simp only [recoveryTests, List.mem_cons, List.not_mem_nil, or_false] at ht
    obtain rfl | rfl := ht <;> trivial
  | eventWoken =>
    obtain ⟨hqueue, htests⟩ := hw
    rw [hqueue]
    rw [htests] at ht
    simp only [eventTests, List.mem_cons, List.not_mem_nil, or_false] at ht
    obtain rfl | rfl | rfl := ht <;> trivial
  | clearIrq =>
    obtain ⟨hqueue, htests⟩ := hw
    rw [hqueue]
    rw [htests] at ht
    obtain rfl := List.mem_singleton.mp ht
    trivial
  | _ => exact hw.elim

/-- What a place may do to the words: take a response or an event, give back a credit,
lower the interrupt. -/
inductive Lowers (m : Words ρ) : Words ρ → Prop
  | same : Lowers m m
  | responses (r : Nat → Response.Queue ρ) : Lowers m {m with responses := r}
  | pending (ch : Nat) :
    Lowers m {m with responsePending :=
      Function.update m.responsePending ch (m.responsePending ch - 1)}
  | events : Lowers m {m with events := m.events - 1}
  | irq : Lowers m {m with eventsIrq := false}

theorem Lowers.test {m n : Words ρ} (h : Lowers m n) {t : Test} (ht : n.test t = true) :
    m.test t = true := by
  cases h with
  | same | responses => exact ht
  | pending ch =>
    cases t with
    | pending c =>
      simp only [Words.test, decide_eq_true_eq] at ht ⊢
      by_cases hc : c = ch
      · subst hc
        rw [Function.update_self] at ht
        omega
      · rw [Function.update_of_ne hc] at ht
        exact ht
    | _ => exact ht
  | events =>
    cases t with
    | eventPending =>
      simp only [Words.test, decide_eq_true_eq] at ht ⊢
      omega
    | _ => exact ht
  | irq =>
    cases t with
    | irq => cases ht
    | _ => exact ht

theorem Lowers.terminating {m n : Words ρ} (h : Lowers m n) : n.terminating = m.terminating := by
  cases h <;> rfl

theorem Lowers.devState {m n : Words ρ} (h : Lowers m n) : n.devState = m.devState := by
  cases h <;> rfl

theorem Lowers.recovering {m n : Words ρ} (h : Lowers m n) : n.recovering = m.recovering := by
  cases h <;> rfl

namespace Handler

/-- A place that a command goes on to, with a wait that it starts. -/
def Enters (h : Handler ρ) (pc : Pc ρ) : Prop :=
  ({h with pc := pc} : Handler ρ).Fits ∧
    ∀ w after, pc = .waits w after → ∃ queue tests signal, w = .start queue tests signal

theorem enters_at {h : Handler ρ} {p : Place ρ} (hhere : h.Here p) : h.Enters (.stands p) :=
  ⟨hhere, fun w after heq => by cases heq⟩

theorem enters_ret (h : Handler ρ) (r : Ret ρ) : h.Enters (.ret r) :=
  ⟨trivial, fun w after heq => by cases heq⟩

theorem enters_wait {h : Handler ρ} {queue : Wq} {tests : List Test} {signal : Bool}
    {after : Place ρ} (hhere : h.Here after) (hw : h.Waiting (.start queue tests signal) after) :
    h.Enters (.waits (.start queue tests signal) after) := by
  refine ⟨⟨hhere, hw⟩, fun w after heq => ?_⟩
  cases heq
  exact ⟨queue, tests, signal, rfl⟩

theorem enters_ite {h : Handler ρ} {c : Prop} [Decidable c] {p q : Pc ρ} (hp : h.Enters p)
    (hq : h.Enters q) : h.Enters (if c then p else q) := by
  split
  · exact hp
  · exact hq

theorem responsePlace_spec {m n : Words ρ} {h : Handler ρ} {kind : Response.Kind} {ch : Nat}
    {p : Place ρ} {pc : Pc ρ} (hcommand : h.command = .response kind ch) (hhere : h.Here p)
    (hplace : h.responsePlace m kind ch p = some (n, pc)) : Lowers m n ∧ h.Enters pc := by
  have hat (hch : ch < dxPcieRespNum) (q : Place ρ) (hq : q.ofResponse = true) :
      h.Enters (.stands q) := enters_at (here_response hcommand hch hq)
  have hwait (hch : ch < dxPcieRespNum) : h.Enters (h.waitResponse kind ch) :=
    enters_wait (here_response hcommand hch rfl) ⟨kind, ch, hcommand, rfl, rfl⟩
  obtain ⟨-, rfl | rfl | hch⟩ := hhere.response hcommand
  · simp only [responsePlace, Option.some.injEq, Prod.mk.injEq] at hplace
    obtain ⟨rfl, rfl⟩ := hplace
    refine ⟨.same, ?_⟩
    split
    · exact enters_ret h _
    · refine enters_at ?_
      unfold Here
      rw [hcommand]
      exact ⟨rfl, .inr (.inl rfl)⟩
  · simp only [responsePlace, Option.some.injEq, Prod.mk.injEq] at hplace
    obtain ⟨rfl, rfl⟩ := hplace
    refine ⟨.same, ?_⟩
    split
    · exact enters_ret h _
    · rename_i hch
      exact enters_ite (enters_ret h _) (hat (Nat.lt_of_not_le hch) _ rfl)
  cases p <;> simp only [responsePlace, Option.some.injEq, Prod.mk.injEq, reduceCtorEq] at hplace <;>
    obtain ⟨rfl, rfl⟩ := hplace
  case gate =>
    refine ⟨.same, ?_⟩
    split
    · exact enters_ret h _
    · exact hat hch _ rfl
  case enter =>
    exact ⟨.same, enters_ite (enters_ret h _) (enters_ite (enters_ret h _) (hat hch _ rfl))⟩
  case retry =>
    refine ⟨.same, ?_⟩
    split
    · exact enters_ret h _
    · split
      · exact hat hch _ rfl
      · exact hwait hch
      · exact hwait hch
  case probe => exact ⟨.same, enters_ite (hwait hch) (hat hch _ rfl)⟩
  case woken => exact ⟨.same, enters_ite (enters_ret h _) (hat hch _ rfl)⟩
  case devState =>
    refine ⟨.same, ?_⟩
    split
    · exact enters_ret h _
    · split <;> exact hat hch _ rfl
  case again => exact ⟨.same, enters_ite (enters_ret h _) (hat hch _ rfl)⟩
  case dequeue => exact ⟨.responses _, hat hch _ rfl⟩
  case decrement got =>
    refine ⟨.pending ch, ?_⟩
    split
    · exact enters_ret h _
    · exact hat hch _ rfl

theorem eventPlace_spec {m n : Words ρ} {h : Handler ρ} {p : Place ρ} {pc : Pc ρ}
    (hcommand : h.command = .event ∨ h.command = .eventV2)
    (hplace : h.eventPlace m p = some (n, pc)) : Lowers m n ∧ h.Enters pc := by
  have hat (q : Place ρ) (hq : q.ofResponse = false) : h.Enters (.stands q) :=
    enters_at (here_event hcommand hq)
  have hevent : h.Enters h.waitEvent := enters_wait (here_event hcommand rfl) ⟨rfl, rfl⟩
  have hrecovery :
      h.Enters (.waits (.start .event (recoveryTests h.file) h.signal) .recovered) :=
    enters_wait (here_event hcommand rfl) ⟨rfl, rfl⟩
  cases p <;> simp only [eventPlace, Option.some.injEq, Prod.mk.injEq, reduceCtorEq] at hplace
  case eventEnter =>
    obtain ⟨rfl, rfl⟩ := hplace
    exact ⟨.same, enters_ite (enters_ret h _) (hat _ rfl)⟩
  case recovering =>
    obtain ⟨rfl, rfl⟩ := hplace
    exact ⟨.same, enters_ite hrecovery hevent⟩
  case recovered =>
    obtain ⟨rfl, rfl⟩ := hplace
    exact ⟨.same, enters_ite (enters_ret h _) hevent⟩
  case eventWoken =>
    obtain ⟨rfl, rfl⟩ := hplace
    exact ⟨.same, enters_ite (enters_ret h _) (hat _ rfl)⟩
  case recheck =>
    obtain ⟨rfl, rfl⟩ := hplace
    exact ⟨.same, enters_ite (hat _ rfl) (hat _ rfl)⟩
  case eventDequeue =>
    split at hplace
    · cases hplace
      exact ⟨.events, enters_ret h _⟩
    · cases hplace
      exact ⟨.same, enters_wait (here_event hcommand rfl) ⟨rfl, rfl⟩⟩
  case clearIrq =>
    obtain ⟨rfl, rfl⟩ := hplace
    exact ⟨.irq, hat _ rfl⟩
  case eventAgain =>
    split at hplace
    · cases hplace
      exact ⟨.events, enters_ret h _⟩
    · cases hplace
      exact ⟨.same, enters_ret h _⟩

/-- What a place does. -/
theorem place_spec {m n : Words ρ} {h : Handler ρ} {p : Place ρ} {pc : Pc ρ}
    (hhere : h.Here p) (hplace : h.place m p = some (n, pc)) : Lowers m n ∧ h.Enters pc := by
  unfold place at hplace
  split at hplace
  · rename_i kind ch hcommand
    exact responsePlace_spec hcommand hhere hplace
  · exact eventPlace_spec (.inl ‹_›) hplace
  · exact eventPlace_spec (.inr ‹_›) hplace

theorem wake_fits {h : Handler ρ} (q : Wq) (hfits : h.Fits) : (h.wake q).Fits := by
  unfold wake
  split
  · rename_i w after hpc
    unfold Fits at hfits
    rw [hpc] at hfits
    obtain ⟨hhere, hw⟩ := hfits
    refine ⟨hhere, ?_⟩
    unfold Wait.wake
    split
    · cases after <;> simp only [Waiting, Wait.rouse_queue, Wait.rouse_tests] <;> exact hw
    · exact hw
  · exact hfits

theorem interrupt_fits {h : Handler ρ} (hfits : h.Fits) : h.interrupt.Fits := by
  unfold interrupt
  split
  · rename_i w after hpc
    unfold Fits at hfits
    rw [hpc] at hfits
    obtain ⟨hhere, hw⟩ := hfits
    refine ⟨hhere, ?_⟩
    cases after <;> simp only [Waiting, Wait.interrupt, Wait.rouse_queue, Wait.rouse_tests] <;>
      exact hw
  · exact hfits

end Handler

/-! ### The invariant -/

/-- The access wakes the queue whatever it finds. -/
def Access.Calls : Access ρ → Wq → Prop
  | .wakeResponse ch, q => q = .response ch
  | .wakeEvent, q => q = .event
  | _, _ => False

theorem Access.Calls.wakes {a : Access ρ} {q : Wq} (h : a.Calls q) (m : Words ρ) :
    a.wakes m = some q := by
  cases a with
  | wakeResponse ch => exact congrArg some (Eq.symm h)
  | wakeEvent => exact congrArg some (Eq.symm h)
  | _ => exact h.elim

section Invariant
variable (alarm : Words ρ → Test → Prop) (caller : Call ρ → Prop)

/-- A caller is going to wake the queue. -/
def Coming (threads : List (Thread ρ)) (q : Wq) : Prop :=
  ∃ th ∈ threads, caller th.call ∧ ∃ a ∈ th.rest, a.Calls q

structure Sound (s : State ρ) : Prop where
  threads : ∀ th ∈ s.threads, th.rest <:+ th.call.accesses
  fits : ∀ h ∈ s.handlers, h.Fits
  alert : ∀ h ∈ s.handlers, ∀ w after, h.pc = .waits w after →
    w.Alert (alarm s.words) (Coming caller s.threads)

/-- What alarms is true, and no command makes it so. -/
structure Alarming : Prop where
  test : ∀ m t, alarm m t → m.test t = true
  lowers : ∀ m n t, Lowers m n → alarm n t → alarm m t

/-- An access that turns a test true wakes its queue, or the caller does so later. -/
def Heralded (s : State ρ) (l : Label ρ) : Prop :=
  ∀ i c a rest, l = .thread i → s.threads[i]? = some ⟨c, a :: rest⟩ → ∀ q t, Watched q t →
    alarm (a.write s.words) t → a.wakes s.words = some q ∨
      (caller c ∧ ∃ b ∈ rest, b.Calls q) ∨ alarm s.words t

variable {alarm caller}

theorem initial_sound : Sound alarm caller (initial : State ρ) :=
  ⟨List.forall_mem_nil _, List.forall_mem_nil _, List.forall_mem_nil _⟩

/-- A wake-up that was coming is made, or still coming. -/
theorem coming_access {threads : List (Thread ρ)} {i : Nat} {c : Call ρ} {a : Access ρ}
    {rest : List (Access ρ)} {q : Wq} (m : Words ρ) (hi : threads[i]? = some ⟨c, a :: rest⟩)
    (h : Coming caller threads q) :
    a.wakes m = some q ∨ Coming caller (threads.set i ⟨c, rest⟩) q := by
  by_cases hcalls : a.Calls q
  · exact .inl (hcalls.wakes m)
  · refine .inr (Machine.exists_mem_set hi h fun ⟨hcaller, b, hb, hbcalls⟩ => ?_)
    obtain rfl | hb := List.mem_cons.mp hb
    · exact absurd hbcalls hcalls
    · exact ⟨hcaller, b, hb, hbcalls⟩

/-- A handler that waits, before and after the access of a thread. -/
theorem access_alert {s : State ρ} {i : Nat} {c : Call ρ} {a : Access ρ} {rest : List (Access ρ)}
    (inv : Sound alarm caller s) (hi : s.threads[i]? = some ⟨c, a :: rest⟩)
    (rule : Heralded alarm caller s (.thread i)) {h : Handler ρ} (hh : h ∈ s.handlers)
    {w : Wait Wq Test} {after : Place ρ} (hpc : h.pc = .waits w after)
    (hwakes : a.wakes s.words ≠ some w.queue) :
    w.Alert (alarm (a.write s.words)) (Coming caller (s.threads.set i ⟨c, rest⟩)) := by
  have hfits := inv.fits h hh
  unfold Handler.Fits at hfits
  rw [hpc] at hfits
  obtain ⟨hhere, hw⟩ := hfits
  refine (inv.alert h hh w after hpc).change
    (fun hcome => (coming_access s.words hi hcome).resolve_left hwakes) ?_
  by_cases hcome : caller c ∧ ∃ b ∈ rest, b.Calls w.queue
  · obtain ⟨hlt, -⟩ := List.getElem?_eq_some_iff.mp hi
    exact .inl ⟨⟨c, rest⟩, List.mem_set hlt _, hcome⟩
  · refine .inr fun t ht halarm => ?_
    have hwatched := hw.watched hhere ht
    exact ((rule i c a rest rfl hi w.queue t hwatched halarm).resolve_left hwakes).resolve_left hcome

theorem access_sound {s : State ρ} {i : Nat} {c : Call ρ} {a : Access ρ} {rest : List (Access ρ)}
    (inv : Sound alarm caller s) (hi : s.threads[i]? = some ⟨c, a :: rest⟩)
    (rule : Heralded alarm caller s (.thread i)) : Sound alarm caller (access s i c a rest) := by
  have hsuffix := inv.threads _ (List.mem_of_getElem? hi)
  refine ⟨?_, ?_, ?_⟩
  · exact Machine.forall_mem_set inv.threads (fun _ h => h)
      ((List.suffix_cons a rest).trans hsuffix)
  · intro h hh
    simp only [access] at hh
    split at hh
    · obtain ⟨g, hg, rfl⟩ := List.mem_map.mp hh
      exact Handler.wake_fits _ (inv.fits g hg)
    · exact inv.fits h hh
  · intro h hh w after hpc
    simp only [access] at hh
    split at hh
    · rename_i q hq
      obtain ⟨g, hg, rfl⟩ := List.mem_map.mp hh
      unfold Handler.wake at hpc
      split at hpc
      · rename_i v place hgpc
        cases hpc
        unfold Wait.wake
        split
        · exact Wait.rouse_alert (inv.alert g hg v after hgpc)
        · rename_i hne
          refine access_alert inv hi rule hg hgpc fun heq => hne ?_
          rw [hq] at heq
          exact (Option.some.inj heq).symm
      · rename_i hne
        exact absurd hpc (hne w after)
    · rename_i hnone
      refine access_alert inv hi rule hh hpc fun heq => ?_
      rw [hnone] at heq
      cases heq

theorem handler_sound {s : State ρ} {i : Nat} {h : Handler ρ} {m : Words ρ} {pc : Pc ρ}
    (halarm : Alarming alarm) (inv : Sound alarm caller s) (hi : s.handlers[i]? = some h)
    (hstep : h.step s.words = some (m, pc)) :
    Sound alarm caller {s with words := m, handlers := s.handlers.set i {h with pc := pc}} := by
  have hh := List.mem_of_getElem? hi
  have hfits := inv.fits h hh
  -- what the handler has done to the words, and where it is now
  obtain ⟨hlowers, hfits', halert⟩ : Lowers s.words m ∧ ({h with pc := pc} : Handler ρ).Fits ∧
      ∀ w after, pc = .waits w after → w.Alert (alarm m) (Coming caller s.threads) := by
    unfold Handler.step at hstep
    split at hstep
    · rename_i p hpc
      unfold Handler.Fits at hfits
      rw [hpc] at hfits
      obtain ⟨hlowers, hfits', hstart⟩ := Handler.place_spec hfits hstep
      refine ⟨hlowers, hfits', fun w after heq => ?_⟩
      obtain ⟨queue, tests, signal, rfl⟩ := hstart w after heq
      exact Wait.start_alert queue tests signal
    · rename_i w after hpc
      unfold Handler.Fits at hfits
      rw [hpc] at hfits
      obtain ⟨hhere, hw⟩ := hfits
      have hwalert := inv.alert h hh w after hpc
      obtain ⟨next, hnext, heq⟩ := Option.map_eq_some_iff.mp hstep
      cases next with
      | wait v =>
        cases heq
        obtain ⟨hvalert, hqueue, htests⟩ := Wait.next_alert hwalert (halarm.test s.words) hnext
        refine ⟨.same, ⟨hhere, ?_⟩, fun u place hu => ?_⟩
        · cases after <;> simp only [Handler.Waiting, hqueue, htests] <;> exact hw
        · cases hu
          exact hvalert
      | done =>
        cases heq
        exact ⟨.same, hhere, fun u place hu => by cases hu⟩
      | restart =>
        cases heq
        refine ⟨.same, ?_, fun u place hu => ?_⟩
        · cases after <;> first | exact hhere | trivial
        · cases after <;> cases hu
    · cases hstep
  refine ⟨inv.threads, Machine.forall_mem_set inv.fits (fun _ h => h) hfits', ?_⟩
  refine Machine.forall_mem_set inv.alert (fun g hg w after hpc => ?_) halert
  exact (hg w after hpc).change (fun hcome => hcome)
    (.inr fun t _ => halarm.lowers s.words m t hlowers)

/-- **A step keeps everybody alert**, if it is heralded. -/
theorem step_sound (halarm : Alarming alarm) {s t : State ρ} {l : Label ρ}
    (inv : Sound alarm caller s) (rule : Heralded alarm caller s l) (h : step s l = some t) :
    Sound alarm caller t := by
  cases l with
  | call c =>
    cases h
    refine ⟨fun th hth => ?_, inv.fits, fun h hh w after hpc => ?_⟩
    · obtain hth | hth := List.mem_append.mp hth
      · exact inv.threads th hth
      · obtain rfl := List.mem_singleton.mp hth
        exact List.suffix_refl _
    · refine (inv.alert h hh w after hpc).change (fun ⟨th, hth, hcome⟩ => ?_) (.inr fun _ _ h => h)
      exact ⟨th, List.mem_append_left _ hth, hcome⟩
  | thread i =>
    simp only [step] at h
    split at h
    · rename_i c a rest hi
      cases h
      exact access_sound inv hi rule
    · cases h
  | ioctl command file =>
    cases h
    refine ⟨inv.threads, fun h hh => ?_, fun h hh w after hpc => ?_⟩
    · obtain hh | hh := List.mem_append.mp hh
      · exact inv.fits h hh
      · obtain rfl := List.mem_singleton.mp hh
        cases command with
        | response kind ch => exact ⟨rfl, .inl rfl⟩
        | event | eventV2 => exact Eq.refl false
    · obtain hh | hh := List.mem_append.mp hh
      · exact inv.alert h hh w after hpc
      · obtain rfl := List.mem_singleton.mp hh
        cases hpc
  | handler i =>
    obtain ⟨h', hi, hstep⟩ := Option.bind_eq_some_iff.mp h
    obtain ⟨⟨m, pc⟩, hmoves, rfl⟩ := Option.map_eq_some_iff.mp hstep
    exact handler_sound halarm inv hi hmoves
  | signal i =>
    obtain ⟨h', hi, rfl⟩ := Option.map_eq_some_iff.mp h
    have hh := List.mem_of_getElem? hi
    refine ⟨inv.threads,
      Machine.forall_mem_set inv.fits (fun _ h => h) (Handler.interrupt_fits (inv.fits h' hh)), ?_⟩
    refine Machine.forall_mem_set inv.alert (fun _ h => h) fun w after hpc => ?_
    unfold Handler.interrupt at hpc
    split at hpc
    · rename_i v place hvpc
      cases hpc
      exact Wait.interrupt_alert (inv.alert h' hh v after hvpc)
    · rename_i hne
      exact absurd hpc (hne w after)

end Invariant

end DxNpuDriver.Rt.Waiters
