import DxNpuDriver.Edma.VirtDma

/-! What the drains of a channel and its tasklet leave of each other's work.

`drain_final` is about the drained: they stay silent if nothing schedules the tasklet
between `tasklet_kill` and the collection. `run_delivers` is about the others: what has
completed is called back, if it did not complete under a `tasklet_kill`. -/
namespace DxNpuDriver.Edma.VirtDma
open Machine (run run_cons invariant)

/-! ### What a drain leaves -/

/-- After `tasklet_kill` the tasklet rests until it is scheduled. -/
def Quiet (s : State) : Prop :=
  ∀ head, .collect head false ∈ s.drains → s.tasklet = .idle ∧ s.sched ≠ .queued

theorem Quiet.schedule {s : State} (inv : Quiet s) : Quiet (taskletSchedule s) := by
  obtain ⟨-, h⟩ | ⟨-, h⟩ := taskletSchedule_cases s
  · rw [h]
    exact inv
  · rw [h]
    intro head hmem
    obtain ⟨d, -, hd⟩ := List.mem_map.mp hmem
    cases d <;> cases hd

theorem Drain.step_quiet {s t : State} {i : Nat} {d : Drain} (inv : Quiet s)
    (h : d.step s i = some t) : Quiet t := by
  intro head hmem
  cases d with
  | enter head' flush =>
    simp only [Drain.step, Option.ite_none_right_eq_some, Option.some.injEq] at h
    obtain ⟨-, rfl⟩ := h
    obtain hmem | hmem := List.mem_or_eq_of_mem_set hmem
    · exact ⟨(inv head hmem).1, (by decide : Sched.kill ≠ .queued)⟩
    · cases hmem
  | kill head' flush =>
    simp only [Drain.step, Option.ite_none_right_eq_some, Option.some.injEq] at h
    obtain ⟨hidle, rfl⟩ := h
    exact ⟨hidle, (by decide : Sched.clear ≠ .queued)⟩
  | collect head' late =>
    cases h
    obtain hmem | hmem := List.mem_or_eq_of_mem_set hmem
    · exact inv head hmem
    · cases hmem
  | free head' =>
    cases head' with
    | nil => cases h
    | cons id rest =>
      cases h
      obtain hmem | hmem := List.mem_or_eq_of_mem_set hmem
      · exact inv head hmem
      · cases hmem

theorem step_quiet (s : State) (l : Label) (t : State) (inv : Quiet s) (h : step s l = some t) :
    Quiet t := by
  cases l with
  | prep | issue =>
    cases h
    exact inv
  | submit id =>
    simp only [step, Option.ite_none_right_eq_some, Option.some.injEq] at h
    obtain ⟨-, rfl⟩ := h
    exact inv
  | complete =>
    simp only [step] at h
    split at h
    · cases h
    · cases h
      exact Quiet.schedule inv
  | hiSchedule =>
    cases h
    exact inv.schedule
  | begin =>
    simp only [step, Option.ite_none_right_eq_some, Option.some.injEq] at h
    obtain ⟨⟨hqueued, -⟩, rfl⟩ := h
    exact fun head hmem => absurd hqueued (inv head hmem).2
  | splice | finish =>
    simp only [step, Option.ite_none_right_eq_some, Option.some.injEq] at h
    obtain ⟨hruns, rfl⟩ := h
    intro head hmem
    rw [(inv head hmem).1] at hruns
    cases hruns
  | callback | fini =>
    simp only [step] at h
    split at h
    · rename_i hruns
      cases h
      intro head hmem
      rw [(inv head hmem).1] at hruns
      cases hruns
    · cases h
  | drain early =>
    intro head hmem
    simp only [step] at h
    split at h <;> cases h <;> obtain hmem | hmem := List.mem_append.mp hmem
    · exact inv head hmem
    · cases List.mem_singleton.mp hmem
    · exact inv head hmem
    · cases List.mem_singleton.mp hmem
  | flush =>
    cases h
    intro head hmem
    obtain hmem | hmem := List.mem_append.mp hmem
    · exact inv head hmem
    · cases List.mem_singleton.mp hmem
  | thread i =>
    obtain ⟨d, -, hd⟩ := Option.bind_eq_some_iff.mp h
    exact Drain.step_quiet inv hd

/-- The channel has nothing that was made before the `n`th descriptor. -/
def Later (n : Nat) (s : State) : Prop := n ≤ s.made ∧ ∀ id ∈ s.live, n ≤ id

theorem step_later {n : Nat} {s t : State} {l : Label} (inv : Later n s) (h : step s l = some t) :
    Later n t := by
  obtain ⟨hmade, hlive⟩ := inv
  cases step_moves h with
  | made live gone made =>
    refine ⟨by omega, fun id hid => ?_⟩
    obtain hid | hid := List.mem_append.mp (live.mem_iff.mp hid)
    · exact hlive id hid
    · rw [List.mem_singleton.mp hid]
      exact hmade
  | moved ids live gone made =>
    exact ⟨by omega, fun id hid => hlive id (live.mem_iff.mpr (List.mem_append_left _ hid))⟩

/-- From there on only what was made later is called back. -/
theorem run_later {n : Nat} {ls : List Label} {s t : State} (inv : Later n s)
    (h : run step s ls = some t) :
    Later n t ∧ ∃ more, t.events = s.events ++ more ∧ ∀ d, .callback d ∈ more → n ≤ d.id := by
  induction ls generalizing s with
  | nil =>
    cases h
    exact ⟨inv, [], (List.append_nil _).symm, fun d hd => absurd hd List.not_mem_nil⟩
  | cons l rest ih =>
    obtain ⟨u, hu, hrest⟩ := (run_cons step).mp h
    obtain ⟨hend, more, hmore, hlater⟩ := ih (step_later inv hu) hrest
    refine ⟨hend, ?_⟩
    cases step_reports hu with
    | nothing hevents =>
      rw [hevents] at hmore
      exact ⟨more, hmore, hlater⟩
    | callback d head hloop hevents =>
      rw [hevents, List.append_assoc] at hmore
      refine ⟨_, hmore, fun e he => ?_⟩
      obtain he | he := List.mem_cons.mp he
      · cases he
        refine inv.2 d.id ?_
        unfold State.live
        rw [hloop]
        exact List.mem_append_left _ (List.mem_append_right _ List.mem_cons_self)
      · exact hlater e he
    | free id held hevents =>
      rw [hevents, List.append_assoc] at hmore
      refine ⟨_, hmore, fun e he => ?_⟩
      obtain he | he := List.mem_cons.mp he
      · cases he
      · exact hlater e he

/-- A transfer that completes between `tasklet_kill` and the collection is called back after
the drain has left. -/
example : (run step initial [.prep, .submit 0, .issue, .drain false, .thread 0, .thread 0,
    .complete, .begin, .splice, .thread 0, .callback]).map (fun s => (s.drains, s.events)) =
      some ([.free []], [.callback ⟨0, 1, 0⟩]) := by
  decide

/-! ### Delivery -/

/-- Nothing completes while `tasklet_kill` has SCHED. -/
def Unlocked (s : State) (l : Label) : Prop := l = .complete → s.sched ≠ .kill

instance (s : State) (l : Label) : Decidable (Unlocked s l) :=
  inferInstanceAs (Decidable (_ → _))

theorem unlocked_fini (s : State) : Unlocked s .fini := by
  intro hsame
  cases hsame

def Drain.holds : Drain → Bool
  | .kill _ _ => true
  | .enter _ _ | .collect _ _ | .free _ => false

/-- SCHED is held by the drain that is in `tasklet_kill`, and what has completed has its
tasklet scheduled. -/
structure Due (s : State) : Prop where
  locked : s.drains.countP Drain.holds = if s.sched = .kill then 1 else 0
  pending : s.completed ≠ [] → s.sched = .queued ∨ s.tasklet = .entered

theorem due_initial : Due initial := ⟨rfl, fun h => absurd rfl h⟩

theorem countP_schedule (drains : List Drain) :
    (drains.map Drain.schedule).countP Drain.holds = drains.countP Drain.holds := by
  rw [List.countP_map]
  congr 1
  funext d
  cases d <;> rfl

theorem due_schedule {s : State} (hkill : s.sched ≠ .kill)
    (hlocked : s.drains.countP Drain.holds = if s.sched = .kill then 1 else 0) :
    Due (taskletSchedule s) := by
  obtain ⟨hclear, h⟩ | ⟨hclear, h⟩ := taskletSchedule_cases s
  · rw [h]
    refine ⟨hlocked, fun _ => .inl ?_⟩
    cases hsched : s.sched with
    | clear => exact absurd hsched hclear
    | queued => rfl
    | kill => exact absurd hsched hkill
  · rw [h]
    refine ⟨?_, fun _ => .inl rfl⟩
    rw [hclear] at hlocked
    show (s.drains.map Drain.schedule).countP Drain.holds = 0
    rw [countP_schedule, hlocked]
    rfl

theorem Drain.step_due {s t : State} {i : Nat} {d : Drain} (inv : Due s)
    (hi : s.drains[i]? = some d) (h : d.step s i = some t) : Due t := by
  obtain ⟨hlocked, hpending⟩ := inv
  have hmove := fun e => Machine.countP_move Drain.holds (y := e) hi
  cases d with
  | enter head flush =>
    simp only [Drain.step, Option.ite_none_right_eq_some, Option.some.injEq] at h
    obtain ⟨hclear, rfl⟩ := h
    refine ⟨?_, fun hne => .inr ?_⟩
    · have hcount := hmove (.kill head flush)
      rw [hlocked, hclear] at hcount
      exact hcount
    · refine (hpending hne).resolve_left ?_
      rw [hclear]
      intro hsame
      cases hsame
  | kill head flush =>
    simp only [Drain.step, Option.ite_none_right_eq_some, Option.some.injEq] at h
    obtain ⟨hidle, rfl⟩ := h
    -- the one that holds SCHED is this one
    have hkill : s.sched = .kill := by
      by_contra hkill
      rw [if_neg hkill, List.countP_eq_zero] at hlocked
      exact hlocked _ (List.mem_of_getElem? hi) rfl
    refine ⟨?_, fun hne => ?_⟩
    · have hcount := hmove (if flush then .free head else .collect head false)
      have hnot : Drain.holds (if flush then .free head else .collect head false) = false := by
        cases flush <;> rfl
      rw [hlocked, hkill, hnot] at hcount
      exact Nat.succ.inj hcount
    · obtain hsched | hentered := hpending hne
      · rw [hkill] at hsched
        cases hsched
      · rw [hidle] at hentered
        cases hentered
  | collect head late =>
    cases h
    refine ⟨?_, fun hne => absurd rfl hne⟩
    have hcount := hmove (.free (head ++ s.all))
    exact hcount.trans hlocked
  | free head =>
    cases head with
    | nil => cases h
    | cons id rest =>
      cases h
      refine ⟨?_, hpending⟩
      have hcount := hmove (.free rest)
      exact hcount.trans hlocked

theorem step_due (s : State) (l : Label) (t : State) (inv : Due s) (rule : Unlocked s l)
    (h : step s l = some t) : Due t := by
  cases l with
  | prep | issue =>
    cases h
    exact ⟨inv.locked, inv.pending⟩
  | submit id =>
    simp only [step, Option.ite_none_right_eq_some, Option.some.injEq] at h
    obtain ⟨-, rfl⟩ := h
    exact ⟨inv.locked, inv.pending⟩
  | complete =>
    simp only [step] at h
    split at h
    · cases h
    · cases h
      exact due_schedule (rule rfl) inv.locked
  | hiSchedule =>
    cases h
    by_cases hkill : s.sched = .kill
    · obtain ⟨-, hsame⟩ | ⟨hclear, -⟩ := taskletSchedule_cases s
      · rw [hsame]
        exact inv
      · rw [hkill] at hclear
        cases hclear
    · exact due_schedule hkill inv.locked
  | begin =>
    simp only [step, Option.ite_none_right_eq_some, Option.some.injEq] at h
    obtain ⟨⟨hqueued, -⟩, rfl⟩ := h
    refine ⟨?_, fun _ => .inr rfl⟩
    have hlocked := inv.locked
    rw [hqueued] at hlocked
    exact hlocked
  | splice =>
    simp only [step, Option.ite_none_right_eq_some, Option.some.injEq] at h
    obtain ⟨-, rfl⟩ := h
    exact ⟨inv.locked, fun hne => absurd rfl hne⟩
  | callback | fini =>
    simp only [step] at h
    split at h
    · rename_i hruns
      cases h
      refine ⟨inv.locked, fun hne => .inl ((inv.pending hne).resolve_right ?_)⟩
      rw [hruns]
      intro hsame
      cases hsame
    · cases h
  | finish =>
    simp only [step, Option.ite_none_right_eq_some, Option.some.injEq] at h
    obtain ⟨hruns, rfl⟩ := h
    refine ⟨inv.locked, fun hne => .inl ((inv.pending hne).resolve_right ?_)⟩
    rw [hruns]
    intro hsame
    cases hsame
  | drain early =>
    simp only [step] at h
    split at h
    · cases h
      refine ⟨?_, fun hne => absurd rfl hne⟩
      show (s.drains ++ [_]).countP _ = _
      rw [List.countP_append]
      exact inv.locked
    · cases h
      refine ⟨?_, inv.pending⟩
      show (s.drains ++ [_]).countP _ = _
      rw [List.countP_append]
      exact inv.locked
  | flush =>
    cases h
    refine ⟨?_, inv.pending⟩
    show (s.drains ++ [_]).countP _ = _
    rw [List.countP_append]
    exact inv.locked
  | thread i =>
    obtain ⟨d, hi, hd⟩ := Option.bind_eq_some_iff.mp h
    exact Drain.step_due inv hi hd

def Label.ofTasklet : Label → Bool
  | .begin | .splice | .callback | .fini | .finish => true
  | _ => false

/-- The tasklet leads from one state to the other by itself. -/
def Leads (s t : State) : Prop :=
  ∃ ls, (∀ l ∈ ls, Label.ofTasklet l = true) ∧ run step s ls = some t

theorem Leads.refl (s : State) : Leads s s := ⟨[], List.forall_mem_nil _, rfl⟩

theorem Leads.head {s t u : State} {l : Label} (hl : l.ofTasklet = true) (h : step s l = some t)
    (rest : Leads t u) : Leads s u := by
  obtain ⟨ls, hls, hrun⟩ := rest
  exact ⟨l :: ls, List.forall_mem_cons.mpr ⟨hl, hls⟩, (run_cons step).mpr ⟨t, h, hrun⟩⟩

theorem Leads.trans {s t u : State} (h : Leads s t) (rest : Leads t u) : Leads s u := by
  obtain ⟨ls, hls, hrun⟩ := h
  obtain ⟨ls', hls', hrun'⟩ := rest
  exact ⟨ls ++ ls', List.forall_mem_append.mpr ⟨hls, hls'⟩,
    (Machine.run_append step).mpr ⟨t, hrun, hrun'⟩⟩

/-- The loop calls back and frees what it has taken, and ends. -/
theorem loop_leads {head : List Tx} {s : State} (h : s.tasklet = .loop head) :
    ∃ t, Leads s t ∧ t.tasklet = .idle ∧ t.called = s.called ++ head ∧ t.completed = s.completed ∧
      t.sched = s.sched := by
  induction head generalizing s with
  | nil =>
    have hfinish : step s .finish = some {s with tasklet := .idle} := if_pos h
    refine ⟨_, .head rfl hfinish (.refl _), rfl, ?_, rfl, rfl⟩
    rw [List.append_nil]
    rfl
  | cons d head ih =>
    let called : State := {s with tasklet := .called d head, events := s.events ++ [.callback d]}
    have hcallback : step s .callback = some called := by
      simp only [step, h]
      rfl
    let next : State := {called with tasklet := .loop head, events := called.events ++ [.free d.id]}
    have hfini : step called .fini = some next := rfl
    obtain ⟨t, hleads, hidle, htcalled, hcompleted, hsched⟩ := @ih next rfl
    refine ⟨t, .head rfl hcallback (.head rfl hfini hleads), hidle, ?_, hcompleted, hsched⟩
    have hnext : next.called = s.called ++ [d] :=
      (called_free called d.id).trans (called_callback s d)
    rw [htcalled, hnext, List.append_assoc]
    rfl

theorem entered_leads {s : State} (h : s.tasklet = .entered) :
    ∃ t, Leads s t ∧ t.tasklet = .idle ∧ t.called = s.called ++ s.completed ∧ t.completed = [] := by
  have hsplice : step s .splice = some {s with tasklet := .loop s.completed, completed := []} :=
    if_pos h
  obtain ⟨t, hleads, hidle, hcalled, hcompleted, -⟩ :=
    @loop_leads s.completed {s with tasklet := .loop s.completed, completed := []} rfl
  exact ⟨t, .head rfl hsplice hleads, hidle, hcalled, hcompleted⟩

theorem idle_leads {s : State} (h : s.tasklet = .idle)
    (hpending : s.completed ≠ [] → s.sched = .queued) :
    ∃ t, Leads s t ∧ t.tasklet = .idle ∧ t.called = s.called ++ s.completed ∧ t.completed = [] := by
  by_cases hnone : s.completed = []
  · refine ⟨s, .refl s, h, ?_, hnone⟩
    rw [hnone, List.append_nil]
  · have hbegin : step s .begin = some {s with sched := .clear, tasklet := .entered} :=
      if_pos ⟨hpending hnone, h⟩
    obtain ⟨t, hleads, hidle, hcalled, hcompleted⟩ :=
      @entered_leads {s with sched := .clear, tasklet := .entered} rfl
    exact ⟨t, .head rfl hbegin hleads, hidle, hcalled, hcompleted⟩

theorem loop_delivers {s : State} {head : List Tx} (inv : Due s) (h : s.tasklet = .loop head) :
    ∃ t, Leads s t ∧ t.tasklet = .idle ∧ t.called = s.past ∧ t.completed = [] := by
  obtain ⟨u, hleads, hidle, hcalled, hcompleted, hsched⟩ := loop_leads h
  obtain ⟨t, hleads', hidle', hcalled', hcompleted'⟩ : ∃ t, Leads u t ∧ t.tasklet = .idle ∧
      t.called = u.called ++ u.completed ∧ t.completed = [] := by
    refine idle_leads hidle fun hne => ?_
    rw [hcompleted] at hne
    rw [hsched]
    refine (inv.pending hne).resolve_right ?_
    rw [h]
    intro hsame
    cases hsame
  refine ⟨t, hleads.trans hleads', hidle', ?_, hcompleted'⟩
  rw [hcalled', hcalled, hcompleted, State.past, h]
  rfl

end DxNpuDriver.Edma.VirtDma
