import DxNpuDriver.Lib.Machine
import DxNpuDriver.Lib.Published
import Mathlib.Data.List.Infix

/-! The callbacks that the PCIe module makes into the runtime module
(`dx_message.c`, `dxrt_drv_cdev.c`, `dxrt_drv_message.c`, `dxrt_drv_recovery.c`).

`dxrt_device_init_early` registers one callback for each kind of notification, with the
`struct dxdev` as its data. Interrupt handlers and the link worker call it under
`rcu_read_lock` and nothing else; `dxrt_event_notify` dereferences the data unseen, and
`dxrt_link_event_notify` schedules the readiness work, which is a part of that structure.
`remove_dxrt_device` takes the callbacks back one kind after another, cancels the work and
frees the structure. `run_alive` says that whatever still runs, the structure is still
there; `removal_ends`, that nothing can hold the removal up for good. -/
namespace DxNpuDriver.Pcie.Callback
open Published Machine

/-- One table of function pointers and one of data for each kind. -/
inductive Kind where
  | response
  | event
  | linkEvent
  deriving DecidableEq

/-- What creation and removal of a device do, one access at a time. -/
inductive Op where
  | access (k : Kind) (a : Act)
  | cancel
  | cancelled
  | free
  deriving DecidableEq

/-- `dx_pcie_register_response_callback` and its two siblings. -/
def register (k : Kind) : List Op := [.access k .store, .access k .publish]

/-- `dx_pcie_unregister_response_callback` and its two siblings; `synchronize_rcu` begins
and ends. -/
def unregister (k : Kind) : List Op :=
  [.access k .retract, .access k .sync, .access k .synced, .access k .clear]

/-- `dxrt_device_init_early`. -/
def deviceInitEarly : List Op := register .response ++ register .event ++ register .linkEvent

/-- `remove_dxrt_device`; `cancel_delayed_work_sync` takes the work off the queue and waits
for it to end. -/
def removeDevice : List Op :=
  unregister .response ++ unregister .event ++ unregister .linkEvent ++ [.cancel, .cancelled, .free]

/-- A `struct dxdev`, by the order in which they are allocated. -/
abbrev Dev := Nat

structure State where
  cells : Kind → Cell Dev
  next : Dev
  device : Option Dev
  /-- What is left of the creation or the removal. -/
  todo : List Op
  files : Nat
  queued : List Dev
  running : List Dev

inductive Label where
  | load
  | rt
  | unload
  | openFile
  | closeFile
  | notifier (k : Kind) (l : Published.Label)
  /-- A link-event notifier schedules the readiness work of the device it holds. -/
  | linkUp (i : Nat)
  /-- An ioctl on an open file schedules it. -/
  | kick
  | workBegins (d : Dev)
  | workEnds (d : Dev)
  deriving DecidableEq

def initial : State := ⟨fun _ => Published.initial, 0, none, [], 0, [], []⟩

/-- `schedule_delayed_work` on the work of `d`; it is refused while the work is being cancelled. -/
def State.schedule (s : State) (d : Dev) : State :=
  if d ∈ s.queued ∨ (s.device = some d ∧ s.todo.head? = some .cancelled) then s
  else {s with queued := d :: s.queued}

/-- The next access of the creation or the removal of `d`. -/
def State.exec (s : State) (d : Dev) (rest : List Op) : Op → Option State
  | .access k a => ((s.cells k).write d a).map fun c =>
    {s with cells := Function.update s.cells k c, todo := rest}
  | .cancel => some {s with queued := s.queued.filter (· ≠ d), todo := rest}
  | .cancelled => if d ∈ s.running then none else some {s with todo := rest}
  | .free => some {s with device := none, todo := rest}

def step (s : State) : Label → Option State
  | .load =>
    match s.device with
    | none => some {s with device := some s.next, next := s.next + 1, todo := deviceInitEarly}
    | some _ => none
  | .rt =>
    match s.device, s.todo with
    | some d, o :: rest => s.exec d rest o
    | _, _ => none
  | .unload =>
    -- an open file holds a reference to the module
    if s.device.isSome ∧ s.todo = [] ∧ s.files = 0 then some {s with todo := removeDevice} else none
  | .openFile => if s.device.isSome ∧ s.todo = [] then some {s with files := s.files + 1} else none
  | .closeFile => if s.files = 0 then none else some {s with files := s.files - 1}
  | .notifier k l => ((s.cells k).read l).map fun c => {s with cells := Function.update s.cells k c}
  | .linkUp i =>
    match (s.cells .linkEvent).readers[i]? with
    | some (.holding (some d)) => some (s.schedule d)
    | _ => none
  | .kick =>
    match s.device with
    | some d => if s.files = 0 then none else some (s.schedule d)
    | none => none
  | .workBegins d =>
    if d ∈ s.queued ∧ d ∉ s.running then
      some {s with queued := s.queued.filter (· ≠ d), running := d :: s.running}
    else none
  | .workEnds d => if d ∈ s.running then some {s with running := s.running.filter (· ≠ d)} else none

/-! ### The invariant -/

/-- What is still to come for the device, its removal included. -/
def State.plan (s : State) : List Op := if .free ∈ s.todo then s.todo else s.todo ++ removeDevice

/-- The accesses to the tables of one kind. -/
def acts (k : Kind) (ops : List Op) : List Act :=
  ops.filterMap fun
    | .access k' a => if k' = k then some a else none
    | _ => none

theorem acts_self (k : Kind) (a : Act) (ops : List Op) :
    acts k (.access k a :: ops) = a :: acts k ops := by
  simp [acts]

theorem acts_other {k k' : Kind} (hk : k' ≠ k) (a : Act) (ops : List Op) :
    acts k (.access k' a :: ops) = acts k ops := by
  simp [acts, hk]

/-- All that is ever done for a device. -/
def life : List Op := deviceInitEarly ++ removeDevice

/-- What the order of `remove_dxrt_device` comes to. -/
def Ordered (p : List Op) : Prop :=
  (acts .linkEvent p ≠ [] → Op.cancel ∈ p) ∧ (Op.cancel ∈ p → Op.cancelled ∈ p) ∧
    (p.head? = some Op.free → p = [Op.free])

instance (p : List Op) : Decidable (Ordered p) := inferInstanceAs (Decidable (_ ∧ _ ∧ _))

theorem ordered_suffix {p : List Op} (h : p <:+ life) : Ordered p := by
  have all : ∀ q ∈ life.tails, Ordered q := by decide
  exact all p ((List.mem_tails p life).mpr h)

structure Sound (s : State) : Prop where
  guarded : ∀ k, Guarded (s.cells k)
  plan : s.device.isSome → s.plan <:+ life
  due : s.device.isSome → ∀ k, (s.cells k).writer.Due (acts k s.plan)
  absent : s.device = none → ∀ k, (s.cells k).writer = .idle
  word : ∀ k d, (s.cells k).word = some d → s.device = some d
  queued : ∀ d ∈ s.queued, s.device = some d ∧ .cancel ∈ s.plan
  running : ∀ d ∈ s.running, s.device = some d ∧ .cancelled ∈ s.plan
  files : s.files ≠ 0 → s.device.isSome ∧ .free ∉ s.todo

theorem sound_initial : Sound initial where
  guarded := fun _ => guarded_initial
  plan := nofun
  due := nofun
  absent := fun _ _ => rfl
  word := nofun
  queued := nofun
  running := nofun
  files := fun h => absurd rfl h

/-- What is done is the first of what was still to come. -/
theorem plan_rest {s : State} (t : State) {o : Op} {rest : List Op} (ho : o ≠ .free)
    (hs : s.todo = o :: rest) (ht : t.todo = rest) : s.plan = o :: t.plan := by
  have hfree : Op.free ∈ s.todo ↔ Op.free ∈ t.todo := by
    rw [hs, ht, List.mem_cons]
    exact or_iff_right fun h => ho h.symm
  unfold State.plan
  by_cases h : Op.free ∈ t.todo
  · rw [if_pos h, if_pos (hfree.mpr h), hs, ht]
  · rw [if_neg h, if_neg (hfree.not.mpr h), hs, ht]
    rfl

theorem mem_plan_rest {s t : State} {o p : Op} (h : s.plan = o :: t.plan) (hp : p ≠ o)
    (hmem : p ∈ s.plan) : p ∈ t.plan := by
  rw [h] at hmem
  exact List.mem_of_ne_of_mem hp hmem

theorem plan_congr {s t : State} (h : t.todo = s.todo) : t.plan = s.plan := by
  unfold State.plan
  rw [h]

/-- Where the steps of notifiers and files leave the device and its plan alone, the tables
are all that matters. -/
theorem Sound.of_cells {s t : State} (inv : Sound s) (hdevice : t.device = s.device)
    (htodo : t.todo = s.todo) (hguarded : ∀ k, Guarded (t.cells k))
    (hdue : ∀ k as, (s.cells k).writer.Due as → (t.cells k).writer.Due as)
    (habsent : ∀ k, (s.cells k).writer = .idle → (t.cells k).writer = .idle)
    (hword : ∀ k, (t.cells k).word = (s.cells k).word)
    (hqueued : ∀ d ∈ t.queued, d ∈ s.queued ∨ (s.device = some d ∧ .cancel ∈ s.plan))
    (hrunning : ∀ d ∈ t.running, d ∈ s.running ∨ (s.device = some d ∧ .cancelled ∈ s.plan))
    (hfiles : t.files ≠ 0 → s.device.isSome ∧ .free ∉ s.todo) : Sound t where
  guarded := hguarded
  plan := by
    rw [plan_congr htodo, hdevice]
    exact inv.plan
  due := by
    rw [plan_congr htodo, hdevice]
    exact fun hd k => hdue k _ (inv.due hd k)
  absent := by
    rw [hdevice]
    exact fun hd k => habsent k (inv.absent hd k)
  word := by
    intro k d hw
    rw [hdevice]
    exact inv.word k d ((hword k).symm.trans hw)
  queued := by
    intro d hd
    rw [plan_congr htodo, hdevice]
    exact (hqueued d hd).elim (inv.queued d) id
  running := by
    intro d hd
    rw [plan_congr htodo, hdevice]
    exact (hrunning d hd).elim (inv.running d) id
  files := by
    rw [htodo, hdevice]
    exact hfiles

/-- A notifier that has found the callback does so before the removal has waited for it. -/
theorem Sound.found {s : State} (inv : Sound s) {k : Kind} {i : Nat} {r : Reader Dev}
    (hi : (s.cells k).readers[i]? = some r) (hf : r.found = true) :
    ∃ d, s.device = some d ∧ (s.cells k).word = some d ∧ acts k s.plan ≠ [] := by
  obtain ⟨d, hd⟩ := (inv.guarded k).word_there hi hf
  have hdevice := inv.word k d hd
  refine ⟨d, hdevice, hd, fun hnone => ?_⟩
  have hkeeps := (inv.guarded k).found i r hi hf
  have hdue := inv.due (by rw [hdevice]; rfl) k
  rw [hnone] at hdue
  cases hw : (s.cells k).writer with
  | idle | stored | waited =>
    rw [hw] at hkeeps
    exact hkeeps
  | published | retracted | waiting readers =>
    rw [hw] at hdue
    cases hdue

/-- Readiness work that is scheduled for the device before it is cancelled. -/
theorem Sound.schedule {s : State} (inv : Sound s) {d : Dev} (hdevice : s.device = some d)
    (hcancel : .cancel ∈ s.plan) : Sound (s.schedule d) := by
  unfold State.schedule
  split
  · exact inv
  · refine inv.of_cells rfl rfl inv.guarded (fun _ _ => id) (fun _ => id) (fun _ => rfl) ?_
      (fun _ => .inl) inv.files
    intro e he
    cases he with
    | head => exact .inr ⟨hdevice, hcancel⟩
    | tail _ he => exact .inl he

/-- One access of the creation or the removal. -/
theorem exec_sound {s t : State} {d : Dev} {o : Op} {rest : List Op} (inv : Sound s)
    (hdevice : s.device = some d) (htodo : s.todo = o :: rest) (h : s.exec d rest o = some t) :
    Sound t := by
  have hsome : s.device.isSome := by
    rw [hdevice]
    rfl
  have hsuffix := inv.plan hsome
  cases o with
  | access k a =>
    simp only [State.exec, Option.map_eq_some_iff] at h
    obtain ⟨c, hc, rfl⟩ := h
    have hplan := plan_rest {s with cells := Function.update s.cells k c, todo := rest} (by simp) htodo
      rfl
    rw [hplan] at hsuffix
    have cells_of : ∀ k', k' ≠ k → Function.update s.cells k c k' = s.cells k' :=
      fun _ hk => Function.update_of_ne hk _ _
    refine ⟨fun k' => ?_, fun _ => (List.suffix_cons _ _).trans hsuffix, fun _ k' => ?_,
      fun hnone => ?_, fun k' e he => ?_, fun e he => ?_, fun e he => ?_, fun hfiles => ?_⟩
    · by_cases hk : k' = k
      · subst hk
        show Guarded (Function.update s.cells k' c k')
        rw [Function.update_self]
        exact write_guarded (inv.guarded _) hc
      · show Guarded (Function.update s.cells k c k')
        rw [cells_of k' hk]
        exact inv.guarded k'
    · have hdue := inv.due hsome k'
      rw [hplan] at hdue
      by_cases hk : k' = k
      · subst hk
        rw [acts_self] at hdue
        show (Function.update s.cells k' c k').writer.Due _
        rw [Function.update_self]
        exact due_write hdue hc
      · rw [acts_other (fun h => hk h.symm)] at hdue
        show (Function.update s.cells k c k').writer.Due _
        rw [cells_of k' hk]
        exact hdue
    · rw [show s.device = none from hnone] at hdevice
      cases hdevice
    · show s.device = some e
      by_cases hk : k' = k
      · subst hk
        change (Function.update s.cells k' c k').word = some e at he
        rw [Function.update_self] at he
        obtain rfl | he := word_of_write hc he
        · exact hdevice
        · exact inv.word _ e he
      · change (Function.update s.cells k c k').word = some e at he
        rw [cells_of k' hk] at he
        exact inv.word k' e he
    · exact ⟨(inv.queued e he).1, mem_plan_rest hplan nofun (inv.queued e he).2⟩
    · exact ⟨(inv.running e he).1, mem_plan_rest hplan nofun (inv.running e he).2⟩
    · exact ⟨hsome, fun hfree => (inv.files hfiles).2 (htodo ▸ List.mem_cons_of_mem _ hfree)⟩
  | cancel =>
    cases h
    have hplan := plan_rest {s with queued := s.queued.filter (· ≠ d), todo := rest} (by simp) htodo
      rfl
    rw [hplan] at hsuffix
    refine ⟨inv.guarded, fun _ => (List.suffix_cons _ _).trans hsuffix, fun _ k => ?_, inv.absent,
      inv.word, fun e he => ?_, fun e he => ?_, fun hfiles => ?_⟩
    · have hdue := inv.due hsome k
      rw [hplan] at hdue
      exact hdue
    · -- only the work of this device was on the queue
      obtain ⟨hmem, hne⟩ := List.mem_filter.mp he
      obtain ⟨hd, -⟩ := inv.queued e hmem
      rw [hdevice] at hd
      cases hd
      simp at hne
    · exact ⟨(inv.running e he).1, mem_plan_rest hplan nofun (inv.running e he).2⟩
    · exact ⟨hsome, fun hfree => (inv.files hfiles).2 (htodo ▸ List.mem_cons_of_mem _ hfree)⟩
  | cancelled =>
    simp only [State.exec, Option.ite_none_left_eq_some] at h
    obtain ⟨hrun, h⟩ := h
    cases h
    have hplan := plan_rest {s with todo := rest} (by simp) htodo rfl
    rw [hplan] at hsuffix
    refine ⟨inv.guarded, fun _ => (List.suffix_cons _ _).trans hsuffix, fun _ k => ?_, inv.absent,
      inv.word, fun e he => ?_, fun e he => ?_, fun hfiles => ?_⟩
    · have hdue := inv.due hsome k
      rw [hplan] at hdue
      exact hdue
    · exact ⟨(inv.queued e he).1, mem_plan_rest hplan nofun (inv.queued e he).2⟩
    · obtain ⟨hd, -⟩ := inv.running e he
      rw [hdevice] at hd
      cases hd
      exact (hrun he).elim
    · exact ⟨hsome, fun hfree => (inv.files hfiles).2 (htodo ▸ List.mem_cons_of_mem _ hfree)⟩
  | free =>
    cases h
    have hfree : Op.free ∈ s.todo := by
      rw [htodo]
      exact List.mem_cons_self
    have hplan : s.plan = .free :: rest := by
      rw [State.plan, if_pos hfree, htodo]
    have hlast : s.plan = [.free] := (ordered_suffix hsuffix).2.2 (by rw [hplan]; rfl)
    have idle : ∀ k, (s.cells k).writer = .idle := by
      intro k
      have hdue := inv.due hsome k
      rw [hlast] at hdue
      cases hw : (s.cells k).writer with
      | idle => rfl
      | _ =>
        rw [hw] at hdue
        cases hdue
    refine ⟨inv.guarded, nofun, nofun, fun _ => idle, fun k e he => ?_, fun e he => ?_,
      fun e he => ?_, fun hfiles => ?_⟩
    · rw [show (s.cells k).word = none from (inv.guarded k).word.mpr (idle k)] at he
      cases he
    · obtain ⟨-, hmem⟩ := inv.queued e he
      rw [hlast] at hmem
      simp at hmem
    · obtain ⟨-, hmem⟩ := inv.running e he
      rw [hlast] at hmem
      simp at hmem
    · exact ((inv.files hfiles).2 hfree).elim

theorem step_sound (s : State) (l : Label) (t : State) (inv : Sound s) (h : step s l = some t) :
    Sound t := by
  cases l with
  | load =>
    simp only [step] at h
    split at h
    · rename_i hdevice
      cases h
      have idle := inv.absent hdevice
      have none_of : ∀ {d : Dev}, s.device = some d → False := by
        intro d hd
        rw [hdevice] at hd
        cases hd
      refine ⟨inv.guarded, fun _ => List.suffix_refl _, fun _ k => ?_, nofun, fun k d hd => ?_,
        fun d hd => ?_, fun d hd => ?_, fun hfiles => ?_⟩
      · show (s.cells k).writer.Due _
        rw [idle k]
        right
        cases k <;> rfl
      · rw [show (s.cells k).word = none from (inv.guarded k).word.mpr (idle k)] at hd
        cases hd
      · exact (none_of (inv.queued d hd).1).elim
      · exact (none_of (inv.running d hd).1).elim
      · have hsome := (inv.files hfiles).1
        rw [hdevice] at hsome
        cases hsome
    · cases h
  | rt =>
    simp only [step] at h
    split at h
    · rename_i d o rest hdevice htodo
      exact exec_sound inv hdevice htodo h
    · cases h
  | unload =>
    simp only [step, Option.ite_none_right_eq_some, Option.some.injEq] at h
    obtain ⟨⟨hsome, htodo, hfiles⟩, rfl⟩ := h
    have hplan : s.plan = removeDevice := by
      rw [State.plan, htodo]
      rfl
    have hsuffix := inv.plan hsome
    have hdue := inv.due hsome
    have hqueued := inv.queued
    have hrunning := inv.running
    rw [hplan] at hsuffix hdue hqueued hrunning
    exact ⟨inv.guarded, fun _ => hsuffix, fun _ => hdue, inv.absent, inv.word, hqueued, hrunning,
      fun h => (h hfiles).elim⟩
  | openFile =>
    simp only [step, Option.ite_none_right_eq_some, Option.some.injEq] at h
    obtain ⟨⟨hsome, htodo⟩, rfl⟩ := h
    refine inv.of_cells rfl rfl inv.guarded (fun _ _ => id) (fun _ => id) (fun _ => rfl)
      (fun _ => .inl) (fun _ => .inl) fun _ => ⟨hsome, ?_⟩
    rw [htodo]
    exact List.not_mem_nil
  | closeFile =>
    simp only [step, Option.ite_none_left_eq_some, Option.some.injEq] at h
    obtain ⟨hfiles, rfl⟩ := h
    exact inv.of_cells rfl rfl inv.guarded (fun _ _ => id) (fun _ => id) (fun _ => rfl)
      (fun _ => .inl) (fun _ => .inl) fun _ => inv.files hfiles
  | notifier k l =>
    simp only [step, Option.map_eq_some_iff] at h
    obtain ⟨c, hc, rfl⟩ := h
    have cell_cases : ∀ {p : Kind → Cell Dev → Prop}, p k c → (∀ k', p k' (s.cells k')) →
        ∀ k', p k' (Function.update s.cells k c k') := by
      intro p hp hothers k'
      by_cases hk : k' = k
      · subst hk
        rw [Function.update_self]
        exact hp
      · rw [Function.update_of_ne hk]
        exact hothers k'
    refine inv.of_cells rfl rfl ?_ ?_ ?_ ?_ (fun _ => .inl) (fun _ => .inl) inv.files
    · exact cell_cases (p := fun _ => Guarded) (read_guarded (inv.guarded k) hc) inv.guarded
    · exact cell_cases (p := fun k' x => ∀ as, (s.cells k').writer.Due as → x.writer.Due as)
        (fun _ hdue => due_read hdue hc) (fun _ _ => id)
    · exact cell_cases (p := fun k' x => (s.cells k').writer = .idle → x.writer = .idle)
        (read_idle hc) (fun _ => id)
    · exact cell_cases (p := fun k' x => x.word = (s.cells k').word) (read_word hc) (fun _ => rfl)
  | linkUp i =>
    simp only [step] at h
    split at h
    · rename_i d hi
      cases h
      -- the notifier still holds what was registered
      obtain ⟨e, hdevice, hword, hacts⟩ := inv.found hi rfl
      have hd := (inv.guarded .linkEvent).same i _ hi
      rw [hword] at hd
      cases hd
      have hplan := inv.plan (by rw [hdevice]; rfl)
      exact inv.schedule hdevice ((ordered_suffix hplan).1 hacts)
    · cases h
  | kick =>
    simp only [step] at h
    split at h
    · rename_i d hdevice
      simp only [Option.ite_none_left_eq_some, Option.some.injEq] at h
      obtain ⟨hfiles, rfl⟩ := h
      refine inv.schedule hdevice ?_
      rw [State.plan, if_neg (inv.files hfiles).2]
      exact List.mem_append_right _ (by decide)
    · cases h
  | workBegins d =>
    simp only [step, Option.ite_none_right_eq_some, Option.some.injEq] at h
    obtain ⟨⟨hqueued, -⟩, rfl⟩ := h
    obtain ⟨hdevice, hcancel⟩ := inv.queued d hqueued
    have hplan := inv.plan (by rw [hdevice]; rfl)
    refine inv.of_cells rfl rfl inv.guarded (fun _ _ => id) (fun _ => id) (fun _ => rfl)
      (fun e he => .inl (List.mem_filter.mp he).1) ?_ inv.files
    intro e he
    cases he with
    | head => exact .inr ⟨hdevice, (ordered_suffix hplan).2.1 hcancel⟩
    | tail _ he => exact .inl he
  | workEnds d =>
    simp only [step, Option.ite_none_right_eq_some, Option.some.injEq] at h
    obtain ⟨-, rfl⟩ := h
    exact inv.of_cells rfl rfl inv.guarded (fun _ _ => id) (fun _ => id) (fun _ => rfl)
      (fun _ => .inl) (fun e he => .inl (List.mem_filter.mp he).1) inv.files

/-! ### Runs -/

/-- Nothing that is under way reaches a device that is not there: a notifier that has found
its callback finds the data of the present device, or holds it, and readiness work is that
device's. -/
structure Alive (s : State) : Prop where
  notifiers : ∀ k (i : Nat) r, (s.cells k).readers[i]? = some r → r.found = true →
    ∃ d, s.device = some d ∧ (s.cells k).word = some d ∧ ∀ w, r = .holding w → w = some d
  work : ∀ d ∈ s.queued ++ s.running, s.device = some d

/-- **No callback and no readiness work outlives its device.** -/
theorem run_alive {ls : List Label} {s : State} (h : run step initial ls = some s) : Alive s := by
  have inv : Sound s := invariant step step_sound sound_initial h
  refine ⟨fun k i r hi hf => ?_, fun d hd => ?_⟩
  · obtain ⟨d, hdevice, hword, -⟩ := inv.found hi hf
    refine ⟨d, hdevice, hword, fun w hw => ?_⟩
    subst hw
    rw [← hword]
    exact (inv.guarded k).same i w hi
  · obtain hd | hd := List.mem_append.mp hd
    · exact (inv.queued d hd).1
    · exact (inv.running d hd).1

/-- A notifier holds the device while its removal waits for it, and the readiness work that
it schedules is cancelled. -/
def lastCall : List Label :=
  .load :: List.replicate 6 .rt ++
    [.notifier .linkEvent .come, .notifier .linkEvent (.enter 0), .notifier .linkEvent (.load 0),
      .notifier .linkEvent (.fetch 0), .unload] ++
    List.replicate 10 .rt ++
    [.linkUp 0, .workBegins 0, .notifier .linkEvent (.leave 0), .rt, .rt, .rt]

theorem alive_lastCall : ∃ s, run step initial lastCall = some s ∧ s.running = [0] ∧ Alive s :=
  ⟨_, rfl, rfl, run_alive (show run step initial lastCall = some _ from rfl)⟩

/-! ### The end of a removal -/

/-- What a removal needs of the others: that notifiers leave and that work ends. -/
def Label.concludes : Label → Bool
  | .rt | .unload | .notifier _ (.leave _) | .workEnds _ => true
  | _ => false

theorem run_notifiers {k : Kind} {ls : List Published.Label} {s : State} {c : Cell Dev}
    (h : run Cell.read (s.cells k) ls = some c) :
    run step s (ls.map (.notifier k)) = some {s with cells := Function.update s.cells k c} := by
  induction ls generalizing s with
  | nil =>
    cases h
    rw [Function.update_eq_self]
    rfl
  | cons l rest ih =>
    obtain ⟨e, he, hrest⟩ := (run_cons Cell.read).mp h
    have hread : step s (.notifier k l) = some {s with cells := Function.update s.cells k e} := by
      show ((s.cells k).read l).map _ = _
      rw [he]
      rfl
    have hnext := @ih {s with cells := Function.update s.cells k e} (by
      show run Cell.read (Function.update s.cells k e k) rest = some c
      rw [Function.update_self]
      exact hrest)
    rw [List.map_cons, run_cons]
    refine ⟨_, hread, ?_⟩
    rw [hnext]
    show some {s with cells := Function.update (Function.update s.cells k e) k c} = _
    rw [Function.update_idem]

/-- The next access is possible, if need be after some have left or ended. -/
theorem rt_possible {s : State} {d : Dev} {o : Op} {rest : List Op} (inv : Sound s)
    (hdevice : s.device = some d) (htodo : s.todo = o :: rest) :
    ∃ ls t, (∀ l ∈ ls, l.concludes = true) ∧ run step s ls = some t ∧ t.files = s.files ∧
      t.todo = rest ∧ (o ≠ .free → t.device = some d) ∧ (o = .free → t.device = none) := by
  have rt_of : ∀ {s t : State}, s.device = some d → s.todo = o :: rest → s.exec d rest o = some t →
      step s .rt = some t := by
    intro s t hd ht h
    simp only [step, hd, ht]
    exact h
  cases o with
  | access k a =>
    have hplan := plan_rest {s with todo := rest} (by simp) htodo rfl
    have hdue := inv.due (by rw [hdevice]; rfl) k
    rw [hplan, acts_self] at hdue
    -- the grace period, where there is one, first comes to its end
    obtain ⟨ls, c, hrun, hc⟩ : ∃ (leavers : List Nat) (c : Cell Dev),
        run Cell.read (s.cells k) (leavers.map .leave) = some c ∧
          ∀ readers, c.writer = .waiting readers → readers = [] := by
      cases hw : (s.cells k).writer with
      | waiting readers =>
        obtain ⟨leavers, c, hrun, -, hc, -⟩ := (inv.guarded k).drain hw
        refine ⟨leavers, c, hrun, fun readers h => ?_⟩
        rw [hc] at h
        exact (Writer.waiting.inj h).symm
      | _ =>
        refine ⟨[], _, rfl, fun readers h => ?_⟩
        rw [hw] at h
        cases h
    have hkeep : ∀ (c : Cell Dev) (l : Published.Label) (e : Cell Dev),
        c.writer.Due (a :: acts k {s with todo := rest}.plan) → c.read l = some e →
          e.writer.Due (a :: acts k {s with todo := rest}.plan) :=
      fun _ _ _ hd h => due_read hd h
    have hdue' : c.writer.Due (a :: acts k {s with todo := rest}.plan) :=
      invariant Cell.read hkeep hdue hrun
    obtain ⟨e, he⟩ := write_of_due (w := d) hdue' hc
    have hexec : State.exec {s with cells := Function.update s.cells k c} d rest (.access k a) =
        some {s with cells := Function.update (Function.update s.cells k c) k e, todo := rest} := by
      show ((Function.update s.cells k c k).write d a).map _ = _
      rw [Function.update_self, he]
      rfl
    refine ⟨(ls.map Published.Label.leave).map (.notifier k) ++ [.rt],
      {s with cells := Function.update (Function.update s.cells k c) k e, todo := rest}, ?_,
      (run_append step).mpr ⟨_, run_notifiers hrun,
        (run_cons step).mpr
          ⟨_, rt_of (s := {s with cells := Function.update s.cells k c}) hdevice htodo hexec, rfl⟩⟩,
      rfl, rfl, fun _ => hdevice, nofun⟩
    intro l hl
    simp only [List.map_map, List.mem_append, List.mem_map, List.mem_singleton] at hl
    obtain ⟨i, -, rfl⟩ | rfl := hl
    · rfl
    · rfl
  | cancel =>
    exact ⟨[.rt], _, by simp [Label.concludes],
      (run_cons step).mpr ⟨_, rt_of hdevice htodo rfl, rfl⟩,
      rfl, rfl, fun _ => hdevice, nofun⟩
  | cancelled =>
    by_cases hrun : d ∈ s.running
    · have hends : step s (.workEnds d) = some {s with running := s.running.filter (· ≠ d)} :=
        if_pos hrun
      have hexec : State.exec {s with running := s.running.filter (· ≠ d)} d rest .cancelled =
          some {s with running := s.running.filter (· ≠ d), todo := rest} := if_neg (by simp)
      exact ⟨[.workEnds d, .rt], _, by simp [Label.concludes],
        (run_cons step).mpr ⟨_, hends, (run_cons step).mpr ⟨_, rt_of hdevice htodo hexec, rfl⟩⟩,
        rfl, rfl, fun _ => hdevice, nofun⟩
    · exact ⟨[.rt], _, by simp [Label.concludes],
        (run_cons step).mpr ⟨_, rt_of hdevice htodo (if_neg hrun), rfl⟩, rfl, rfl,
        fun _ => hdevice, nofun⟩
  | free =>
    exact ⟨[.rt], _, by simp [Label.concludes],
      (run_cons step).mpr ⟨_, rt_of hdevice htodo rfl, rfl⟩,
      rfl, rfl, fun h => (h rfl).elim, fun _ => rfl⟩

theorem removal_ends_of_sound {s : State} {d : Dev} (inv : Sound s) (hdevice : s.device = some d)
    (hfiles : s.files = 0) :
    ∃ ls t, (∀ l ∈ ls, l.concludes = true) ∧ run step s ls = some t ∧ t.device = none := by
  -- the plan gets shorter, and an unload leaves it as it is
  induction hn : 2 * s.plan.length + (if s.todo = [] then 1 else 0) using Nat.strong_induction_on
    generalizing s with
  | _ n ih =>
    cases htodo : s.todo with
    | nil =>
      have hunload : step s .unload = some {s with todo := removeDevice} :=
        if_pos ⟨by rw [hdevice]; rfl, htodo, hfiles⟩
      have hplan : s.plan = removeDevice := by
        rw [State.plan, htodo]
        rfl
      have hless : 2 * (State.plan {s with todo := removeDevice}).length + 0 < n := by
        rw [← hn, hplan, if_pos htodo]
        exact Nat.lt_succ_self _
      obtain ⟨ls, t, hls, hrun, ht⟩ := ih _ hless (step_sound _ _ _ inv hunload) hdevice hfiles rfl
      exact ⟨.unload :: ls, t, List.forall_mem_cons.mpr ⟨rfl, hls⟩,
        (run_cons step).mpr ⟨_, hunload, hrun⟩, ht⟩
    | cons o rest =>
      obtain ⟨ls, t, hls, hrun, htfiles, httodo, hstays, hfreed⟩ := rt_possible inv hdevice htodo
      by_cases ho : o = .free
      · exact ⟨ls, t, hls, hrun, hfreed ho⟩
      · have htail := plan_rest t ho htodo httodo
        have hless : 2 * t.plan.length + (if t.todo = [] then 1 else 0) < n := by
          rw [← hn, htail, List.length_cons]
          split <;> omega
        obtain ⟨ls', u, hls', hrun', hu⟩ :=
          ih _ hless (invariant step step_sound inv hrun) (hstays ho)
          (htfiles.trans hfiles) rfl
        refine ⟨ls ++ ls', u, ?_, (run_append step).mpr ⟨t, hrun, hrun'⟩, hu⟩
        exact List.forall_mem_append.mpr ⟨hls, hls'⟩

/-- **Every removal ends.** Whatever has happened before, with no file open the device can
be removed by its removal's own steps, notifiers that leave and work that ends. -/
theorem removal_ends {ls : List Label} {s : State} {d : Dev} (h : run step initial ls = some s)
    (hdevice : s.device = some d) (hfiles : s.files = 0) :
    ∃ ls t, (∀ l ∈ ls, l.concludes = true) ∧ run step s ls = some t ∧ t.device = none :=
  removal_ends_of_sound (invariant step step_sound sound_initial h) hdevice hfiles

theorem removal_ends_lastCall : ∃ s, run step initial lastCall = some s ∧
    ∃ ls t, (∀ l ∈ ls, l.concludes = true) ∧ run step s ls = some t ∧ t.device = none :=
  ⟨_, rfl, removal_ends (d := 0) (show run step initial lastCall = some _ from rfl) rfl rfl⟩

end DxNpuDriver.Pcie.Callback
