import DxNpuDriver.Lib.Machine
import Mathlib.Data.List.Nodup

/-! Which doorbell a completion is credited to (`dw-edma-core.c`).

Three paths consume the Done of a chunk: the interrupt, which reads and acknowledges
the Done status before it takes `vc.lock`; the replay `dw_edma_process_done_if_stopped`,
which does all of it under the lock; and the shadow worker's in-line handoff, whose
accesses are separate steps. What keeps them apart is `xfer_started`, and the next
launch sets it again: an interrupt that has acknowledged chunk `k` and is overtaken by
another path and by the launch of chunk `k + 1` completes `k + 1` while it runs.

`undisturbed_run_credited` says that this is the only way: if no interrupt is between
its status read and its lock section whenever a doorbell is rung, each doorbell is
completed at most once and only after the hardware has finished it. -/
namespace DxNpuDriver.Edma.Completion

/-- The CS bits, as far as a data channel shows them here. -/
inductive Cs where
  | run | stop
  deriving DecidableEq

/-- `shadow_state` of the active descriptor; `none` when it has no shadow chunk and the
launch worker or the lazy worker rings the next doorbell. -/
inductive Shadow where
  | none | building | ready | isrPending
  deriving DecidableEq

/-- A Done interrupt that has read its status bit: before its `int_clear`, and before its
`vc.lock` section. -/
inductive Handler where
  | clear | lock
  deriving DecidableEq

/-- The shadow worker: building; the four steps of the in-line handoff before its
`vc.lock` section, and that section; the second check; the launch of its chunk. -/
inductive Worker where
  | idle
  | build
  | readStarted | readCs | clear | writeStarted | lock
  | recheck
  | launch
  deriving DecidableEq

/-- The channel. `bells` and `finished` count the doorbells rung and finished; `credits`
records each completion with the doorbell it was applied to and whether the hardware had
finished that one. -/
structure State where
  cs : Cs
  doneStatus : Bool
  bells : Nat
  finished : Nat
  xferStarted : Bool
  shadow : Shadow
  worker : Worker
  handlers : List Handler
  /-- A chunk is staged, or may be, for the launch worker or the lazy worker. -/
  staged : Bool
  credits : List (Nat × Bool)
  deriving DecidableEq

def initial : State := ⟨.stop, false, 0, 0, false, .none, .idle, [], true, []⟩

inductive Label where
  /-- The hardware finishes the chunk. -/
  | finish
  /-- `dw_edma_interrupt` reads the Done status. -/
  | readStatus
  /-- Handler `i` goes on. -/
  | handler (i : Nat)
  /-- `dw_edma_process_done_if_stopped`, on a live device. -/
  | replay
  /-- The launch worker or the lazy worker rings; `shadow` is whether the next chunk is to
  be built in the shadow. -/
  | launch (shadow : Bool)
  /-- A run of the shadow worker begins. -/
  | workerRun
  /-- The shadow worker goes on; when it rings, `more` is whether it builds another chunk. -/
  | worker (more : Bool)
  deriving DecidableEq

/-- `dw_edma_complete_done_locked`, for a descriptor that goes on: with a shadow chunk the
shadow worker is to launch it, otherwise the next launch is staged. -/
def completeDone (s : State) : State :=
  {s with
    xferStarted := false
    credits := (s.bells, decide (s.finished = s.bells)) :: s.credits
    shadow := if s.shadow = .none then .none else .isrPending
    staged := decide (s.shadow = .none)}

/-- `dw_edma_v0_xfer_llm`: the Done status is cleared, then the doorbell is rung. -/
def ring (s : State) (shadow : Bool) : State :=
  {s with
    cs := .run
    doneStatus := false
    bells := s.bells + 1
    xferStarted := true
    shadow := if shadow then .building else .none
    staged := false}

/-- The section under `vc.lock` of `dw_edma_done_interrupt`. -/
def doneLocked (s : State) : State := if s.xferStarted then completeDone s else s

/-- One step of handler `i`. -/
def handlerStep (s : State) (i : Nat) : Option State :=
  match s.handlers[i]? with
  | some .clear => some {s with doneStatus := false, handlers := s.handlers.set i .lock}
  | some .lock => some {doneLocked s with handlers := s.handlers.eraseIdx i}
  | none => none

/-- One step of the shadow worker, from BUILDING on. -/
def workerStep (s : State) (more : Bool) : Option State :=
  match s.worker with
  | .idle => none
  | .build =>
    if s.shadow = .building then some {s with shadow := .ready, worker := .readStarted}
    else some {s with worker := .launch}
  | .readStarted => some {s with worker := if s.xferStarted then .readCs else .recheck}
  | .readCs => some {s with worker := if s.cs = .stop then .clear else .recheck}
  | .clear => some {s with doneStatus := false, worker := .writeStarted}
  | .writeStarted => some {s with xferStarted := false, worker := .lock}
  | .lock =>
    if s.shadow = .ready then some {completeDone s with worker := .launch}
    else some {s with worker := .recheck}
  | .recheck => some {s with worker := if s.shadow = .isrPending then .launch else .idle}
  | .launch => some {ring s more with worker := .idle}

def step (s : State) : Label → Option State
  | .finish =>
    match s.cs with
    | .run => some {s with cs := .stop, doneStatus := true, finished := s.bells}
    | .stop => none
  | .readStatus =>
    if s.doneStatus then some {s with handlers := s.handlers ++ [.clear]} else none
  | .handler i => handlerStep s i
  | .replay =>
    if s.xferStarted ∧ s.cs = .stop then some (completeDone {s with doneStatus := false})
    else none
  | .launch shadow => if s.staged then some (ring s shadow) else none
  | .workerRun =>
    match s.worker with
    | .idle =>
      -- a run of an earlier Done finds the built chunk, one of a launch builds it
      if s.shadow = .isrPending then some {s with worker := .launch}
      else if s.shadow = .building then some {s with worker := .build}
      else none
    | _ => none
  | .worker more => workerStep s more

/-- Each doorbell is completed at most once, and only when the hardware has finished it. -/
def Credited (s : State) : Prop :=
  (s.credits.map (·.1)).Nodup ∧ ∀ e ∈ s.credits, e.2 = true

/-- A doorbell is rung only while no interrupt is between its status read and its lock
section. -/
def Undisturbed (s : State) : Label → Prop
  | .launch _ => s.handlers = []
  | .worker _ => s.worker = .launch → s.handlers = []
  | _ => True

instance (s : State) (l : Label) : Decidable (Undisturbed s l) :=
  match l with
  | .launch _ => inferInstanceAs (Decidable (_ = _))
  | .worker _ => inferInstanceAs (Decidable (_ → _))
  | .finish | .readStatus | .handler _ | .replay | .workerRun => isTrue trivial

/-! ### What a run keeps -/

/-- The worker has seen a started transfer and not yet written it off. -/
def Worker.inHandoff : Worker → Bool
  | .readCs | .clear | .writeStarted | .lock => true
  | _ => false

/-- The worker has seen the channel stopped. -/
def Worker.sawStop : Worker → Bool
  | .clear | .writeStarted | .lock => true
  | _ => false

/-- The last doorbell has not been completed. -/
def Open (s : State) : Prop :=
  s.xferStarted = true ∨ (s.worker.inHandoff = true ∧ s.shadow = .ready)

structure Sound (s : State) : Prop where
  credited : Credited s
  past : ∀ e ∈ s.credits, e.1 ≤ s.bells
  stopped : s.cs = .stop → s.finished = s.bells
  status : s.doneStatus = true → s.cs = .stop
  handlers : s.handlers ≠ [] → s.cs = .stop
  /-- The last doorbell is credited only once nobody can credit it any more. -/
  last : Open s → ∀ e ∈ s.credits, e.1 < s.bells
  staged : s.staged = true → s.shadow = .none ∧ s.xferStarted = false
  pending : s.shadow = .isrPending → s.xferStarted = false
  /-- The chunk of a worker that runs is its to launch. -/
  worker : s.worker ≠ .idle → s.shadow ≠ .none
  build : s.worker = .build → s.shadow ≠ .ready
  built : s.worker ≠ .idle → s.worker ≠ .build → s.shadow ≠ .building
  launch : s.worker = .launch → s.shadow = .isrPending
  sawStop : s.worker.sawStop = true → s.cs = .stop

theorem completeDone_credited {s : State} (hs : Sound s) (hopen : Open s) (hstop : s.cs = .stop) :
    Credited (completeDone s) := by
  have hlast := hs.last hopen
  refine ⟨?_, fun e he => ?_⟩
  · show (s.bells :: s.credits.map (·.1)).Nodup
    refine List.nodup_cons.mpr ⟨fun hmem => ?_, hs.credited.1⟩
    obtain ⟨e, he, heq⟩ := List.mem_map.mp hmem
    exact absurd (hlast e he) (by omega)
  · rcases List.mem_cons.mp he with rfl | he
    · exact decide_eq_true (hs.stopped hstop)
    · exact hs.credited.2 e he

theorem completeDone_past {s : State} (hs : Sound s) : ∀ e ∈ (completeDone s).credits,
    e.1 ≤ s.bells := by
  intro e he
  rcases List.mem_cons.mp he with rfl | he
  · exact Nat.le_refl _
  · exact hs.past e he

theorem completeDone_shadow (s : State) :
    (completeDone s).shadow = .none ∧ s.shadow = .none ∨
      (completeDone s).shadow = .isrPending ∧ s.shadow ≠ .none := by
  unfold completeDone
  by_cases h : s.shadow = .none
  · exact .inl ⟨if_pos h, h⟩
  · exact .inr ⟨if_neg h, h⟩

/-- A completion that the channel is ready for; the worker may go on to its launch. -/
theorem completeDone_sound {s t : State} (hs : Sound s) (hopen : Open s) (hstop : s.cs = .stop)
    (ht : t = {completeDone s with
      doneStatus := t.doneStatus, handlers := t.handlers, worker := t.worker})
    (hworker : t.worker = s.worker ∨ (t.worker = .launch ∧ s.worker ≠ .idle)) : Sound t := by
  have hshadow := completeDone_shadow s
  have htshadow : t.shadow = (completeDone s).shadow := by rw [ht]
  have hstarted : t.xferStarted = false := by rw [ht]; rfl
  have hcs : t.cs = .stop := by rw [ht]; exact hstop
  have hnotReady : t.shadow ≠ .ready := by
    rw [htshadow]
    rcases hshadow with ⟨h, _⟩ | ⟨h, _⟩ <;> rw [h] <;> decide
  have hnotBuilding : t.shadow ≠ .building := by
    rw [htshadow]
    rcases hshadow with ⟨h, _⟩ | ⟨h, _⟩ <;> rw [h] <;> decide
  have hpending : s.worker ≠ .idle → t.shadow = .isrPending := by
    intro hne
    rw [htshadow]
    rcases hshadow with ⟨_, h⟩ | ⟨h, _⟩
    · exact absurd h (hs.worker hne)
    · exact h
  have hactive : t.worker ≠ .idle → t.shadow = .isrPending := by
    intro hne
    rcases hworker with h | ⟨_, h⟩
    · exact hpending (h ▸ hne)
    · exact hpending h
  constructor
  case credited =>
    have := completeDone_credited hs hopen hstop
    rw [ht]
    exact this
  case past =>
    have := completeDone_past hs
    rw [ht]
    exact this
  case stopped =>
    intro _
    rw [ht]
    exact hs.stopped hstop
  case status => exact fun _ => hcs
  case handlers => exact fun _ => hcs
  case last =>
    rintro (h | ⟨_, h⟩)
    · rw [hstarted] at h
      cases h
    · exact absurd h hnotReady
  case staged =>
    intro h
    refine ⟨?_, hstarted⟩
    rw [htshadow]
    rcases hshadow with ⟨h', _⟩ | ⟨_, hne⟩
    · exact h'
    · rw [ht] at h
      exact absurd (of_decide_eq_true h) hne
  case pending => exact fun _ => hstarted
  case worker =>
    intro hne
    rw [hactive hne]
    decide
  case build => exact fun _ => hnotReady
  case built => exact fun _ _ => hnotBuilding
  case launch =>
    intro h
    exact hactive (by rw [h]; decide)
  case sawStop => exact fun _ => hcs

/-- A doorbell, when no interrupt is on its way. -/
theorem ring_sound {s : State} (more : Bool) (hs : Sound s) (hquiet : s.handlers = []) :
    Sound {ring s more with worker := .idle} where
  credited := hs.credited
  past e he := Nat.le_succ_of_le (hs.past e he)
  stopped := by rintro ⟨⟩
  status := by rintro ⟨⟩
  handlers h := absurd hquiet h
  last _ e he := Nat.lt_succ_of_le (hs.past e he)
  staged := by rintro ⟨⟩
  pending h := by cases more <;> cases h
  worker h := absurd rfl h
  build := by rintro ⟨⟩
  built h := absurd rfl h
  launch := by rintro ⟨⟩
  sawStop := by rintro ⟨⟩

theorem handler_sound {s t : State} {i : Nat} (hs : Sound s) (h : handlerStep s i = some t) :
    Sound t := by
  unfold handlerStep at h
  split at h
  · rename_i hi
    cases h
    refine {hs with status := (by rintro ⟨⟩), handlers := fun _ => hs.handlers ?_}
    intro hnil
    simp [hnil] at hi
  · rename_i hi
    have hne : s.handlers ≠ [] := by
      intro hnil
      simp [hnil] at hi
    cases h
    unfold doneLocked
    split
    · rename_i hstarted
      exact completeDone_sound hs (.inl hstarted) (hs.handlers hne) rfl (.inl rfl)
    · exact {hs with handlers := fun _ => hs.handlers hne}
  · cases h

/-- The worker goes on and changes nothing but its own place. -/
theorem worker_moves {s : State} {w : Worker} (hs : Sound s)
    (hhandoff : w.inHandoff = true → s.shadow = .ready → Open s)
    (hactive : w ≠ .idle → s.shadow ≠ .none) (hbuild : w = .build → s.shadow ≠ .ready)
    (hbuilt : w ≠ .idle → w ≠ .build → s.shadow ≠ .building)
    (hlaunch : w = .launch → s.shadow = .isrPending) (hstop : w.sawStop = true → s.cs = .stop) :
    Sound {s with worker := w} := by
  refine {hs with
    last := fun hopen => hs.last ?_, worker := hactive, build := hbuild, built := hbuilt,
    launch := hlaunch, sawStop := hstop}
  rcases hopen with h | ⟨h, hready⟩
  · exact .inl h
  · exact hhandoff h hready

/-- A worker past its build that goes on in its handoff or gives it up. -/
theorem handoff_moves {s : State} {w : Worker} (hs : Sound s) (hidle : s.worker ≠ .idle)
    (hbuild : s.worker ≠ .build) (hw : w ≠ .build)
    (hhandoff : w.inHandoff = true → s.shadow = .ready → Open s)
    (hlaunch : w = .launch → s.shadow = .isrPending) (hstop : w.sawStop = true → s.cs = .stop) :
    Sound {s with worker := w} :=
  worker_moves hs hhandoff (fun _ => hs.worker hidle) (fun h => absurd h hw)
    (fun _ _ => hs.built hidle hbuild) hlaunch hstop

/-- BUILDING becomes READY, or a Done has come meanwhile and the chunk can be launched. -/
theorem build_sound {s t : State} {more : Bool} (hs : Sound s) (hw : s.worker = .build)
    (h : workerStep s more = some t) : Sound t := by
  have hidle : s.worker ≠ .idle := by rw [hw]; decide
  simp only [workerStep, hw] at h
  split at h
  · rename_i hshadow
    cases h
    refine {hs with
      last := fun hopen => hs.last ?_, staged := fun hst => ?_, pending := (by rintro ⟨⟩), worker := (by rintro _ ⟨⟩),
      build := (by rintro ⟨⟩), built := (by rintro _ _ ⟨⟩), launch := (by rintro ⟨⟩), sawStop := (by rintro ⟨⟩)}
    · rcases hopen with h | ⟨h, _⟩
      · exact .inl h
      · cases h
    · exact absurd (hs.staged hst).1 (hs.worker hidle)
  · rename_i hshadow
    cases h
    refine worker_moves hs (fun h => by cases h) (fun _ => hs.worker hidle)
      (fun h => by cases h) (fun _ _ => hshadow) (fun _ => ?_) (fun h => by cases h)
    cases hsh : s.shadow with
    | none => exact absurd hsh (hs.worker hidle)
    | building => exact absurd hsh hshadow
    | ready => exact absurd hsh (hs.build hw)
    | isrPending => rfl

/-- The two writes of the handoff outside the lock: the acknowledge and `xfer_started`. -/
theorem write_sound {s t : State} {more : Bool} (hs : Sound s)
    (hw : s.worker = .clear ∨ s.worker = .writeStarted) (h : workerStep s more = some t) :
    Sound t := by
  have hin : s.worker.inHandoff = true ∧ s.worker.sawStop = true ∧ s.worker ≠ .idle ∧
      s.worker ≠ .build := by
    rcases hw with hw | hw <;> rw [hw] <;> decide
  obtain ⟨hhandoff, hsaw, hidle, hbuild⟩ := hin
  have hmove : ∀ w : Worker, w ≠ .build → w ≠ .launch → Sound {s with worker := w} :=
    fun w h1 h2 => handoff_moves hs hidle hbuild h1 (fun _ hready => .inr ⟨hhandoff, hready⟩)
      (fun h => absurd h h2) (fun _ => hs.sawStop hsaw)
  rcases hw with hw | hw <;> simp only [workerStep, hw] at h <;> cases h
  · have hm := hmove .writeStarted (by decide) (by decide)
    exact {hm with status := (by rintro ⟨⟩)}
  · have hm := hmove .lock (by decide) (by decide)
    refine {hm with
      last := fun hopen => ?_, staged := fun hst => ⟨(hm.staged hst).1, rfl⟩, pending := fun _ => rfl}
    rcases hopen with h | h
    · cases h
    · exact hm.last (.inr h)

theorem worker_sound {s t : State} {more : Bool} (hs : Sound s)
    (rule : Undisturbed s (.worker more)) (h : workerStep s more = some t) : Sound t := by
  cases hw : s.worker with
  | idle => simp [workerStep, hw] at h
  | build => exact build_sound hs hw h
  | readStarted =>
    simp only [workerStep, hw] at h
    cases h
    refine handoff_moves hs (by rw [hw]; decide) (by rw [hw]; decide) ?_ ?_ ?_ ?_
    · split <;> decide
    · split
      · exact fun _ _ => .inl ‹_›
      · exact fun h => by cases h
    · split <;> exact fun h => by cases h
    · split <;> exact fun h => by cases h
  | readCs =>
    simp only [workerStep, hw] at h
    cases h
    refine handoff_moves hs (by rw [hw]; decide) (by rw [hw]; decide) ?_ ?_ ?_ ?_
    · split <;> decide
    · exact fun _ hready => .inr ⟨by rw [hw]; rfl, hready⟩
    · split <;> exact fun h => by cases h
    · split
      · exact fun _ => ‹_›
      · exact fun h => by cases h
  | clear => exact write_sound hs (.inl hw) h
  | writeStarted => exact write_sound hs (.inr hw) h
  | lock =>
    have hidle : s.worker ≠ .idle := by rw [hw]; decide
    simp only [workerStep, hw] at h
    split at h
    · rename_i hready
      cases h
      exact completeDone_sound hs (.inr ⟨by rw [hw]; rfl, hready⟩) (hs.sawStop (by rw [hw]; rfl)) rfl
        (.inr ⟨rfl, hidle⟩)
    · cases h
      exact handoff_moves hs hidle (by rw [hw]; decide) (by decide) (fun h => by cases h)
        (fun h => by cases h) (fun h => by cases h)
  | recheck =>
    simp only [workerStep, hw] at h
    cases h
    refine handoff_moves hs (by rw [hw]; decide) (by rw [hw]; decide) ?_ ?_ ?_ ?_
    · split <;> decide
    · split <;> exact fun h => by cases h
    · split
      · exact fun _ => ‹_›
      · exact fun h => by cases h
    · split <;> exact fun h => by cases h
  | launch =>
    simp only [workerStep, hw] at h
    cases h
    exact ring_sound more hs (rule hw)

theorem step_sound (s : State) (l : Label) (t : State) (hs : Sound s) (rule : Undisturbed s l)
    (h : step s l = some t) : Sound t := by
  cases l with
  | finish =>
    simp only [step] at h
    split at h
    · cases h
      exact {hs with
        stopped := fun _ => rfl, status := fun _ => rfl, handlers := fun _ => rfl,
        sawStop := fun _ => rfl}
    · cases h
  | readStatus =>
    simp only [step] at h
    split at h
    · rename_i hdone
      cases h
      exact {hs with handlers := fun _ => hs.status hdone}
    · cases h
  | handler i => exact handler_sound hs h
  | replay =>
    simp only [step] at h
    split at h
    · rename_i hready
      cases h
      exact completeDone_sound hs (.inl hready.1) hready.2 rfl (.inl rfl)
    · cases h
  | launch shadow =>
    simp only [step] at h
    split at h
    · rename_i hstaged
      cases h
      -- a staged chunk has no shadow, so the worker is not running
      have hidle : s.worker = .idle := by
        by_contra hne
        exact hs.worker hne (hs.staged hstaged).1
      have := ring_sound shadow hs rule
      rw [← hidle] at this
      exact this
    · cases h
  | workerRun =>
    simp only [step] at h
    split at h
    · split at h
      · rename_i hpending
        cases h
        refine worker_moves hs (fun h => by cases h) (fun _ => by rw [hpending]; decide)
          (fun h => by cases h) (fun _ _ => by rw [hpending]; decide) (fun _ => hpending)
          (fun h => by cases h)
      · split at h
        · rename_i hbuilding
          cases h
          exact worker_moves hs (fun h => by cases h) (fun _ => by rw [hbuilding]; decide)
            (fun _ => by rw [hbuilding]; decide) (fun _ h => absurd rfl h)
            (fun h => by cases h) (fun h => by cases h)
        · cases h
    · cases h
  | worker more => exact worker_sound hs rule h

theorem initial_sound : Sound initial := by
  refine ⟨⟨by simp [initial], by simp [initial]⟩, by simp [initial], ?_, ?_, ?_, ?_, ?_, ?_, ?_, ?_,
    ?_, ?_, ?_⟩ <;> simp [initial, Open, Worker.sawStop]

/-- **When no interrupt is on its way at a doorbell, completions go where they belong.** -/
theorem undisturbed_run_credited (ls : List Label) (s : State)
    (rule : Machine.Admissible step Undisturbed initial ls)
    (h : Machine.run step initial ls = some s) : Credited s :=
  (Machine.invariant_of_admissible step step_sound initial_sound rule h).credited

/-- The first chunk is handed over by the worker itself, the second is finished by an
interrupt. -/
def handedOver : List Label :=
  [.launch true, .workerRun, .worker true, .finish, .worker true, .worker true, .worker true,
    .worker true, .worker true, .worker false, .finish, .readStatus, .handler 0, .handler 0]

theorem handed_over_credited :
    ∃ s, Machine.run step initial handedOver = some s ∧
      s.credits.map (·.1) = [2, 1] ∧ Credited s :=
  ⟨_, rfl, rfl, undisturbed_run_credited handedOver _ (by decide) rfl⟩

/-- An interrupt acknowledges the first chunk; the worker hands it over and rings the
second before the interrupt gets the lock. -/
def overtaken : List Label :=
  [.launch true, .workerRun, .worker true, .finish, .readStatus, .handler 0, .worker true,
    .worker true, .worker true, .worker true, .worker true, .worker false, .handler 0]

theorem overtaken_interrupt_completes_running :
    ¬ ∀ ls s, Machine.run step initial ls = some s → Credited s := by
  intro h
  exact absurd ((h overtaken _ rfl).2 (2, false) (by decide)) (by decide)

end DxNpuDriver.Edma.Completion
