import Mathlib.Data.List.Basic

/-! Sleeping until a condition holds (`wait_event_interruptible` of the kernel).

A task looks at the condition, puts itself on a queue, looks again, and sleeps if nobody
has woken the queue in the meantime. Whoever changes what the condition reads wakes the
queue afterwards. A condition is a disjunction of tests, read one after the other; each
reading is a step of its own, so a test may turn true behind the task's back.

`Alert` is what makes this work: of the tests that the task has found false, none has
turned true without a wake-up that has reached the task or is still to come. -/
namespace DxNpuDriver.WaitQueue

/-- The first look, before the queue; about to go on the queue; on it, at the tests that
are left of this look; asleep. On the queue, `woken` is a wake-up that has come since and
`restart` a signal that was pending before. -/
inductive Stage (τ : Type*) where
  | look (left : List τ)
  | prepare
  | queued (left : List τ) (woken restart : Bool)
  | asleep
  deriving DecidableEq

structure Wait (ρ τ : Type*) where
  queue : ρ
  tests : List τ
  signal : Bool
  stage : Stage τ
  deriving DecidableEq

/-- Still in the wait, or out of it with 0 or with `-ERESTARTSYS`. -/
inductive Next (ρ τ : Type*) where
  | wait (w : Wait ρ τ)
  | done
  | restart
  deriving DecidableEq

variable {σ ρ τ : Type*}

namespace Wait

def start (queue : ρ) (tests : List τ) (signal : Bool) : Wait ρ τ :=
  ⟨queue, tests, signal, .look tests⟩

/-- A step of the task; none while it sleeps. -/
def next (test : τ → Bool) (w : Wait ρ τ) : Option (Next ρ τ) :=
  match w.stage with
  | .look (t :: left) => some (if test t then .done else .wait {w with stage := .look left})
  | .look [] => some (.wait {w with stage := .prepare})
  | .prepare => some (.wait {w with stage := .queued w.tests false w.signal})
  | .queued (t :: left) woken restart =>
    some (if test t then .done else .wait {w with stage := .queued left woken restart})
  | .queued [] woken restart =>
    some (if restart then .restart
      else .wait {w with stage := if woken then .prepare else .asleep})
  | .asleep => none

/-- `wake_up_interruptible` reaches the task. -/
def rouse (w : Wait ρ τ) : Wait ρ τ :=
  match w.stage with
  | .queued left _ restart => {w with stage := .queued left true restart}
  | .asleep => {w with stage := .prepare}
  | .look _ | .prepare => w

def wake [DecidableEq ρ] (q : ρ) (w : Wait ρ τ) : Wait ρ τ := if w.queue = q then w.rouse else w

/-- A signal is pending from here on. -/
def interrupt (w : Wait ρ τ) : Wait ρ τ := {w.rouse with signal := true}

theorem rouse_queue (w : Wait ρ τ) : w.rouse.queue = w.queue := by
  unfold rouse
  split <;> rfl

theorem rouse_tests (w : Wait ρ τ) : w.rouse.tests = w.tests := by
  unfold rouse
  split <;> rfl

/-- Of the tests found false, none is one that alarms, unless a wake-up has come or is
coming. -/
def Alert (alarm : τ → Prop) (coming : ρ → Prop) (w : Wait ρ τ) : Prop :=
  match w.stage with
  | .look left => ∃ seen, seen ++ left = w.tests
  | .prepare => True
  | .queued left woken restart => ∃ seen, seen ++ left = w.tests ∧
      (woken = true ∨ restart = true ∨ coming w.queue ∨ ∀ t ∈ seen, ¬ alarm t)
  | .asleep => coming w.queue ∨ ∀ t ∈ w.tests, ¬ alarm t

variable {alarm : τ → Prop} {coming : ρ → Prop} {w : Wait ρ τ}

theorem start_alert (queue : ρ) (tests : List τ) (signal : Bool) :
    (start queue tests signal).Alert alarm coming := ⟨[], rfl⟩

/-- The task itself goes past a test only when it finds it false. -/
theorem next_alert {test : τ → Bool} {v : Wait ρ τ} (hw : w.Alert alarm coming)
    (htest : ∀ t, alarm t → test t = true) (h : w.next test = some (.wait v)) :
    v.Alert alarm coming ∧ v.queue = w.queue ∧ v.tests = w.tests := by
  obtain ⟨queue, tests, signal, stage⟩ := w
  cases stage with
  | look left =>
    cases left with
    | nil =>
      cases h
      exact ⟨trivial, rfl, rfl⟩
    | cons t left =>
      simp only [next, Option.some.injEq] at h
      split at h
      · cases h
      · cases h
        obtain ⟨seen, hseen⟩ := hw
        refine ⟨⟨seen ++ [t], ?_⟩, rfl, rfl⟩
        rw [List.append_assoc]
        exact hseen
  | prepare =>
    cases h
    exact ⟨⟨[], rfl, .inr (.inr (.inr (List.forall_mem_nil _)))⟩, rfl, rfl⟩
  | queued left woken restart =>
    obtain ⟨seen, hseen, hquiet⟩ := hw
    cases left with
    | nil =>
      simp only [next, Option.some.injEq] at h
      split at h
      · cases h
      · rename_i hrestart
        cases h
        refine ⟨?_, rfl, rfl⟩
        cases woken with
        | true => trivial
        | false =>
          obtain hwoken | hrestart' | hquiet := hquiet
          · cases hwoken
          · exact absurd hrestart' hrestart
          · have hall : seen = tests := (List.append_nil seen).symm.trans hseen
            subst hall
            exact hquiet
    | cons t left =>
      simp only [next, Option.some.injEq] at h
      split at h
      · cases h
      · rename_i hfalse
        cases h
        refine ⟨⟨seen ++ [t], ?_, ?_⟩, rfl, rfl⟩
        · rw [List.append_assoc]
          exact hseen
        · refine hquiet.imp_right (.imp_right (.imp_right fun hquiet u hu => ?_))
          obtain hu | hu := List.mem_append.mp hu
          · exact hquiet u hu
          · rw [List.mem_singleton.mp hu]
            exact fun halarm => hfalse (htest t halarm)
  | asleep => cases h

/-- A change that alarms nobody who has not heard, or that a wake-up follows. -/
theorem Alert.change {alarm' : τ → Prop} {coming' : ρ → Prop} (hw : w.Alert alarm coming)
    (hcoming : coming w.queue → coming' w.queue)
    (hchange : coming' w.queue ∨ ∀ t ∈ w.tests, alarm' t → alarm t) : w.Alert alarm' coming' := by
  obtain ⟨queue, tests, signal, stage⟩ := w
  cases stage with
  | look left => exact hw
  | prepare => trivial
  | queued left woken restart =>
    obtain ⟨seen, hseen, hquiet⟩ := hw
    refine ⟨seen, hseen, hquiet.imp_right (.imp_right fun hquiet => ?_)⟩
    obtain hcome | hquiet := hquiet
    · exact .inl (hcoming hcome)
    · refine hchange.imp_right fun hchange t ht halarm => hquiet t ht (hchange t ?_ halarm)
      rw [← hseen]
      exact List.mem_append_left _ ht
  | asleep =>
    obtain hcome | hquiet := hw
    · exact .inl (hcoming hcome)
    · exact hchange.imp_right fun hchange t ht halarm => hquiet t ht (hchange t ht halarm)

/-- A wake-up that has come is worth one that was to come. -/
theorem rouse_alert {alarm' : τ → Prop} {coming' : ρ → Prop} (hw : w.Alert alarm coming) :
    w.rouse.Alert alarm' coming' := by
  obtain ⟨queue, tests, signal, stage⟩ := w
  cases stage with
  | look left => exact hw
  | prepare => trivial
  | queued left woken restart =>
    obtain ⟨seen, hseen, -⟩ := hw
    exact ⟨seen, hseen, .inl rfl⟩
  | asleep => trivial

theorem interrupt_alert (hw : w.Alert alarm coming) : w.interrupt.Alert alarm coming :=
  rouse_alert (w := w) hw

/-- **Nobody oversleeps.** A task that sleeps on a condition that alarms is going to be
woken. -/
theorem Alert.asleep (hw : w.Alert alarm coming) (hstage : w.stage = .asleep) {t : τ}
    (ht : t ∈ w.tests) (halarm : alarm t) : coming w.queue := by
  obtain ⟨queue, tests, signal, stage⟩ := w
  cases hstage
  exact hw.resolve_right fun hquiet => hquiet t ht halarm

/-! ### Leaving -/

/-- By its own steps the task gets from `w` to leave the wait. -/
inductive Leaves (test : τ → Bool) : Wait ρ τ → Prop
  | done {w : Wait ρ τ} : w.next test = some .done → Leaves test w
  | restart {w : Wait ρ τ} : w.next test = some .restart → Leaves test w
  | step {w v : Wait ρ τ} : w.next test = some (.wait v) → Leaves test v → Leaves test w

variable {test : τ → Bool}

theorem leaves_queued (queue : ρ) (tests : List τ) (signal woken restart : Bool) {left : List τ}
    {t : τ} (ht : t ∈ left) (htrue : test t = true) :
    Leaves test ⟨queue, tests, signal, .queued left woken restart⟩ := by
  induction left with
  | nil => cases ht
  | cons u left ih =>
    by_cases hu : test u = true
    · refine .done ?_
      simp only [next, hu, if_true]
    · have hne : t ≠ u := fun heq => hu (heq ▸ htrue)
      refine .step (v := ⟨queue, tests, signal, .queued left woken restart⟩) ?_
        (ih ((List.mem_cons.mp ht).resolve_left hne))
      simp only [next, hu, if_false, Bool.false_eq_true]

theorem leaves_prepare (queue : ρ) (tests : List τ) (signal : Bool) {t : τ} (ht : t ∈ tests)
    (htrue : test t = true) : Leaves test ⟨queue, tests, signal, .prepare⟩ :=
  .step rfl (leaves_queued queue tests signal false signal ht htrue)

theorem leaves_look (queue : ρ) (tests : List τ) (signal : Bool) {t : τ} (ht : t ∈ tests)
    (htrue : test t = true) (left : List τ) : Leaves test ⟨queue, tests, signal, .look left⟩ := by
  induction left with
  | nil => exact .step rfl (leaves_prepare queue tests signal ht htrue)
  | cons u left ih =>
    by_cases hu : test u = true
    · refine .done ?_
      simp only [next, hu, if_true]
    · refine .step (v := ⟨queue, tests, signal, .look left⟩) ?_ ih
      simp only [next, hu, if_false, Bool.false_eq_true]

/-- What the task has seen of this look it may have seen too early, but then it has been
woken, and looks again. -/
theorem leaves_rest (queue : ρ) (tests : List τ) (signal woken restart : Bool) {t : τ}
    (ht : t ∈ tests) (htrue : test t = true) (hheard : woken = true ∨ restart = true)
    (left : List τ) : Leaves test ⟨queue, tests, signal, .queued left woken restart⟩ := by
  induction left with
  | nil =>
    cases restart with
    | true => exact .restart rfl
    | false =>
      obtain rfl : woken = true := hheard.resolve_right Bool.false_ne_true
      exact .step rfl (leaves_prepare queue tests signal ht htrue)
  | cons u left ih =>
    by_cases hu : test u = true
    · refine .done ?_
      simp only [next, hu, if_true]
    · refine .step (v := ⟨queue, tests, signal, .queued left woken restart⟩) ?_ ih
      simp only [next, hu, if_false, Bool.false_eq_true]

/-- **Out of the wait.** A condition that alarms gets the task out by its own steps when no
wake-up is missing. -/
theorem Alert.leaves (hw : w.Alert alarm coming) (htest : ∀ t, alarm t → test t = true)
    (hnone : ¬ coming w.queue) {t : τ} (ht : t ∈ w.tests) (halarm : alarm t) : Leaves test w := by
  have htrue := htest t halarm
  obtain ⟨queue, tests, signal, stage⟩ := w
  cases stage with
  | look left => exact leaves_look queue tests signal ht htrue left
  | prepare => exact leaves_prepare queue tests signal ht htrue
  | queued left woken restart =>
    obtain ⟨seen, hseen, hquiet⟩ := hw
    obtain hwoken | hrestart | hcome | hquiet := hquiet
    · exact leaves_rest queue tests signal woken restart ht htrue (.inl hwoken) left
    · exact leaves_rest queue tests signal woken restart ht htrue (.inr hrestart) left
    · exact absurd hcome hnone
    · have hmem : t ∈ seen ++ left := hseen ▸ ht
      obtain hmem | hmem := List.mem_append.mp hmem
      · exact absurd halarm (hquiet t hmem)
      · exact leaves_queued queue tests signal woken restart hmem htrue
  | asleep => exact absurd (hw.asleep rfl ht halarm) hnone

/-- By its own steps the task gets from `w` to a signal, or to sleep with nothing to wake up
for. -/
inductive Rests (test : τ → Bool) : Wait ρ τ → Prop
  | restart {w : Wait ρ τ} : w.next test = some .restart → Rests test w
  | asleep {w : Wait ρ τ} : w.stage = .asleep → (∀ t ∈ w.tests, test t = false) → Rests test w
  | step {w v : Wait ρ τ} : w.next test = some (.wait v) → Rests test v → Rests test w

theorem rests_queued (queue : ρ) {tests : List τ} (signal restart : Bool)
    (hfalse : ∀ t ∈ tests, test t = false) {left : List τ} (hleft : left ⊆ tests) :
    Rests test ⟨queue, tests, signal, .queued left false restart⟩ := by
  induction left with
  | nil =>
    cases restart with
    | true => exact .restart rfl
    | false => exact .step rfl (.asleep rfl hfalse)
  | cons u left ih =>
    obtain ⟨hu, hleft⟩ := List.cons_subset.mp hleft
    refine .step (v := ⟨queue, tests, signal, .queued left false restart⟩) ?_ (ih hleft)
    simp only [next, hfalse u hu, if_false, Bool.false_eq_true]

theorem rests_prepare (queue : ρ) {tests : List τ} (signal : Bool)
    (hfalse : ∀ t ∈ tests, test t = false) : Rests test ⟨queue, tests, signal, .prepare⟩ :=
  .step rfl (rests_queued queue signal signal hfalse (List.Subset.refl tests))

theorem rests_woken (queue : ρ) {tests : List τ} (signal restart : Bool)
    (hfalse : ∀ t ∈ tests, test t = false) {left : List τ} (hleft : left ⊆ tests) :
    Rests test ⟨queue, tests, signal, .queued left true restart⟩ := by
  induction left with
  | nil =>
    cases restart with
    | true => exact .restart rfl
    | false => exact .step rfl (rests_prepare queue signal hfalse)
  | cons u left ih =>
    obtain ⟨hu, hleft⟩ := List.cons_subset.mp hleft
    refine .step (v := ⟨queue, tests, signal, .queued left true restart⟩) ?_ (ih hleft)
    simp only [next, hfalse u hu, if_false, Bool.false_eq_true]

theorem rests_look (queue : ρ) {tests : List τ} (signal : Bool)
    (hfalse : ∀ t ∈ tests, test t = false) {left : List τ} (hleft : left ⊆ tests) :
    Rests test ⟨queue, tests, signal, .look left⟩ := by
  induction left with
  | nil => exact .step rfl (rests_prepare queue signal hfalse)
  | cons u left ih =>
    obtain ⟨hu, hleft⟩ := List.cons_subset.mp hleft
    refine .step (v := ⟨queue, tests, signal, .look left⟩) ?_ (ih hleft)
    simp only [next, hfalse u hu, if_false, Bool.false_eq_true]

/-- **Asleep in the end.** A condition that is false gets the task to sleep, or out with a
signal. -/
theorem Alert.rests (hw : w.Alert alarm coming) (hfalse : ∀ t ∈ w.tests, test t = false) :
    Rests test w := by
  obtain ⟨queue, tests, signal, stage⟩ := w
  cases stage with
  | look left =>
    obtain ⟨seen, rfl⟩ : ∃ seen, seen ++ left = tests := hw
    exact rests_look queue signal hfalse (List.subset_append_right seen left)
  | prepare => exact rests_prepare queue signal hfalse
  | queued left woken restart =>
    obtain ⟨seen, hseen, -⟩ := hw
    obtain rfl : seen ++ left = tests := hseen
    cases woken with
    | true => exact rests_woken queue signal restart hfalse (List.subset_append_right seen left)
    | false => exact rests_queued queue signal restart hfalse (List.subset_append_right seen left)
  | asleep => exact .asleep rfl hfalse

end Wait
end DxNpuDriver.WaitQueue
