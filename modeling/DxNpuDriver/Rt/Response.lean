import DxNpuDriver.Kernel
import DxNpuDriver.Lib.Machine

/-! The response list of a channel and its credits (`dx_message.c`,
`dxrt_drv_message.c`).

The interrupt links a response and counts one credit in `response_pending`, both
under the lock of the list. A consumer waits for a credit, takes a response and
gives the credit back, each a step of its own; one that finds the list empty gives
a credit back too. A recovery empties the list and then sets the count to zero.

`credited_run` says what keeps the count at least as large as the list: a response
that arrives at an empty list must find no more consumers about to give a credit
back than there are credits, and the count must be cleared while the list is still
empty. -/
namespace DxNpuDriver.Rt.Response

/-- `RES_POOL_SIZE`. -/
def resPoolSize : Nat := 32

/-- A linked entry of the pool: its slot and the `dx_pcie_response_t` in it. -/
structure Entry (ρ : Type) where
  slot : Nat
  response : ρ
  deriving DecidableEq

/-- `dx_msg->responses[ch]` with `resp_pool_header`. -/
structure Queue (ρ : Type) where
  header : Nat
  list : List (Entry ρ)
  deriving DecidableEq

variable {ρ : Type}

/-- `dx_pcie_enqueue_response`: a slot that is still linked is unlinked first. -/
def enqueueResponse (q : Queue ρ) (response : ρ) : Queue ρ :=
  let slot := q.header % resPoolSize
  ⟨slot + 1, q.list.eraseP (·.slot = slot) ++ [⟨slot, response⟩]⟩

/-- `dx_pcie_dequeue_response`. -/
def dequeueResponse (q : Queue ρ) : Queue ρ × Option ρ :=
  match q.list with
  | [] => (q, none)
  | e :: rest => ({q with list := rest}, some e.response)

/-- `dx_pcie_clear_response_queue`. -/
def clearResponseQueue (_q : Queue ρ) : Queue ρ := ⟨0, []⟩

/-! ### Consumers -/

inductive Kind where
  | runResponseV1 | runResponseV2 | readOutput
  deriving DecidableEq

/-- Where a consumer stands: at its `retry` label, in its wait, past it, between its
dequeue and its decrement, or returned. -/
inductive Pc (ρ : Type) where
  | retry
  | waiting
  | woken
  | debit (got : Option ρ)
  | returned (got : Except Errno ρ)

structure Consumer (ρ : Type) where
  kind : Kind
  pc : Pc ρ

def Consumer.owes (c : Consumer ρ) : Bool :=
  match c.pc with
  | .debit _ => true
  | _ => false

structure State (ρ : Type) where
  queue : Queue ρ
  pending : Nat
  consumers : List (Consumer ρ)
  /-- Recovery clears between their two halves. -/
  clears : Nat

def initial : State ρ := ⟨⟨0, []⟩, 0, [], 0⟩

inductive Label (ρ : Type) where
  | enqueue (response : ρ)
  | call (kind : Kind)
  /-- Consumer `i` reads the count at its `retry` label. -/
  | check (i : Nat)
  /-- The wait of consumer `i` ends; `other` is one of its further conditions: recovery,
  the device state, termination. -/
  | wake (i : Nat) (other : Bool)
  /-- Consumer `i` returns an error: signal, device state, termination. -/
  | leave (i : Nat) (e : Errno)
  | dequeue (i : Nat)
  | decrement (i : Nat)
  | clearQueue
  | clearPending
  deriving DecidableEq

/-- Consumer `i` goes on to `pc`. -/
def State.move (s : State ρ) (i : Nat) (kind : Kind) (pc : Pc ρ) : State ρ :=
  {s with consumers := s.consumers.set i ⟨kind, pc⟩}

/-- What a consumer does at its `retry` label: version 1 waits only when it reads no
credit, the others always go into the wait. -/
def afterRetry (kind : Kind) (pending : Nat) : Pc ρ :=
  match kind with
  | .runResponseV1 => if pending = 0 then .waiting else .woken
  | .runResponseV2 | .readOutput => .waiting

def step (s : State ρ) : Label ρ → Option (State ρ)
  | .enqueue response =>
    some {s with queue := enqueueResponse s.queue response, pending := s.pending + 1}
  | .call kind => some {s with consumers := s.consumers ++ [⟨kind, .retry⟩]}
  | .check i =>
    match s.consumers[i]? with
    | some ⟨kind, .retry⟩ => some (s.move i kind (afterRetry kind s.pending))
    | _ => none
  | .wake i other =>
    match s.consumers[i]? with
    | some ⟨kind, .waiting⟩ =>
      if 0 < s.pending ∨ other then some (s.move i kind .woken) else none
    | _ => none
  | .leave i e =>
    match s.consumers[i]? with
    | some ⟨kind, .retry⟩ | some ⟨kind, .waiting⟩ | some ⟨kind, .woken⟩ =>
      some (s.move i kind (.returned (.error e)))
    | _ => none
  | .dequeue i =>
    match s.consumers[i]? with
    | some ⟨kind, .woken⟩ =>
      let r := dequeueResponse s.queue
      some ({s with queue := r.1}.move i kind (.debit r.2))
    | _ => none
  | .decrement i =>
    -- `atomic_dec_if_positive`, and the way back to `retry` when there was no response
    match s.consumers[i]? with
    | some ⟨kind, .debit none⟩ =>
      some ({s with pending := s.pending - 1}.move i kind .retry)
    | some ⟨kind, .debit (some response)⟩ =>
      some ({s with pending := s.pending - 1}.move i kind (.returned (.ok response)))
    | _ => none
  | .clearQueue =>
    some {s with queue := clearResponseQueue s.queue, clears := s.clears + 1}
  | .clearPending =>
    match s.clears with
    | 0 => none
    | n + 1 => some {s with pending := 0, clears := n}

/-- How many consumers are between their dequeue and their decrement. -/
def State.owing (s : State ρ) : Nat := s.consumers.countP Consumer.owes

/-- What the credits promise when nobody is halfway: there are enough of them, and a
consumer in its wait does not sleep on a response. -/
def Credited (s : State ρ) : Prop :=
  s.owing = 0 → s.clears = 0 →
    s.queue.list.length ≤ s.pending ∧
      ∀ i kind, s.queue.list ≠ [] → s.consumers[i]? = some ⟨kind, .waiting⟩ →
        (step s (.wake i false)).isSome

/-! ### Runs -/

/-- What a step must find: a response that comes to an empty list as many credits as
there are consumers to give one back, the second half of a clear an empty list. -/
def Rule (s : State ρ) : Label ρ → Prop
  | .enqueue _ => s.queue.list.isEmpty → s.owing ≤ s.pending
  | .clearPending => s.queue.list.isEmpty
  | _ => True

instance (s : State ρ) (l : Label ρ) : Decidable (Rule s l) :=
  match l with
  | .enqueue _ => inferInstanceAs (Decidable (_ → _))
  | .clearPending => inferInstanceAs (Decidable (_ = true))
  | .call _ | .check _ | .wake _ _ | .leave _ _ | .dequeue _ | .decrement _ | .clearQueue =>
    isTrue trivial

/-- What the rule keeps: the credits cover the list and the consumers that owe one. -/
def Covered (s : State ρ) : Prop :=
  s.queue.list = [] ∨ s.queue.list.length + s.owing ≤ s.pending

theorem owing_move {s : State ρ} {i : Nat} {kind : Kind} {old : Pc ρ} (new : Pc ρ)
    (h : s.consumers[i]? = some ⟨kind, old⟩) :
    (s.move i kind new).owing + (if (⟨kind, old⟩ : Consumer ρ).owes then 1 else 0) =
      s.owing + (if (⟨kind, new⟩ : Consumer ρ).owes then 1 else 0) :=
  Machine.countP_move Consumer.owes h

/-- A consumer that owed no credit and owes none now leaves the cover as it was. -/
theorem free_covered {s : State ρ} {i : Nat} {kind : Kind} {old new : Pc ρ} (hs : Covered s)
    (h : s.consumers[i]? = some ⟨kind, old⟩) (hold : (⟨kind, old⟩ : Consumer ρ).owes = false)
    (hnew : (⟨kind, new⟩ : Consumer ρ).owes = false) : Covered (s.move i kind new) := by
  have howing := owing_move new h
  rw [hold, hnew] at howing
  show s.queue.list = [] ∨ s.queue.list.length + (s.move i kind new).owing ≤ s.pending
  rw [show (s.move i kind new).owing = s.owing from howing]
  exact hs

theorem enqueue_length (q : Queue ρ) (response : ρ) :
    (enqueueResponse q response).list.length ≤ q.list.length + 1 := by
  simp only [enqueueResponse, List.length_append, List.length_singleton]
  exact Nat.add_le_add_right List.length_eraseP_le 1

theorem enqueue_covered {s : State ρ} {response : ρ} (hs : Covered s)
    (rule : Rule s (.enqueue response)) :
    Covered {s with queue := enqueueResponse s.queue response, pending := s.pending + 1} := by
  have hlen := enqueue_length s.queue response
  right
  show (enqueueResponse s.queue response).list.length + s.owing ≤ s.pending + 1
  cases hs with
  | inl hempty =>
    have howing : s.owing ≤ s.pending := rule (by rw [hempty]; rfl)
    rw [hempty, List.length_nil] at hlen
    omega
  | inr hcover => omega

/-- Taking a response moves one unit of the cover from the list to the consumer. -/
theorem dequeue_covered {s : State ρ} {i : Nat} {kind : Kind} (hs : Covered s)
    (h : s.consumers[i]? = some ⟨kind, .woken⟩) :
    Covered ({s with queue := (dequeueResponse s.queue).1}.move i kind
      (.debit (dequeueResponse s.queue).2)) := by
  have howing := owing_move (.debit (dequeueResponse s.queue).2) h
  show (dequeueResponse s.queue).1.list = [] ∨ (dequeueResponse s.queue).1.list.length +
    (s.move i kind (.debit (dequeueResponse s.queue).2)).owing ≤ s.pending
  rw [show (s.move i kind (.debit (dequeueResponse s.queue).2)).owing = s.owing + 1 from howing]
  cases hlist : s.queue.list with
  | nil =>
    left
    simp only [dequeueResponse, hlist]
  | cons e rest =>
    right
    simp only [dequeueResponse, hlist]
    cases hs with
    | inl hempty => simp [hlist] at hempty
    | inr hcover =>
      rw [hlist, List.length_cons] at hcover
      omega

/-- Giving a credit back: if there is none to give, the list is empty. -/
theorem decrement_covered {s : State ρ} {i : Nat} {kind : Kind} {got : Option ρ} {pc : Pc ρ}
    (hs : Covered s) (h : s.consumers[i]? = some ⟨kind, .debit got⟩)
    (hpc : (⟨kind, pc⟩ : Consumer ρ).owes = false) :
    Covered ({s with pending := s.pending - 1}.move i kind pc) := by
  have howing := owing_move pc h
  rw [hpc] at howing
  have hone : (s.move i kind pc).owing + 1 = s.owing := howing
  show s.queue.list = [] ∨
    s.queue.list.length + (s.move i kind pc).owing ≤ s.pending - 1
  cases hs with
  | inl hempty => exact .inl hempty
  | inr hcover =>
    right
    omega

theorem step_covered (s : State ρ) (l : Label ρ) (t : State ρ) (hs : Covered s) (rule : Rule s l)
    (h : step s l = some t) : Covered t := by
  cases l with
  | enqueue response =>
    cases h
    exact enqueue_covered hs rule
  | call kind =>
    cases h
    have howing : List.countP Consumer.owes (s.consumers ++ [⟨kind, .retry⟩]) = s.owing :=
      List.countP_append
    show s.queue.list = [] ∨ s.queue.list.length + List.countP Consumer.owes _ ≤ s.pending
    rw [howing]
    exact hs
  | check i =>
    simp only [step] at h
    split at h
    · rename_i kind hc
      cases h
      refine free_covered hs hc rfl ?_
      cases kind with
      | runResponseV1 =>
        simp only [afterRetry]
        split <;> rfl
      | runResponseV2 => rfl
      | readOutput => rfl
    · cases h
  | wake i other =>
    simp only [step] at h
    split at h
    · rename_i kind hc
      split at h
      · cases h
        exact free_covered hs hc rfl rfl
      · cases h
    · cases h
  | leave i e =>
    simp only [step] at h
    split at h
    · cases h
      exact free_covered hs ‹_› rfl rfl
    · cases h
      exact free_covered hs ‹_› rfl rfl
    · cases h
      exact free_covered hs ‹_› rfl rfl
    · cases h
  | dequeue i =>
    simp only [step] at h
    split at h
    · rename_i kind hc
      cases h
      exact dequeue_covered hs hc
    · cases h
  | decrement i =>
    simp only [step] at h
    split at h
    · rename_i kind hc
      cases h
      exact decrement_covered hs hc rfl
    · rename_i kind response hc
      cases h
      exact decrement_covered hs hc rfl
    · cases h
  | clearQueue =>
    cases h
    exact .inl rfl
  | clearPending =>
    simp only [step] at h
    split at h
    · cases h
    · cases h
      exact .inl (List.isEmpty_iff.mp rule)

/-- A cover that no consumer draws on is what the credits promise. -/
theorem Covered.credited {s : State ρ} (hs : Covered s) : Credited s := by
  intro howing _
  have hlen : s.queue.list.length ≤ s.pending := by
    cases hs with
    | inl hempty => simp [hempty]
    | inr hcover => omega
  refine ⟨hlen, fun i kind hne hwait => ?_⟩
  have hpos : 0 < s.pending := Nat.lt_of_lt_of_le (List.length_pos_iff.mpr hne) hlen
  simp [step, hwait, hpos]

/-- **Along runs that keep the rule no credit is lost.** -/
theorem credited_run (ls : List (Label ρ)) (s : State ρ)
    (rule : Machine.Admissible step Rule initial ls)
    (h : Machine.run step initial ls = some s) : Credited s :=
  (Machine.invariant_of_admissible step step_covered (.inl rfl) rule h).credited

/-- Two consumers see one credit; the one that loses gives its credit back before the
next response comes. -/
def orderlyRun : List (Label Nat) :=
  [.enqueue 7, .call .runResponseV2, .call .runResponseV1, .check 0, .wake 0 false, .check 1,
    .dequeue 0, .dequeue 1, .decrement 0, .decrement 1, .enqueue 8]

theorem orderly_run_credited :
    ∃ s : State Nat, Machine.run step initial orderlyRun = some s ∧
      s.owing = 0 ∧ s.clears = 0 ∧ s.queue.list = [⟨1, 8⟩] ∧ s.queue.list.length ≤ s.pending :=
  ⟨_, rfl, rfl, rfl, rfl, (credited_run orderlyRun _ (by decide) rfl rfl rfl).1⟩

/-- The same two consumers, but the next response comes between their decrements: the
loser takes its credit, and both can go to sleep on it. -/
def stolenRun : List (Label Nat) :=
  [.enqueue 7, .call .runResponseV2, .call .runResponseV1, .check 0, .wake 0 false, .check 1,
    .dequeue 0, .dequeue 1, .decrement 0, .enqueue 8, .decrement 1]

theorem stolen_credit :
    ¬ ∀ (ls : List (Label Nat)) s, Machine.run step initial ls = some s → Credited s := by
  intro h
  exact absurd (h stolenRun _ rfl rfl rfl).1 (by decide)

end DxNpuDriver.Rt.Response
