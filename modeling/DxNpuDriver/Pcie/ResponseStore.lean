import DxNpuDriver.Kernel
import DxNpuDriver.Lib.Cyclic
import DxNpuDriver.Lib.ListHead

/-! The responses of a channel (`dx_message.c`).

A response that comes from the device is copied into a slot of the channel's pool, and the
slot is linked to the channel's list, from which the runtime takes it. Which slot it is
says a header that runs round the pool and does not look at the list; a slot that is
still linked when its turn comes is taken out first.

Together the two are a queue of `RES_POOL_SIZE` responses that drops its oldest when it
is full (`run_refines`): the list is the window of the pool that ends at the header, so
that a slot that is still linked is the head of a full list. -/
namespace DxNpuDriver.Pcie.ResponseStore
open Cyclic

def resPoolSize : Nat := 32

/-- The list of the channel, or a slot of its pool. -/
inductive Node where
  | head
  | slot (i : Nat)
  deriving DecidableEq

/-- `dx_msg->responses[ch]`, `resp_pool[dev][ch]` and `resp_pool_header[dev][ch]`. -/
structure Store (R : Type) where
  links : Links Node
  response : Nat → R
  header : Nat

/-- Every node of the pool on its own. -/
def initial {R : Type} (pool : Nat → R) : Store R := ⟨.lone, pool, 0⟩

variable {R : Type}

/-- `dx_pcie_enqueue_response`; `r` is what stands in the device's memory. -/
def enqueueResponse (r : R) (s : Store R) : Store R :=
  let h := s.header % resPoolSize
  let links := if s.links.empty (.slot h) then s.links else s.links.delInit (.slot h)
  ⟨links.addTail (.slot h) .head, Function.update s.response h r, h + 1⟩

/-- `dx_pcie_dequeue_response`: the first entry of the list, if the list is not empty. -/
def dequeueResponse (s : Store R) : Option R × Store R :=
  match s.links.next .head with
  | .head => (none, s)
  | .slot i => (some (s.response i), {s with links := s.links.delInit (.slot i)})

/-- `dx_pcie_clear_response_queue`, for one channel. -/
def clearResponseQueue (s : Store R) : Option (Store R) :=
  (Links.delEach .head (resPoolSize + 1) s.links (s.links.next .head)
    (s.links.next (s.links.next .head))).map fun links => ⟨links, s.response, 0⟩

inductive Op (R : Type) where
  | enqueue (r : R)
  | dequeue
  | clear

/-- What a call gives back: a dequeue a response, or nothing. -/
abbrev Out (R : Type) := Option (Option R)

def step (s : Store R) : Op R → Option (Store R × Out R)
  | .enqueue r => some (enqueueResponse r s, none)
  | .dequeue => some ((dequeueResponse s).2, some (dequeueResponse s).1)
  | .clear => (clearResponseQueue s).map fun s => (s, none)

def run : Store R → List (Op R) → Option (Store R × List (Out R))
  | s, [] => some (s, [])
  | s, a :: rest =>
    (step s a).bind fun t => (run t.1 rest).map fun u => (u.1, t.2 :: u.2)

/-! ### The queue it is -/

/-- A bounded queue that drops its oldest. -/
def specStep (q : List R) : Op R → List R × Out R
  | .enqueue r => ((if q.length = resPoolSize then q.tail else q) ++ [r], none)
  | .dequeue => (q.tail, some q.head?)
  | .clear => ([], none)

def specRun : List R → List (Op R) → List R × List (Out R)
  | q, [] => (q, [])
  | q, a :: rest =>
    let r := specRun (specStep q a).1 rest
    (r.1, (specStep q a).2 :: r.2)

/-- The store holds the queue `q`: its list are the last `q.length` slots before the header,
and these hold the responses. -/
structure Holds (s : Store R) (q : List R) : Prop where
  bounded : q.length ≤ resPoolSize
  list : s.links.Ring .head
    ((window resPoolSize (s.header + resPoolSize - q.length) q.length).map .slot)
  responses : contents s.response resPoolSize (s.header + resPoolSize - q.length) q.length = q

theorem initial_holds (pool : Nat → R) : Holds (initial pool) [] :=
  ⟨Nat.zero_le _, Links.ring_lone, rfl⟩

/-- The slot the next response goes to. -/
def Store.turn (s : Store R) : Node := .slot (s.header % resPoolSize)

theorem dequeue_holds {s : Store R} {q : List R} (holds : Holds s q) :
    (dequeueResponse s).1 = q.head? ∧ Holds (dequeueResponse s).2 q.tail := by
  obtain ⟨bounded, list, responses⟩ := holds
  cases q with
  | nil =>
    have hempty : s.links.next .head = .head := list.next_head_eq_iff.mpr rfl
    simp only [dequeueResponse, hempty]
    exact ⟨rfl, bounded, list, responses⟩
  | cons r q =>
    rw [List.length_cons] at bounded list responses
    have hstart : s.header + resPoolSize - (q.length + 1) + 1 = s.header + resPoolSize - q.length := by
      omega
    rw [window_cons, List.map_cons, hstart] at list
    rw [contents_cons, hstart, List.cons.injEq] at responses
    have hfirst := list.chain.1
    simp only [dequeueResponse, hfirst, List.head?_cons, List.tail_cons, responses.1]
    exact ⟨trivial, Nat.le_of_succ_le bounded, list.delFirst, responses.2⟩

/-- The slot whose turn it is stands behind the window. -/
theorem turn_eq (s : Store R) {n : Nat} (hn : n ≤ resPoolSize) :
    (s.header + resPoolSize - n + n) % resPoolSize = s.header % resPoolSize := by
  rw [Nat.sub_add_cancel (Nat.le_add_left_of_le hn), Nat.add_mod_right]

theorem turn_notMem (s : Store R) {n : Nat} (hn : n < resPoolSize) :
    s.turn ∉ (window resPoolSize (s.header + resPoolSize - n) n).map Node.slot := by
  intro h
  obtain ⟨i, hi, heq⟩ := List.mem_map.mp h
  have hslot : (s.header + resPoolSize - n + n) % resPoolSize ∉
      window resPoolSize (s.header + resPoolSize - n) n := slot_notMem_window hn
  rw [turn_eq s hn.le] at hslot
  exact hslot (Node.slot.inj heq ▸ hi)

/-- A slot that is linked when its turn comes is the oldest of a full list. -/
theorem Holds.turn_linked {s : Store R} {q : List R} (holds : Holds s q)
    (linked : s.links.empty s.turn = false) :
    s.links.next .head = s.turn ∧ q.length = resPoolSize := by
  obtain ⟨bounded, list, -⟩ := holds
  have hfull : q.length = resPoolSize := by
    by_contra hne
    have hempty := (list.empty_iff (by simp [Store.turn])).mpr (turn_notMem s (by omega))
    exact absurd (hempty.symm.trans linked) (by decide)
  refine ⟨?_, hfull⟩
  rw [hfull, Nat.add_sub_cancel] at list
  exact list.chain.1

theorem Holds.turn_linked_iff {s : Store R} {q : List R} (holds : Holds s q) :
    s.links.empty s.turn = false ↔ q.length = resPoolSize := by
  refine ⟨fun linked => (holds.turn_linked linked).2, fun hfull => ?_⟩
  have list := holds.list
  obtain ⟨r, q, rfl⟩ := List.exists_cons_of_length_eq_add_one hfull
  rw [hfull, Nat.add_sub_cancel] at list
  rw [← Bool.not_eq_true, list.empty_iff (by simp [Store.turn]), not_not]
  exact List.mem_cons_self

/-- What an enqueue leaves in the list before it links its slot. -/
def Store.makeRoom (s : Store R) : Store R :=
  if s.links.empty s.turn then s else {s with links := s.links.delInit s.turn}

theorem enqueueResponse_eq (r : R) (s : Store R) :
    enqueueResponse r s =
      ⟨s.makeRoom.links.addTail s.turn .head,
        Function.update s.response (s.header % resPoolSize) r, s.header % resPoolSize + 1⟩ := by
  cases linked : s.links.empty s.turn with
  | true => simp only [enqueueResponse, Store.makeRoom, ← Store.turn.eq_def, linked, if_true]
  | false =>
    simp only [enqueueResponse, Store.makeRoom, ← Store.turn.eq_def, linked,
      Bool.false_eq_true, if_false]

/-- The oldest is taken out of a full list, as by a dequeue. -/
theorem Holds.makeRoom {s : Store R} {q : List R} (holds : Holds s q) :
    Holds s.makeRoom (if q.length = resPoolSize then q.tail else q) := by
  by_cases hfull : q.length = resPoolSize
  · have linked := holds.turn_linked_iff.mpr hfull
    have hfirst := (holds.turn_linked linked).1
    have taken := (dequeue_holds holds).2
    rw [Store.turn] at hfirst
    simp only [dequeueResponse, hfirst] at taken
    rw [Store.makeRoom, linked, if_neg (by decide), if_pos hfull]
    exact taken
  · have hempty : s.links.empty s.turn = true := by
      simpa using mt holds.turn_linked_iff.mp hfull
    simpa only [Store.makeRoom, hempty, if_true, if_neg hfull] using holds

@[simp] theorem makeRoom_header (s : Store R) : s.makeRoom.header = s.header := by
  unfold Store.makeRoom
  split <;> rfl

@[simp] theorem makeRoom_response (s : Store R) : s.makeRoom.response = s.response := by
  unfold Store.makeRoom
  split <;> rfl

theorem enqueue_holds {s : Store R} {q : List R} (holds : Holds s q) (r : R) :
    Holds (enqueueResponse r s) ((if q.length = resPoolSize then q.tail else q) ++ [r]) := by
  have room := holds.makeRoom
  have hlength : (if q.length = resPoolSize then q.tail else q).length < resPoolSize := by
    have := holds.bounded
    split
    · simp only [List.length_tail]
      simp only [resPoolSize] at *
      omega
    · omega
  generalize (if q.length = resPoolSize then q.tail else q) = q' at room hlength
  obtain ⟨-, list, responses⟩ := room
  rw [makeRoom_header] at list responses
  rw [makeRoom_response] at responses
  rw [enqueueResponse_eq]
  -- the window stays where it is, one slot longer: the header is reduced, which it does not see
  have hstart : (s.header % resPoolSize + 1 + resPoolSize - (q'.length + 1)) % resPoolSize =
      (s.header + resPoolSize - q'.length) % resPoolSize := by
    simp only [resPoolSize] at *
    omega
  refine ⟨by simpa using Nat.succ_le_of_lt hlength, ?_, ?_⟩
  · have added := list.addTail (n := s.turn) (by simpa [Store.turn] using turn_notMem s hlength)
    simp only [List.length_append, List.length_singleton]
    rw [← window_mod, hstart, window_mod, window_succ, turn_eq s hlength.le, List.map_append]
    exact added
  · simp only [List.length_append, List.length_singleton]
    rw [← contents_mod, hstart, contents_mod, ← turn_eq s hlength.le, contents_push hlength,
      responses]

theorem clear_holds {s : Store R} {q : List R} (holds : Holds s q) :
    ∃ s', clearResponseQueue s = some s' ∧ Holds s' [] := by
  have hfuel : ((window resPoolSize (s.header + resPoolSize - q.length) q.length).map
      Node.slot).length < resPoolSize + 1 := by
    simpa using Nat.lt_succ_of_le holds.bounded
  obtain ⟨links, hdel, ring⟩ := holds.list.delEach hfuel
  exact ⟨⟨links, s.response, 0⟩, by simp [clearResponseQueue, hdel], Nat.zero_le _, ring, rfl⟩

theorem step_holds {s : Store R} {q : List R} (holds : Holds s q) (a : Op R) :
    ∃ s', step s a = some (s', (specStep q a).2) ∧ Holds s' (specStep q a).1 := by
  cases a with
  | enqueue r => exact ⟨_, rfl, enqueue_holds holds r⟩
  | dequeue =>
    obtain ⟨hout, holds'⟩ := dequeue_holds holds
    exact ⟨_, by simp only [step, hout, specStep], holds'⟩
  | clear =>
    obtain ⟨s', hclear, holds'⟩ := clear_holds holds
    exact ⟨s', by simp only [step, hclear, Option.map_some, specStep], holds'⟩

theorem run_holds {s : Store R} {q : List R} (holds : Holds s q) (ops : List (Op R)) :
    ∃ s', run s ops = some (s', (specRun q ops).2) ∧ Holds s' (specRun q ops).1 := by
  induction ops generalizing s q with
  | nil => exact ⟨s, rfl, holds⟩
  | cons a rest ih =>
    obtain ⟨t, hstep, holds⟩ := step_holds holds a
    obtain ⟨u, hrun, holds⟩ := ih holds
    exact ⟨u, by simp only [run, hstep, hrun, Option.bind_some, Option.map_some, specRun], holds⟩

/-- The list and the header are a queue of `resPoolSize` responses that drops its oldest:
every sequence of calls returns what the queue returns and leaves the list of its slots, in
order. A slot that is still linked when its turn comes is the first of a full list. -/
theorem run_refines (pool : Nat → R) (ops : List (Op R)) :
    ∃ s, run (initial pool) ops = some (s, (specRun [] ops).2) ∧ Holds s (specRun [] ops).1 ∧
      (s.links.empty s.turn = false →
        s.links.next .head = s.turn ∧ (specRun [] ops).1.length = resPoolSize) := by
  obtain ⟨s, hrun, holds⟩ := run_holds (initial_holds pool) ops
  exact ⟨s, hrun, holds, holds.turn_linked⟩

end DxNpuDriver.Pcie.ResponseStore
