import DxNpuDriver.Kernel
import DxNpuDriver.Lib.Machine
import Mathlib.Data.List.Nodup
import Mathlib.Data.List.Range

/-! The scheduler list `dev->sched` (`dxrt_sched.c`).

Each bound option in use has one entry: the request queue it was given and how
many clients hold it. A new bound takes the number the pass of
`add_queue_from_sched_op` ends with, and that pass is over the list in insertion
order. It meets a number only when it is just waiting for it, so it ends with the
smallest free number exactly when the numbers below that one stand in the list in
increasing order (`Ascending`); otherwise it ends with a number that is in use
(`climb_free`). -/
namespace DxNpuDriver.Rt.Sched

/-- `DX_NORMAL_QUEUE_MAX`. -/
def dxNormalQueueMax : Nat := 3

/-- `dx_shced_data`. The count is a `uint32_t`. -/
structure SchedData where
  bound : Nat
  queue : Nat
  refCnt : Nat
  deriving DecidableEq, Repr

/-- How the pass over the list ends: at the entry of the bound, counted once more,
or past the last entry with `min_available_queue`. -/
inductive Scan where
  | found (entries : List SchedData)
  | absent (minAvailableQueue : Nat)
  deriving DecidableEq

/-- The `list_for_each_entry` of `add_queue_from_sched_op`. -/
def scan (bound : Nat) : Nat → List SchedData → Scan
  | minAvailableQueue, [] => .absent minAvailableQueue
  | minAvailableQueue, e :: rest =>
    if e.bound = bound then
      .found ({e with refCnt := (e.refCnt + 1) % 2 ^ 32} :: rest)
    else
      match scan bound (if e.queue = minAvailableQueue then minAvailableQueue + 1
        else minAvailableQueue) rest with
      | .found rest' => .found (e :: rest')
      | .absent m => .absent m

/-- `add_queue_from_sched_op`; `alloc` is whether `kmalloc` gave the node. -/
def addQueueFromSchedOp (alloc : Bool) (bound : Nat) (sched : List SchedData) :
    List SchedData × Ret :=
  if !alloc then (sched, .err .ENOMEM)
  else
    match scan bound 0 sched with
    | .found entries => (entries, .err .EEXIST)
    | .absent m =>
      if m ≥ dxNormalQueueMax then (sched, .err .EBUSY)
      else (sched ++ [⟨bound, m, 1⟩], .ok)

/-- `get_queue_from_sched_op`: the queue of the bound, if it has an entry. -/
def getQueueFromSchedOp (bound : Nat) (sched : List SchedData) : Ret × Nat :=
  match sched.find? (·.bound = bound) with
  | some e => (if e.queue = dxNormalQueueMax then .err .ENOENT else .ok, e.queue)
  | none => (.err .ENOENT, dxNormalQueueMax)

/-- `delete_matching_queue`. -/
def deleteMatchingQueue (bound : Nat) : List SchedData → List SchedData × Ret
  | [] => ([], .err .ENOENT)
  | e :: rest =>
    if e.bound = bound then
      -- `--entry->data.ref_cnt` on a `uint32_t`
      if (e.refCnt + (2 ^ 32 - 1)) % 2 ^ 32 = 0 then (rest, .ok)
      else ({e with refCnt := (e.refCnt + (2 ^ 32 - 1)) % 2 ^ 32} :: rest, .err .EBUSY)
    else
      let r := deleteMatchingQueue bound rest
      (e :: r.1, r.2)

/-- `clear_queue_list`. -/
def clearQueueList (_sched : List SchedData) : List SchedData := []

/-- One call on the list. -/
inductive Op where
  | add (alloc : Bool) (bound : Nat)
  | delete (bound : Nat)
  | clear
  deriving DecidableEq

def call (sched : List SchedData) : Op → List SchedData × Ret
  | .add alloc bound => addQueueFromSchedOp alloc bound sched
  | .delete bound => deleteMatchingQueue bound sched
  | .clear => (clearQueueList sched, .ok)

/-! ### References held -/

/-- What a call does to the number of references on `b`: a successful add is one
more, a delete is one less. -/
def credit (b n : Nat) : Op → Ret → Nat
  | .add _ bound, .ok | .add _ bound, .err .EEXIST => if bound = b then n + 1 else n
  | .delete bound, _ => if bound = b then n - 1 else n
  | _, _ => n

/-- The list, and for each bound its successful adds less its deletes since it was
last absent from the list. -/
structure State where
  sched : List SchedData
  refs : Nat → Nat

def initial : State := ⟨[], fun _ => 0⟩

def step (s : State) (op : Op) : Option State :=
  let r := call s.sched op
  some {
    sched := r.1
    refs := fun b => if b ∈ r.1.map (·.bound) then credit b (s.refs b) op r.2 else 0 }

/-- What the list promises. -/
structure Assigned (s : State) : Prop where
  bounds : (s.sched.map (·.bound)).Nodup
  counted : ∀ e ∈ s.sched, 1 ≤ e.refCnt ∧ e.refCnt < 2 ^ 32 ∧ e.refCnt = s.refs e.bound
  absent : ∀ b ∉ s.sched.map (·.bound), s.refs b = 0
  below : ∀ e ∈ s.sched, e.queue < dxNormalQueueMax
  queues : (s.sched.map (·.queue)).Nodup
  busy : ∀ alloc b, (addQueueFromSchedOp alloc b s.sched).2 = .err .EBUSY →
    ∀ q < dxNormalQueueMax, q ∈ s.sched.map (·.queue)

/-! ### The number the pass ends with -/

/-- The pass over a list without the bound, on the queue numbers alone. -/
def climb : Nat → List Nat → Nat
  | m, [] => m
  | m, q :: rest => climb (if q = m then m + 1 else m) rest

/-- From `k` on, the pass finds `k, k + 1, …` in this order, as far as they come in
this order and no further. -/
theorem climb_spec (k : Nat) (qs : List Nat) :
    k ≤ climb k qs ∧ (List.range' k (climb k qs - k)).Sublist qs ∧
      ¬ (List.range' k (climb k qs + 1 - k)).Sublist qs := by
  induction qs generalizing k with
  | nil =>
    simp [climb]
  | cons q rest ih =>
    by_cases hq : q = k
    · subst hq
      obtain ⟨hle, hsub, hnot⟩ := ih (q + 1)
      have hclimb : climb q (q :: rest) = climb (q + 1) rest := by simp [climb]
      have hlen : climb (q + 1) rest - q = (climb (q + 1) rest - (q + 1)) + 1 := by omega
      have hlen' : climb (q + 1) rest + 1 - q = (climb (q + 1) rest + 1 - (q + 1)) + 1 := by omega
      refine ⟨by omega, ?_, ?_⟩
      · rw [hclimb, hlen, List.range'_succ]
        exact hsub.cons_cons q
      · rw [hclimb, hlen', List.range'_succ, List.cons_sublist_cons]
        exact hnot
    · obtain ⟨hle, hsub, hnot⟩ := ih k
      have hclimb : climb k (q :: rest) = climb k rest := by simp [climb, hq]
      refine ⟨by omega, ?_, ?_⟩
      · rw [hclimb]
        exact hsub.cons q
      · have hlen : climb k rest + 1 - k = (climb k rest - k) + 1 := by omega
        rw [hclimb, hlen, List.range'_succ]
        rw [hlen, List.range'_succ] at hnot
        intro h
        cases h with
        | cons _ h => exact hnot h
        | cons_cons _ _ => exact hq rfl

/-- The queue numbers that are in use with no gap below them stand in the list in
increasing order. -/
def Ascending (sched : List SchedData) : Prop :=
  ∀ q ∈ sched.map (·.queue), (∀ p < q, p ∈ sched.map (·.queue)) →
    (List.range (q + 1)).Sublist (sched.map (·.queue))

instance (sched : List SchedData) : Decidable (Ascending sched) :=
  inferInstanceAs (Decidable (∀ q ∈ _, _ → _))

/-- Every number below the one the pass ends with is in use. -/
theorem lt_climb_mem {qs : List Nat} {p : Nat} (h : p < climb 0 qs) : p ∈ qs := by
  have hsub := (climb_spec 0 qs).2.1
  rw [Nat.sub_zero, ← List.range_eq_range'] at hsub
  exact hsub.subset (List.mem_range.mpr h)

/-- **The pass ends with a free number exactly when the list is ascending.** -/
theorem climb_free (sched : List SchedData) :
    climb 0 (sched.map (·.queue)) ∉ sched.map (·.queue) ↔ Ascending sched := by
  obtain ⟨_, hsub, hnot⟩ := climb_spec 0 (sched.map (·.queue))
  rw [Nat.sub_zero, ← List.range_eq_range'] at hsub hnot
  constructor
  · intro hfree q hq hbelow
    -- the pass cannot have stopped at or below `q`: all of these are in use
    have hq' : q < climb 0 (sched.map (·.queue)) := by
      by_contra hge
      rcases Nat.lt_or_eq_of_le (Nat.le_of_not_lt hge) with hlt | heq
      · exact hfree (hbelow _ hlt)
      · exact hfree (heq ▸ hq)
    exact (List.range_sublist.mpr hq').trans hsub
  · intro hasc hmem
    exact hnot (hasc _ hmem fun p hp => lt_climb_mem hp)

/-! ### What each call does -/

theorem scan_absent {bound : Nat} {sched : List SchedData} (h : bound ∉ sched.map (·.bound))
    (k : Nat) : scan bound k sched = .absent (climb k (sched.map (·.queue))) := by
  induction sched generalizing k with
  | nil => rfl
  | cons e rest ih =>
    simp only [List.map_cons, List.mem_cons, not_or] at h
    simp only [scan, if_neg (Ne.symm h.1), ih h.2, List.map_cons, climb]

/-- The first entry of a bound that has one. -/
theorem split_of_mem {bound : Nat} {sched : List SchedData} (h : bound ∈ sched.map (·.bound)) :
    ∃ before e after, sched = before ++ e :: after ∧ e.bound = bound ∧
      bound ∉ before.map (·.bound) := by
  induction sched with
  | nil => simp at h
  | cons e rest ih =>
    by_cases he : e.bound = bound
    · exact ⟨[], e, rest, rfl, he, by simp⟩
    · have hrest : bound ∈ rest.map (·.bound) := by
        rcases List.mem_cons.mp h with h | h
        · exact absurd h.symm he
        · exact h
      obtain ⟨before, e', after, rfl, he', hbefore⟩ := ih hrest
      refine ⟨e :: before, e', after, rfl, he', ?_⟩
      simp only [List.map_cons, List.mem_cons, not_or]
      exact ⟨Ne.symm he, hbefore⟩

theorem scan_found {before after : List SchedData} {e : SchedData}
    (h : e.bound ∉ before.map (·.bound)) (k : Nat) :
    scan e.bound k (before ++ e :: after) =
      .found (before ++ {e with refCnt := (e.refCnt + 1) % 2 ^ 32} :: after) := by
  induction before generalizing k with
  | nil => simp [scan]
  | cons d rest ih =>
    simp only [List.map_cons, List.mem_cons, not_or] at h
    simp only [List.cons_append, scan, if_neg (Ne.symm h.1), ih h.2]

theorem delete_found {before after : List SchedData} {e : SchedData}
    (h : e.bound ∉ before.map (·.bound)) :
    deleteMatchingQueue e.bound (before ++ e :: after) =
      if (e.refCnt + (2 ^ 32 - 1)) % 2 ^ 32 = 0 then (before ++ after, .ok)
      else (before ++ {e with refCnt := (e.refCnt + (2 ^ 32 - 1)) % 2 ^ 32} :: after,
        .err .EBUSY) := by
  induction before with
  | nil => simp only [List.nil_append, deleteMatchingQueue, if_true]
  | cons d rest ih =>
    simp only [List.map_cons, List.mem_cons, not_or] at h
    simp only [List.cons_append, deleteMatchingQueue, if_neg (Ne.symm h.1), ih h.2]
    split <;> rfl

theorem delete_absent {bound : Nat} {sched : List SchedData} (h : bound ∉ sched.map (·.bound)) :
    deleteMatchingQueue bound sched = (sched, .err .ENOENT) := by
  induction sched with
  | nil => rfl
  | cons e rest ih =>
    simp only [List.map_cons, List.mem_cons, not_or] at h
    simp only [deleteMatchingQueue, if_neg (Ne.symm h.1), ih h.2]

/-- Everything an add can do. -/
theorem add_cases (alloc : Bool) (bound : Nat) (sched : List SchedData) :
    (alloc = false ∧ addQueueFromSchedOp alloc bound sched = (sched, .err .ENOMEM)) ∨
    (alloc = true ∧ ∃ before e after, sched = before ++ e :: after ∧ e.bound = bound ∧
      addQueueFromSchedOp alloc bound sched =
        (before ++ {e with refCnt := (e.refCnt + 1) % 2 ^ 32} :: after, .err .EEXIST)) ∨
    (alloc = true ∧ bound ∉ sched.map (·.bound) ∧
      dxNormalQueueMax ≤ climb 0 (sched.map (·.queue)) ∧
      addQueueFromSchedOp alloc bound sched = (sched, .err .EBUSY)) ∨
    (alloc = true ∧ bound ∉ sched.map (·.bound) ∧
      climb 0 (sched.map (·.queue)) < dxNormalQueueMax ∧
      addQueueFromSchedOp alloc bound sched =
        (sched ++ [⟨bound, climb 0 (sched.map (·.queue)), 1⟩], .ok)) := by
  cases alloc with
  | false => exact .inl ⟨rfl, rfl⟩
  | true =>
    by_cases hmem : bound ∈ sched.map (·.bound)
    · obtain ⟨before, e, after, rfl, rfl, hbefore⟩ := split_of_mem hmem
      refine .inr (.inl ⟨rfl, before, e, after, rfl, rfl, ?_⟩)
      simp [addQueueFromSchedOp, scan_found hbefore]
    · have hscan := scan_absent hmem 0
      by_cases hm : dxNormalQueueMax ≤ climb 0 (sched.map (·.queue))
      · exact .inr (.inr (.inl ⟨rfl, hmem, hm, by simp [addQueueFromSchedOp, hscan, hm]⟩))
      · exact .inr (.inr (.inr ⟨rfl, hmem, Nat.lt_of_not_le hm,
          by simp [addQueueFromSchedOp, hscan, hm]⟩))

/-- What a delete can do to any list: nothing, drop the entry, or change its count. -/
theorem delete_shape (bound : Nat) (sched : List SchedData) :
    (bound ∉ sched.map (·.bound) ∧ deleteMatchingQueue bound sched = (sched, .err .ENOENT)) ∨
    ∃ before e after, sched = before ++ e :: after ∧ e.bound = bound ∧
      (deleteMatchingQueue bound sched = (before ++ after, .ok) ∨
        ∃ n, deleteMatchingQueue bound sched =
          (before ++ {e with refCnt := n} :: after, .err .EBUSY)) := by
  by_cases hmem : bound ∈ sched.map (·.bound)
  · obtain ⟨before, e, after, rfl, rfl, hbefore⟩ := split_of_mem hmem
    refine .inr ⟨before, e, after, rfl, rfl, ?_⟩
    rw [delete_found hbefore]
    split
    · exact .inl rfl
    · exact .inr ⟨_, rfl⟩
  · exact .inl ⟨hmem, delete_absent hmem⟩

/-- Everything a delete can do to a list whose counts are below `2 ^ 32`. -/
theorem delete_cases (bound : Nat) (sched : List SchedData)
    (hcnt : ∀ e ∈ sched, 1 ≤ e.refCnt ∧ e.refCnt < 2 ^ 32) :
    (bound ∉ sched.map (·.bound) ∧ deleteMatchingQueue bound sched = (sched, .err .ENOENT)) ∨
    (∃ before e after, sched = before ++ e :: after ∧ e.bound = bound ∧ e.refCnt = 1 ∧
      deleteMatchingQueue bound sched = (before ++ after, .ok)) ∨
    (∃ before e after, sched = before ++ e :: after ∧ e.bound = bound ∧ 1 < e.refCnt ∧
      deleteMatchingQueue bound sched =
        (before ++ {e with refCnt := e.refCnt - 1} :: after, .err .EBUSY)) := by
  by_cases hmem : bound ∈ sched.map (·.bound)
  · obtain ⟨before, e, after, rfl, rfl, hbefore⟩ := split_of_mem hmem
    obtain ⟨hpos, hlt⟩ := hcnt e (by simp)
    have hdec : (e.refCnt + (2 ^ 32 - 1)) % 2 ^ 32 = e.refCnt - 1 := by omega
    rw [delete_found hbefore, hdec]
    by_cases h1 : e.refCnt = 1
    · exact .inr (.inl ⟨before, e, after, rfl, rfl, h1, by simp [h1]⟩)
    · exact .inr (.inr ⟨before, e, after, rfl, rfl, by omega, by rw [if_neg (by omega)]⟩)
  · exact .inl ⟨hmem, delete_absent hmem⟩

/-- A list too full for a new bound has every queue number in use. -/
theorem add_busy {alloc : Bool} {b : Nat} {sched : List SchedData}
    (h : (addQueueFromSchedOp alloc b sched).2 = .err .EBUSY) :
    ∀ q < dxNormalQueueMax, q ∈ sched.map (·.queue) := by
  intro q hq
  rcases add_cases alloc b sched with ⟨_, heq⟩ | ⟨_, _, _, _, _, _, heq⟩ | ⟨_, _, hm, _⟩ |
    ⟨_, _, _, heq⟩
  · rw [heq] at h
    cases h
  · rw [heq] at h
    cases h
  · exact lt_climb_mem (Nat.lt_of_lt_of_le hq hm)
  · rw [heq] at h
    cases h

/-! ### Runs -/

/-- What a call must find: a new bound an ascending list, a bound already there a
count that does not wrap. -/
def Orderly (s : State) : Op → Prop
  | .add true bound =>
    (bound ∉ s.sched.map (·.bound) → Ascending s.sched) ∧
      ∀ e ∈ s.sched, e.bound = bound → e.refCnt + 1 < 2 ^ 32
  | _ => True

instance (s : State) (op : Op) : Decidable (Orderly s op) :=
  match op with
  | .add true _ => inferInstanceAs (Decidable ((_ → _) ∧ ∀ e ∈ _, _ → _))
  | .add false _ | .delete _ | .clear => isTrue trivial

theorem others_ne {before after : List SchedData} {e d : SchedData}
    (h : ((before ++ e :: after).map (·.bound)).Nodup) (hd : d ∈ before ++ after) :
    d.bound ≠ e.bound := by
  rw [List.map_append, List.map_cons, List.nodup_middle, List.nodup_cons, ← List.map_append] at h
  intro heq
  exact h.1 (heq ▸ List.mem_map_of_mem hd)

/-- The bounds of the other entries stay when one entry is changed. -/
theorem mem_others {before after : List SchedData} {e d : SchedData} (hd : d ∈ before ++ after) :
    d.bound ∈ (before ++ e :: after).map (·.bound) := by
  simp only [List.map_append, List.map_cons, List.mem_append, List.mem_cons]
  rcases List.mem_append.mp hd with hd | hd
  · exact .inl (List.mem_map_of_mem hd)
  · exact .inr (.inr (List.mem_map_of_mem hd))

theorem step_refs {s t : State} {op : Op} (h : step s op = some t) (b : Nat) :
    t.refs b = if b ∈ t.sched.map (·.bound) then credit b (s.refs b) op (call s.sched op).2
      else 0 := by
  cases h
  rfl

theorem step_sched {s t : State} {op : Op} (h : step s op = some t) :
    t.sched = (call s.sched op).1 := by
  cases h
  rfl

/-- A call that changes neither the list nor a reference. -/
theorem assigned_same {s t : State} (hs : Assigned s) (ht : t.sched = s.sched)
    (hrefs : ∀ b ∈ s.sched.map (·.bound), t.refs b = s.refs b)
    (habsent : ∀ b ∉ t.sched.map (·.bound), t.refs b = 0) : Assigned t := by
  refine ⟨ht ▸ hs.bounds, fun d hd => ?_, habsent, ht ▸ hs.below, ht ▸ hs.queues,
    fun a b hb => add_busy hb⟩
  rw [ht] at hd
  rw [hrefs _ (List.mem_map_of_mem hd)]
  exact hs.counted d hd

/-- Replacing the count of one entry, when the references move with it. -/
theorem assigned_replace {s t : State} {before after : List SchedData} {e : SchedData} {n : Nat}
    (hs : Assigned s) (hsched : s.sched = before ++ e :: after)
    (ht : t.sched = before ++ {e with refCnt := n} :: after) (hn : 1 ≤ n) (hlt : n < 2 ^ 32)
    (hrefs : t.refs e.bound = n) (hothers : ∀ d ∈ before ++ after, t.refs d.bound = s.refs d.bound)
    (habsent : ∀ b ∉ t.sched.map (·.bound), t.refs b = 0) : Assigned t := by
  have hbounds : t.sched.map (·.bound) = s.sched.map (·.bound) := by simp [hsched, ht]
  have hqueues : t.sched.map (·.queue) = s.sched.map (·.queue) := by simp [hsched, ht]
  have hmem : ∀ d ∈ t.sched, d = {e with refCnt := n} ∨ d ∈ before ++ after := by
    intro d hd
    rw [ht, List.mem_append, List.mem_cons] at hd
    rw [List.mem_append]
    tauto
  have hold : ∀ d ∈ before ++ after, d ∈ s.sched := by
    intro d hd
    rw [hsched]
    rw [List.mem_append] at hd ⊢
    exact hd.imp id (List.mem_cons_of_mem e)
  refine ⟨hbounds ▸ hs.bounds, fun d hd => ?_, habsent, fun d hd => ?_, hqueues ▸ hs.queues,
    fun alloc b hb => add_busy hb⟩
  · rcases hmem d hd with rfl | hd
    · exact ⟨hn, hlt, hrefs.symm⟩
    · rw [hothers d hd]
      exact hs.counted d (hold d hd)
  · rcases hmem d hd with rfl | hd
    · exact hs.below e (by rw [hsched]; simp)
    · exact hs.below d (hold d hd)

theorem add_assigned {s t : State} {alloc : Bool} {bound : Nat} (hs : Assigned s)
    (rule : Orderly s (.add alloc bound)) (h : step s (.add alloc bound) = some t) : Assigned t := by
  have ht := step_sched h
  have hrefs := step_refs h
  have habsent : ∀ b ∉ t.sched.map (·.bound), t.refs b = 0 := fun b hb => by rw [hrefs, if_neg hb]
  simp only [call] at ht hrefs
  rcases add_cases alloc bound s.sched with ⟨_, heq⟩ | ⟨rfl, before, e, after, hsched, rfl, heq⟩ |
    ⟨_, _, _, heq⟩ | ⟨rfl, hmem, hlt, heq⟩ <;> rw [heq] at ht hrefs <;> simp only at ht hrefs
  · refine assigned_same hs ht (fun b hb => ?_) habsent
    rw [hrefs, if_pos (ht ▸ hb)]
    rfl
  · have hwrap := rule.2 e (by rw [hsched]; simp) rfl
    have hcnt := hs.counted e (by rw [hsched]; simp)
    rw [Nat.mod_eq_of_lt hwrap] at ht
    refine assigned_replace hs hsched ht (by omega) hwrap ?_ (fun d hd => ?_) habsent
    · rw [hrefs, if_pos (by rw [ht]; simp)]
      simp only [credit, if_true]
      omega
    · have hne := others_ne (hsched ▸ hs.bounds) hd
      rw [hrefs, if_pos (ht ▸ mem_others hd)]
      simp only [credit, if_neg (Ne.symm hne)]
  · refine assigned_same hs ht (fun b hb => ?_) habsent
    rw [hrefs, if_pos (ht ▸ hb)]
    rfl
  · -- a new entry, with a number that an ascending list does not have
    have hfree := (climb_free s.sched).mpr (rule.1 hmem)
    have hsplit : ∀ d ∈ t.sched, d ∈ s.sched ∨ d = ⟨bound, climb 0 (s.sched.map (·.queue)), 1⟩ := by
      intro d hd
      rw [ht] at hd
      simpa using hd
    refine ⟨?_, fun d hd => ?_, habsent, fun d hd => ?_, ?_, fun a b hb => add_busy hb⟩
    · rw [ht, List.map_append]
      exact hs.bounds.append (by simp) (by simpa using hmem)
    · rw [hrefs, if_pos (List.mem_map_of_mem hd)]
      rcases hsplit d hd with hd | rfl
      · have hne : bound ≠ d.bound := fun heq => hmem (heq ▸ List.mem_map_of_mem hd)
        simp only [credit, if_neg hne]
        exact hs.counted d hd
      · simp [credit, hs.absent bound hmem]
    · rcases hsplit d hd with hd | rfl
      · exact hs.below d hd
      · exact hlt
    · rw [ht, List.map_append]
      exact hs.queues.append (by simp) (by simpa using hfree)

theorem delete_assigned {s t : State} {bound : Nat} (hs : Assigned s)
    (h : step s (.delete bound) = some t) : Assigned t := by
  have ht := step_sched h
  have hrefs := step_refs h
  have habsent : ∀ b ∉ t.sched.map (·.bound), t.refs b = 0 := fun b hb => by rw [hrefs, if_neg hb]
  have hcnt : ∀ e ∈ s.sched, 1 ≤ e.refCnt ∧ e.refCnt < 2 ^ 32 :=
    fun e he => ⟨(hs.counted e he).1, (hs.counted e he).2.1⟩
  simp only [call] at ht hrefs
  rcases delete_cases bound s.sched hcnt with ⟨hmem, heq⟩ | ⟨before, e, after, hsched, rfl, _, heq⟩ |
    ⟨before, e, after, hsched, rfl, h1, heq⟩ <;> rw [heq] at ht hrefs <;> simp only at ht hrefs
  · refine assigned_same hs ht (fun b hb => ?_) habsent
    have hne : bound ≠ b := fun heq => hmem (heq ▸ hb)
    rw [hrefs, if_pos (ht ▸ hb)]
    simp only [credit, if_neg hne]
  · -- the last reference: the entry goes
    have hsub : t.sched.Sublist s.sched := by
      rw [ht, hsched]
      exact (List.Sublist.refl before).append (List.sublist_cons_self e after)
    refine ⟨hs.bounds.sublist (hsub.map _), fun d hd => ?_, habsent,
      fun d hd => hs.below d (hsub.subset hd), hs.queues.sublist (hsub.map _),
      fun a b hb => add_busy hb⟩
    have hne := others_ne (hsched ▸ hs.bounds) (ht ▸ hd)
    rw [hrefs, if_pos (List.mem_map_of_mem hd)]
    simp only [credit, if_neg (Ne.symm hne)]
    exact hs.counted d (hsub.subset hd)
  · have hcount := hs.counted e (by rw [hsched]; simp)
    refine assigned_replace hs hsched ht (by omega) (by omega) ?_ (fun d hd => ?_) habsent
    · rw [hrefs, if_pos (by rw [ht]; simp)]
      simp only [credit, if_true]
      omega
    · have hne := others_ne (hsched ▸ hs.bounds) hd
      rw [hrefs, if_pos (ht ▸ mem_others hd)]
      simp only [credit, if_neg (Ne.symm hne)]

theorem step_assigned (s : State) (op : Op) (t : State) (hs : Assigned s) (rule : Orderly s op)
    (h : step s op = some t) : Assigned t := by
  cases op with
  | add alloc bound => exact add_assigned hs rule h
  | delete bound => exact delete_assigned hs h
  | clear =>
    cases h
    exact ⟨by simp [call, clearQueueList], by simp [call, clearQueueList],
      by simp [call, clearQueueList], by simp [call, clearQueueList],
      by simp [call, clearQueueList], fun a b hb => add_busy hb⟩

theorem initial_assigned : Assigned initial :=
  ⟨by simp [initial], by simp [initial], fun _ _ => rfl, by simp [initial], by simp [initial],
    fun _ _ hb => add_busy hb⟩

/-- **Orderly calls keep the assignment injective**, and in a state they reach a new
bound gets a number of its own exactly when the list is ascending. -/
theorem orderly_run_assigned (ops : List Op) (s : State)
    (rule : Machine.Admissible step Orderly initial ops)
    (h : Machine.run step initial ops = some s) :
    Assigned s ∧ ∀ bound, (addQueueFromSchedOp true bound s.sched).2 = .ok →
      (((addQueueFromSchedOp true bound s.sched).1.map (·.queue)).Nodup ↔ Ascending s.sched) := by
  have hs := Machine.invariant_of_admissible step step_assigned initial_assigned rule h
  refine ⟨hs, fun bound hok => ?_⟩
  rcases add_cases true bound s.sched with ⟨h, _⟩ | ⟨_, _, _, _, _, _, heq⟩ | ⟨_, _, _, heq⟩ |
    ⟨_, _, _, heq⟩
  · cases h
  · rw [heq] at hok
    cases hok
  · rw [heq] at hok
    cases hok
  · rw [heq, ← climb_free]
    simp [List.nodup_append, hs.queues]

/-- A bound is taken twice, another one goes, and a third gets the number it left. -/
theorem orderly_run_reuses_number :
    ∃ s, Machine.run step initial [.add true 0, .add true 1, .add true 0, .delete 1, .add true 2] =
        some s ∧ s.sched = [⟨0, 0, 2⟩, ⟨2, 1, 1⟩] ∧ Assigned s :=
  ⟨_, rfl, rfl, (orderly_run_assigned
    [.add true 0, .add true 1, .add true 0, .delete 1, .add true 2] _ (by decide) rfl).1⟩

/-- Two bounds come, the first goes, two more come: the last one shares queue 1 with
the one that stayed. -/
theorem two_bounds_share_a_queue :
    ¬ ∀ ops s, Machine.run step initial ops = some s → Assigned s := by
  intro h
  have hs := h [.add true 0, .add true 1, .delete 0, .add true 2, .add true 3] _ rfl
  exact absurd hs.queues (by decide)

end DxNpuDriver.Rt.Sched
