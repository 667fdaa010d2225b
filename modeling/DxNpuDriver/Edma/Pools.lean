import DxNpuDriver.Edma.Prepare
import DxNpuDriver.Lib.Custody
import DxNpuDriver.Lib.Machine
import Mathlib.Algebra.BigOperators.Group.Finset.Piecewise
import Mathlib.Algebra.BigOperators.Group.Finset.Sigma

/-! The pools of bursts and of descriptors (`dw-edma-mem.c`).

A pool is an array of elements with a stack of the free indices: an array `burst_free_list`,
and `burst_free_cnt`, how much of it counts. Five routines push and pop, each under
`pool_lock`; a push to a full stack drops its index without a word. Elements that `kzalloc`
returned travel with those of the pool, and a flag in the element says which is which.

A caller holds what it was given until it frees it. `pools_conserved`: whatever the callers do,
as long as each frees what it holds, an index is on the stack or with one caller, and the
stack is never full when it is pushed to. What a routine does outside the lock concerns only
elements that its caller holds. -/
namespace DxNpuDriver.Edma.Pools
open Custody

/-- A pool: `burst_free_list` and `burst_free_cnt`, or those of the descriptors, and `from_pool`
of every element by its address. `dropped` counts the indices that the guard of a push has
dropped. -/
structure Pool where
  list : Nat → Nat
  cnt : Nat
  fromPool : Nat → Bool
  dropped : Nat

/-- The first `cnt` entries of the list, the last of them on top. -/
def Pool.stack (p : Pool) : List Nat := (List.range p.cnt).map p.list

section Routines
variable (base size : Nat)

/-- `is_in_burst_pool`; an address is counted in elements, and the pool starts at `base`. -/
def isInPool (a : Nat) : Bool := decide (base ≤ a ∧ a < base + size)

/-- An index is pushed, if there is room. -/
def push (i : Nat) (p : Pool) : Pool :=
  if p.cnt < size then {p with list := Function.update p.list p.cnt i, cnt := p.cnt + 1}
  else {p with dropped := p.dropped + 1}

def setFromPool (a : Nat) (b : Bool) (p : Pool) : Pool :=
  {p with fromPool := Function.update p.fromPool a b}

/-- `dw_edma_alloc_burst_from_pool` and `dw_edma_alloc_desc_from_pool`. -/
def allocFromPool (p : Pool) : Option (Nat × Pool) :=
  if 0 < p.cnt then
    let a := base + p.list (p.cnt - 1)
    some (a, setFromPool a true {p with cnt := p.cnt - 1})
  else none

/-- `dw_edma_alloc_burst_batch`. -/
def allocBurstBatch : Nat → Pool → List Nat × Pool
  | 0, p => ([], p)
  | count + 1, p =>
    match allocFromPool base p with
    | none => ([], p)
    | some (a, p) =>
      let r := allocBurstBatch count p
      (a :: r.1, r.2)

/-- A burst of the pool that says it is not is corrected. -/
def fixUp (a : Nat) (p : Pool) : Pool :=
  if isInPool base size a ∧ p.fromPool a = false then setFromPool a true p else p

/-- The index of an element of the pool is pushed; another is left to `kfree`. -/
def putBack (a : Nat) (p : Pool) : Pool :=
  if p.fromPool a then push size (a - base) p else p

/-- `dw_edma_free_single_burst`, and each burst of the other two. -/
def freeSingleBurst (a : Nat) (p : Pool) : Pool := putBack base size a (fixUp base size a p)

/-- `dw_edma_free_burst_batch`, which skips the holes. -/
def freeBurstBatch (bursts : List (Option Nat)) (p : Pool) : Pool :=
  bursts.foldl (fun p burst =>
    match burst with
    | none => p
    | some a => freeSingleBurst base size a p) p

/-- `chunk->burst` with its list. -/
structure Chunk where
  burst : Nat
  list : List Nat

/-- `dw_edma_free_burst`: the list of a chunk that has bursts, and its head. -/
def freeBurst (chunk : Option Chunk) (p : Pool) : Pool :=
  match chunk with
  | none => p
  | some c => freeSingleBurst base size c.burst (c.list.foldl (fun p a => freeSingleBurst base size a p) p)

/-- The end of `dw_edma_free_desc`. -/
def freeDesc (a : Nat) (p : Pool) : Pool := putBack base size a p

end Routines

/-- `dw_edma_mem_init`. -/
def memInit (size : Nat) : Pool :=
  ⟨fun i => if i < size then i else 0, size, fun _ => false, 0⟩

/-! ### The stack of indices -/

/-- The stack as `Prepare` has it, with its top first. -/
def Pool.freeList {size : Nat} (p : Pool) (h : p.cnt ≤ size) : Prepare.FreeList size :=
  ⟨p.stack.reverse, by rwa [List.length_reverse, Pool.stack, List.length_map, List.length_range]⟩

section Stack
variable {base size : Nat} {p p' : Pool} {i a : Nat}

theorem length_stack (p : Pool) : p.stack.length = p.cnt := by
  rw [Pool.stack, List.length_map, List.length_range]

theorem stack_push (h : p.cnt < size) : (push size i p).stack = p.stack ++ [i] := by
  rw [push, if_pos h, Pool.stack, List.range_succ, List.map_append, List.map_singleton]
  dsimp only
  rw [Function.update_self]
  congr 1
  refine List.map_congr_left fun j hj => ?_
  have hne : j ≠ p.cnt := Nat.ne_of_lt (List.mem_range.mp hj)
  exact Function.update_of_ne hne i p.list

theorem stack_pop (h : 0 < p.cnt) :
    p.stack = {p with cnt := p.cnt - 1 : Pool}.stack ++ [p.list (p.cnt - 1)] := by
  obtain ⟨list, cnt, fromPool, dropped⟩ := p
  cases cnt with
  | zero => cases h
  | succ cnt => rw [Pool.stack, List.range_succ, List.map_append]; rfl

/-- An element that comes from the pool was on top of its stack. -/
theorem allocFromPool_some (h : allocFromPool base p = some (a, p')) :
    ∃ i, a = base + i ∧ p.stack = p'.stack ++ [i] ∧
      p'.fromPool = Function.update p.fromPool a true ∧ p'.dropped = p.dropped := by
  unfold allocFromPool at h
  split at h
  · cases h
    exact ⟨p.list (p.cnt - 1), rfl, stack_pop ‹_›, rfl, rfl⟩
  · cases h

/-- `Prepare` pops and pushes the same. -/
theorem pop_freeList (h : p.cnt ≤ size) (h' : p'.cnt ≤ size)
    (hpop : allocFromPool base p = some (a, p')) :
    (p.freeList h).pop = some (a - base, p'.freeList h') := by
  obtain ⟨i, rfl, hstack, -, -⟩ := allocFromPool_some hpop
  have hlist : (p.freeList h).list = i :: (p'.freeList h').list := by
    show p.stack.reverse = i :: p'.stack.reverse
    rw [hstack, List.reverse_append]
    rfl
  rw [Nat.add_sub_cancel_left, Prepare.FreeList.pop]
  split
  · next hnil =>
    rw [hlist] at hnil
    cases hnil
  · next j rest hcons =>
    rw [hlist] at hcons
    cases hcons
    rfl

theorem push_freeList (h : p.cnt < size) (h' : (push size i p).cnt ≤ size) :
    (push size i p).freeList h' = (p.freeList h.le).push i := by
  have hlt : (p.freeList h.le).list.length < size := by
    show p.stack.reverse.length < size
    rwa [List.length_reverse, length_stack]
  rw [Prepare.FreeList.push, dif_pos hlt]
  show Prepare.FreeList.mk _ _ = _
  congr 1
  rw [stack_push h, List.reverse_append]
  rfl

end Stack

/-! ### The callers -/

/-- A pool and its callers: what each holds, and whether it has found the stack empty and not
been to `kzalloc` yet. -/
structure Side where
  pool : Pool
  held : Nat → List Nat
  missed : Nat → Bool

/-- The device's pools. -/
structure State where
  bursts : Side
  descs : Side

/-- What a caller does. `kzalloc` is what the function of that name returns. -/
inductive Act where
  | allocBurst
  | allocBurstDynamic (atomic : Bool) (kzalloc : Option Nat)
  | allocBurstBatch (count : Nat)
  | freeSingleBurst (a : Nat)
  | freeBurstBatch (bursts : List (Option Nat))
  | freeBurst (chunk : Option Chunk)
  | allocDesc
  | allocDescDynamic (kzalloc : Option Nat)
  | freeDesc (a : Nat)

/-- Where the pools are. -/
structure Layout where
  burstPool : Nat
  burstPoolSize : Nat
  descPool : Nat
  descPoolSize : Nat

def Side.give (s : Side) (c : Nat) (as : List Nat) : Side :=
  {s with held := Function.update s.held c (s.held c ++ as)}

/-- An allocation up to the first unlock, and on to its end if it has found an element. -/
def Side.alloc (base c : Nat) (s : Side) : Option Side :=
  if s.missed c then none
  else
    match allocFromPool base s.pool with
    | none => some {s with missed := Function.update s.missed c true}
    | some (a, p) => some ({s with pool := p}.give c [a])

/-- The rest of an allocation that has found the stack empty. What `kzalloc` returns is not in
the pool. -/
def Side.allocDynamic (base size c : Nat) (atomic : Bool) (kzalloc : Option Nat) (s : Side) :
    Option Side :=
  if s.missed c then
    let s := {s with missed := Function.update s.missed c false}
    if atomic then some s
    else
      match kzalloc with
      | none => some s
      | some a =>
        if isInPool base size a then none
        else some ({s with pool := setFromPool a false s.pool}.give c [a])
  else none

/-- Elements that the caller holds are freed. -/
def Side.free (free : Pool → Pool) (as : List Nat) (c : Nat) (s : Side) : Option Side :=
  if s.missed c = false ∧ as.Subperm (s.held c) then
    some {s with pool := free s.pool, held := Function.update s.held c ((s.held c).diff as)}
  else none

/-- The bursts of a chunk. -/
def Chunk.all : Option Chunk → List Nat
  | none => []
  | some c => c.list ++ [c.burst]

/-- What an act makes of the pools. -/
def act (l : Layout) (s : State) (c : Nat) : Act → Option State
  | .allocBurst => (s.bursts.alloc l.burstPool c).map fun t => {s with bursts := t}
  | .allocBurstDynamic atomic kzalloc =>
    (s.bursts.allocDynamic l.burstPool l.burstPoolSize c atomic kzalloc).map
      fun t => {s with bursts := t}
  | .allocBurstBatch count =>
    if s.bursts.missed c then none
    else
      let r := allocBurstBatch l.burstPool count s.bursts.pool
      some {s with bursts := {s.bursts with pool := r.2}.give c r.1}
  | .freeSingleBurst a =>
    (s.bursts.free (freeSingleBurst l.burstPool l.burstPoolSize a) [a] c).map
      fun t => {s with bursts := t}
  | .freeBurstBatch bursts =>
    (s.bursts.free (freeBurstBatch l.burstPool l.burstPoolSize bursts) (bursts.filterMap id) c).map
      fun t => {s with bursts := t}
  | .freeBurst chunk =>
    (s.bursts.free (freeBurst l.burstPool l.burstPoolSize chunk) (Chunk.all chunk) c).map
      fun t => {s with bursts := t}
  | .allocDesc => (s.descs.alloc l.descPool c).map fun t => {s with descs := t}
  | .allocDescDynamic kzalloc =>
    (s.descs.allocDynamic l.descPool l.descPoolSize c false kzalloc).map
      fun t => {s with descs := t}
  | .freeDesc a =>
    (s.descs.free (freeDesc l.descPool l.descPoolSize a) [a] c).map fun t => {s with descs := t}

/-- One of the callers acts. -/
def step (l : Layout) (callers : Nat) (s : State) (a : Nat × Act) : Option State :=
  if a.1 < callers then act l s a.1 a.2 else none

/-- Nobody holds anything. -/
def State.init (l : Layout) : State :=
  ⟨⟨memInit l.burstPoolSize, fun _ => [], fun _ => false⟩,
    ⟨memInit l.descPoolSize, fun _ => [], fun _ => false⟩⟩

/-! ### What is conserved -/

/-- Every index of the pool is on the stack or with a caller, once, and nothing else is on the
stack; the flags say where the elements come from. -/
structure Conserved (base size callers : Nat) (s : Side) : Prop where
  once : ∀ i < size, s.pool.stack.count i + kept s.held callers (base + i) = 1
  valid : ∀ i ∈ s.pool.stack, i < size
  flag : ∀ c < callers, ∀ a ∈ s.held c, s.pool.fromPool a = isInPool base size a
  kept : s.pool.dropped = 0

section Steps
variable {base size callers c : Nat} {s t : Side}

theorem isInPool_add {i : Nat} (hi : i < size) : isInPool base size (base + i) = true :=
  decide_eq_true (by omega)

theorem give_nil : s.give c [] = s := by
  rw [Side.give, List.append_nil, Function.update_eq_self]

theorem give_give (as bs : List Nat) : (s.give c as).give c bs = s.give c (as ++ bs) := by
  simp only [Side.give, Function.update_self, Function.update_idem, List.append_assoc]

/-- What a caller gets, nobody has less for it. -/
theorem kept_give (hc : c < callers) (as : List Nat) (a : Nat) :
    Custody.kept (s.give c as).held callers a = Custody.kept s.held callers a + as.count a := by
  have hmove := kept_update s.held (s.give c as).held hc
    (fun d hd => Function.update_of_ne hd _ s.held) a
  have hself : (s.give c as).held c = s.held c ++ as := Function.update_self c _ s.held
  rw [hself, List.count_append] at hmove
  omega

theorem mem_give {as : List Nat} {d b : Nat} (h : b ∈ (s.give c as).held d) :
    b ∈ s.held d ∨ b ∈ as := by
  have hb : b ∈ Function.update s.held c (s.held c ++ as) d := h
  by_cases hdc : d = c
  · subst hdc
    rw [Function.update_self] at hb
    exact List.mem_append.mp hb
  · rw [Function.update_of_ne hdc] at hb
    exact .inl hb

/-- What a caller gives away, it has had. -/
theorem kept_drop (hc : c < callers) {a : Nat} (ha : a ∈ s.held c) (b : Nat) :
    Custody.kept (Function.update s.held c ((s.held c).erase a)) callers b + [a].count b =
      Custody.kept s.held callers b := by
  have hmove := kept_update s.held (Function.update s.held c ((s.held c).erase a)) hc
    (fun d hd => Function.update_of_ne hd _ s.held) b
  have hperm := (List.perm_cons_erase ha).count_eq b
  rw [Function.update_self] at hmove
  rw [← List.singleton_append, List.count_append] at hperm
  omega

theorem mem_drop {a d b : Nat} (h : b ∈ Function.update s.held c ((s.held c).erase a) d) :
    b ∈ s.held d := by
  by_cases hdc : d = c
  · subst hdc
    rw [Function.update_self] at h
    exact List.mem_of_mem_erase h
  · rwa [Function.update_of_ne hdc] at h

theorem count_add (base i j : Nat) : [base + i].count (base + j) = [i].count j := by
  simp only [List.count_singleton, beq_iff_eq, Nat.add_left_cancel_iff]

/-- An index that a caller holds finds room on the stack. -/
theorem Conserved.room (h : Conserved base size callers s) (hc : c < callers) {i : Nat}
    (hi : i < size) (hheld : base + i ∈ s.held c) : s.pool.cnt < size := by
  have hkept := count_le_kept s.held hc (base + i)
  have hpos := List.count_pos_iff.mpr hheld
  have hcounts : ∀ j, (s.pool.stack ++ [i]).count j ≤ if j < size then 1 else 0 := by
    intro j
    rw [List.count_append, List.count_singleton]
    by_cases hj : j < size
    · have honce := h.once j hj
      rw [if_pos hj]
      by_cases hij : i = j
      · subst hij
        rw [if_pos (beq_self_eq_true i)]
        omega
      · rw [if_neg (by simpa using hij)]
        omega
    · have hout : s.pool.stack.count j = 0 := by
        apply List.count_eq_zero.mpr
        intro hmem
        exact hj (h.valid j hmem)
      have hne : i ≠ j := by omega
      rw [if_neg hj, hout, if_neg (by simpa using hne)]
  have hlength := length_le_of_count hcounts
  rw [List.length_append, length_stack] at hlength
  exact hlength

/-- An element of the pool goes to a caller. -/
theorem Conserved.pop (h : Conserved base size callers s) (hc : c < callers) {a : Nat} {p : Pool}
    (hpop : allocFromPool base s.pool = some (a, p)) :
    Conserved base size callers ({s with pool := p}.give c [a]) := by
  obtain ⟨i, rfl, hstack, hflag, hdropped⟩ := allocFromPool_some hpop
  have hi : i < size := h.valid i (by rw [hstack]; exact List.mem_append_right _ List.mem_cons_self)
  constructor
  · intro j hj
    have honce := h.once j hj
    rw [hstack, List.count_append, ← count_add base] at honce
    rw [kept_give hc]
    show p.stack.count j + (Custody.kept s.held callers (base + j) + _) = 1
    omega
  · intro j hj
    apply h.valid j
    rw [hstack]
    exact List.mem_append_left _ hj
  · intro d hd b hb
    show p.fromPool b = _
    rw [hflag]
    by_cases hba : b = base + i
    · rw [hba, Function.update_self, isInPool_add hi]
    · rw [Function.update_of_ne hba]
      rcases mem_give hb with hb | hb
      · exact h.flag d hd b hb
      · exact absurd (List.mem_singleton.mp hb) hba
  · exact hdropped.trans h.kept

/-- A heap element, which nobody has, goes to a caller. -/
theorem Conserved.heap (h : Conserved base size callers s) (hc : c < callers) {a : Nat}
    (hout : isInPool base size a = false) :
    Conserved base size callers ({s with pool := setFromPool a false s.pool}.give c [a]) := by
  constructor
  · intro j hj
    have hne : a ≠ base + j := by
      rintro rfl
      rw [isInPool_add hj] at hout
      cases hout
    rw [kept_give hc, List.count_singleton, if_neg (by simpa using hne)]
    exact h.once j hj
  · exact h.valid
  · intro d hd b hb
    show Function.update s.pool.fromPool a false b = _
    by_cases hba : b = a
    · rw [hba, Function.update_self, hout]
    · rw [Function.update_of_ne hba]
      rcases mem_give hb with hb | hb
      · exact h.flag d hd b hb
      · exact absurd (List.mem_singleton.mp hb) hba
  · exact h.kept

/-- What is put back of the pool is pushed, and finds room. -/
theorem Conserved.putBack_pool (h : Conserved base size callers s) (hc : c < callers) {i : Nat}
    (hi : i < size) (hheld : base + i ∈ s.held c) :
    (putBack base size (base + i) s.pool).stack = s.pool.stack ++ [i] ∧
      (putBack base size (base + i) s.pool).fromPool = s.pool.fromPool ∧
      (putBack base size (base + i) s.pool).dropped = s.pool.dropped := by
  have hroom := h.room hc hi hheld
  have hpush : putBack base size (base + i) s.pool = push size i s.pool := by
    rw [putBack, h.flag c hc _ hheld, if_pos (isInPool_add hi), Nat.add_sub_cancel_left]
  rw [hpush]
  refine ⟨stack_push hroom, ?_⟩
  rw [push, if_pos hroom]
  exact ⟨rfl, rfl⟩

/-- An element that its caller gives back goes where it comes from. -/
theorem Conserved.put (h : Conserved base size callers s) (hc : c < callers) {a : Nat}
    (hheld : a ∈ s.held c) :
    Conserved base size callers {s with
      pool := putBack base size a s.pool, held := Function.update s.held c ((s.held c).erase a)} := by
  have hdrop := kept_drop hc hheld
  by_cases hin : isInPool base size a = true
  · obtain ⟨hlo, hhi⟩ := of_decide_eq_true hin
    obtain ⟨i, rfl⟩ : ∃ i, a = base + i := ⟨a - base, by omega⟩
    have hi : i < size := by omega
    obtain ⟨hstack, hflag, hdropped⟩ := h.putBack_pool hc hi hheld
    constructor
    · intro j hj
      have honce := h.once j hj
      have hmoved := hdrop (base + j)
      rw [count_add] at hmoved
      show List.count j (putBack base size (base + i) s.pool).stack +
        Custody.kept (Function.update s.held c _) callers (base + j) = 1
      rw [hstack, List.count_append]
      omega
    · intro j hj
      have hj : j ∈ (putBack base size (base + i) s.pool).stack := hj
      rw [hstack, List.mem_append, List.mem_singleton] at hj
      rcases hj with hj | rfl
      · exact h.valid j hj
      · exact hi
    · intro d hd b hb
      show (putBack base size (base + i) s.pool).fromPool b = _
      rw [hflag]
      exact h.flag d hd b (mem_drop hb)
    · exact hdropped.trans h.kept
  · have hheap : putBack base size a s.pool = s.pool := by
      rw [putBack, h.flag c hc a hheld, if_neg hin]
    rw [hheap]
    constructor
    · intro j hj
      have hne : a ≠ base + j := by
        rintro rfl
        exact hin (isInPool_add hj)
      have hmoved := hdrop (base + j)
      rw [List.count_singleton, if_neg (by simpa using hne)] at hmoved
      show s.pool.stack.count j + Custody.kept (Function.update s.held c _) callers (base + j) = 1
      rw [← h.once j hj]
      omega
    · exact h.valid
    · intro d hd b hb
      exact h.flag d hd b (mem_drop hb)
    · exact h.kept

/-- The flag of an element that is held needs no correction. -/
theorem Conserved.freeSingleBurst_eq (h : Conserved base size callers s) (hc : c < callers) {a : Nat}
    (hheld : a ∈ s.held c) : freeSingleBurst base size a s.pool = putBack base size a s.pool := by
  have hflag := h.flag c hc a hheld
  rw [freeSingleBurst, fixUp, if_neg]
  rintro ⟨hin, hout⟩
  rw [hflag, hin] at hout
  cases hout

/-- Element by element, a list of what a caller holds is given back. -/
theorem Conserved.putAll (h : Conserved base size callers s) (hc : c < callers) {as : List Nat}
    (hheld : as.Subperm (s.held c)) :
    Conserved base size callers {s with
      pool := as.foldl (fun p a => freeSingleBurst base size a p) s.pool
      held := Function.update s.held c ((s.held c).diff as)} := by
  induction as generalizing s with
  | nil =>
    have hsame : Function.update s.held c (s.held c) = s.held := Function.update_eq_self c s.held
    rw [List.diff_nil, hsame]
    exact h
  | cons a as ih =>
    have ha : a ∈ s.held c := hheld.subset List.mem_cons_self
    have hput := h.put hc ha
    have hself : Function.update s.held c ((s.held c).erase a) c = (s.held c).erase a :=
      Function.update_self c _ s.held
    have hrest := ih hput (by
      show as.Subperm (Function.update s.held c ((s.held c).erase a) c)
      rw [hself]
      have hsub := hheld.erase a
      rwa [List.erase_cons_head] at hsub)
    have hheld' : Function.update (Function.update s.held c ((s.held c).erase a)) c
        ((Function.update s.held c ((s.held c).erase a) c).diff as) =
          Function.update s.held c ((s.held c).diff (a :: as)) := by
      rw [hself, Function.update_idem, List.diff_cons]
    dsimp only at hrest
    rw [hheld', ← h.freeSingleBurst_eq hc ha] at hrest
    exact hrest

/-- A batch goes to a caller. -/
theorem Conserved.batch (h : Conserved base size callers s) (hc : c < callers) (count : Nat) :
    Conserved base size callers
      ({s with pool := (allocBurstBatch base count s.pool).2}.give c
        (allocBurstBatch base count s.pool).1) := by
  induction count generalizing s with
  | zero =>
    show Conserved base size callers (s.give c [])
    rw [give_nil]
    exact h
  | succ count ih =>
    rw [allocBurstBatch]
    split
    case h_1 =>
      show Conserved base size callers (s.give c [])
      rw [give_nil]
      exact h
    case h_2 a p hpop =>
      have hrest : Conserved base size callers (({s with
          pool := (allocBurstBatch base count p).2}.give c [a]).give c
            (allocBurstBatch base count p).1) := ih (h.pop hc hpop)
      rwa [give_give] at hrest

theorem freeBurstBatch_eq (bursts : List (Option Nat)) (p : Pool) :
    freeBurstBatch base size bursts p =
      (bursts.filterMap id).foldl (fun p a => freeSingleBurst base size a p) p := by
  induction bursts generalizing p with
  | nil => rfl
  | cons burst bursts ih =>
    cases burst with
    | none => exact ih p
    | some a => exact ih _

theorem freeBurst_eq (chunk : Option Chunk) (p : Pool) :
    freeBurst base size chunk p =
      (Chunk.all chunk).foldl (fun p a => freeSingleBurst base size a p) p := by
  cases chunk with
  | none => rfl
  | some c => rw [Chunk.all, List.foldl_append]; rfl

/-! ### What the callers do -/

theorem Conserved.alloc (h : Conserved base size callers s) (hc : c < callers)
    (ht : s.alloc base c = some t) : Conserved base size callers t := by
  unfold Side.alloc at ht
  split at ht
  · cases ht
  · split at ht
    · cases ht
      exact ⟨h.once, h.valid, h.flag, h.kept⟩
    · next hpop =>
      cases ht
      exact h.pop hc hpop

theorem Conserved.allocDynamic (h : Conserved base size callers s) (hc : c < callers) {atomic : Bool}
    {kzalloc : Option Nat} (ht : s.allocDynamic base size c atomic kzalloc = some t) :
    Conserved base size callers t := by
  have hback : Conserved base size callers {s with missed := Function.update s.missed c false} :=
    ⟨h.once, h.valid, h.flag, h.kept⟩
  unfold Side.allocDynamic at ht
  split at ht
  · split at ht
    · cases ht
      exact hback
    · split at ht
      · cases ht
        exact hback
      · split at ht
        · cases ht
        · next hout =>
          cases ht
          exact hback.heap hc (Bool.eq_false_of_not_eq_true hout)
  · cases ht

/-- Who frees what he holds leaves the pools as they should be, if that is what `free` does. -/
theorem Conserved.free (h : Conserved base size callers s) (hc : c < callers) {free : Pool → Pool}
    {as : List Nat} (hfree : as.Subperm (s.held c) →
      free s.pool = as.foldl (fun p a => freeSingleBurst base size a p) s.pool)
    (ht : s.free free as c = some t) : Conserved base size callers t := by
  unfold Side.free at ht
  split at ht
  · next hheld =>
    cases ht
    rw [hfree hheld.2]
    exact h.putAll hc hheld.2
  · cases ht

end Steps

/-- Both pools. -/
structure Inv (l : Layout) (callers : Nat) (s : State) : Prop where
  bursts : Conserved l.burstPool l.burstPoolSize callers s.bursts
  descs : Conserved l.descPool l.descPoolSize callers s.descs

theorem inv_init (l : Layout) (callers : Nat) : Inv l callers (State.init l) := by
  have fresh : ∀ base size, Conserved base size callers
      ⟨memInit size, fun _ => [], fun _ => false⟩ := by
    intro base size
    have hstack : (memInit size).stack = List.range size := by
      show (List.range size).map (fun i => if i < size then i else 0) = List.range size
      calc (List.range size).map (fun i => if i < size then i else 0)
          = (List.range size).map id :=
            List.map_congr_left fun i hi => if_pos (List.mem_range.mp hi)
        _ = List.range size := List.map_id _
    constructor
    · intro i hi
      show (memInit size).stack.count i + _ = 1
      rw [hstack, kept_eq_zero (fun _ _ => rfl), Nat.add_zero]
      exact List.count_eq_one_of_mem List.nodup_range (List.mem_range.mpr hi)
    · intro i hi
      have hi : i ∈ (memInit size).stack := hi
      rw [hstack] at hi
      exact List.mem_range.mp hi
    · intro c hc a ha
      cases ha
    · rfl
  exact ⟨fresh _ _, fresh _ _⟩

theorem inv_step {l : Layout} {callers : Nat} {s t : State} {a : Nat × Act} (h : Inv l callers s)
    (ht : step l callers s a = some t) : Inv l callers t := by
  obtain ⟨c, action⟩ := a
  unfold step at ht
  split at ht
  case isFalse => cases ht
  case isTrue hc =>
  have onBursts : ∀ {o : Option Side}, (∀ u, o = some u →
      Conserved l.burstPool l.burstPoolSize callers u) →
      o.map (fun u => {s with bursts := u}) = some t → Inv l callers t := by
    intro o ho hmap
    obtain ⟨u, hu, rfl⟩ := Option.map_eq_some_iff.mp hmap
    exact ⟨ho u hu, h.descs⟩
  have onDescs : ∀ {o : Option Side}, (∀ u, o = some u →
      Conserved l.descPool l.descPoolSize callers u) →
      o.map (fun u => {s with descs := u}) = some t → Inv l callers t := by
    intro o ho hmap
    obtain ⟨u, hu, rfl⟩ := Option.map_eq_some_iff.mp hmap
    exact ⟨h.bursts, ho u hu⟩
  cases action with
  | allocBurst => exact onBursts (fun u hu => h.bursts.alloc hc hu) ht
  | allocBurstDynamic atomic kzalloc => exact onBursts (fun u hu => h.bursts.allocDynamic hc hu) ht
  | allocBurstBatch count =>
    simp only [act] at ht
    split at ht
    · cases ht
    · cases ht
      exact ⟨h.bursts.batch hc count, h.descs⟩
  | freeSingleBurst a => exact onBursts (fun u hu => h.bursts.free hc (fun _ => rfl) hu) ht
  | freeBurstBatch bursts =>
    exact onBursts (fun u hu => h.bursts.free hc (fun _ => freeBurstBatch_eq bursts _) hu) ht
  | freeBurst chunk => exact onBursts (fun u hu => h.bursts.free hc (fun _ => freeBurst_eq chunk _) hu) ht
  | allocDesc => exact onDescs (fun u hu => h.descs.alloc hc hu) ht
  | allocDescDynamic kzalloc => exact onDescs (fun u hu => h.descs.allocDynamic hc hu) ht
  | freeDesc a =>
    refine onDescs (fun u hu => h.descs.free hc (fun hheld => ?_) hu) ht
    exact (h.descs.freeSingleBurst_eq hc (hheld.subset List.mem_cons_self)).symm

/-! ### Conservation -/

/-- What is to be said of a pool: of the list, as far as it counts, of each index, and of their
number; and the guard of a push was never taken. -/
structure Conserves (base size callers : Nat) (s : Side) : Prop where
  distinct : s.pool.stack.Nodup
  valid : ∀ i ∈ s.pool.stack, i < size
  somewhere : ∀ i < size,
    (i ∈ s.pool.stack ∧ ∀ c < callers, base + i ∉ s.held c) ∨
    (i ∉ s.pool.stack ∧ ∃ c < callers, (s.held c).count (base + i) = 1 ∧
      ∀ d < callers, base + i ∈ s.held d → d = c)
  number : s.pool.cnt + ∑ c ∈ Finset.range callers, (s.held c).countP (isInPool base size) = size
  guard : s.pool.dropped = 0

section Counting
variable {base size callers : Nat} {s : Side}

/-- What is in the pool is counted index by index. -/
theorem countP_isInPool (l : List Nat) :
    l.countP (isInPool base size) = ∑ i ∈ Finset.range size, l.count (base + i) := by
  induction l with
  | nil => simp
  | cons a l ih =>
    simp only [List.countP_cons, List.count_cons, Finset.sum_add_distrib, ih]
    congr 1
    by_cases hin : isInPool base size a = true
    · obtain ⟨hlo, hhi⟩ := of_decide_eq_true hin
      obtain ⟨i, rfl⟩ : ∃ i, a = base + i := ⟨a - base, by omega⟩
      simp only [hin, if_true, beq_iff_eq, Nat.add_left_cancel_iff]
      rw [Finset.sum_ite_eq, if_pos (Finset.mem_range.mpr (by omega))]
    · rw [if_neg hin]
      symm
      apply Finset.sum_eq_zero
      intro i hi
      rw [if_neg]
      intro heq
      rw [beq_iff_eq] at heq
      subst heq
      exact hin (isInPool_add (Finset.mem_range.mp hi))

/-- Numbers below `size` are counted one by one. -/
theorem length_eq_sum {l : List Nat} (h : ∀ i ∈ l, i < size) :
    l.length = ∑ i ∈ Finset.range size, l.count i := by
  have hall : l.countP (isInPool 0 size) = l.length := by
    apply List.countP_eq_length.mpr
    intro i hi
    exact decide_eq_true ⟨Nat.zero_le i, by have := h i hi; omega⟩
  rw [← hall, countP_isInPool]
  simp only [Nat.zero_add]

theorem Conserved.conserves (h : Conserved base size callers s) :
    Conserves base size callers s := by
  constructor
  · rw [List.nodup_iff_count_le_one]
    intro i
    by_cases hi : i < size
    · have := h.once i hi
      omega
    · rw [List.count_eq_zero.mpr fun hmem => hi (h.valid i hmem)]
      omega
  · exact h.valid
  · intro i hi
    have honce := h.once i hi
    by_cases hmem : i ∈ s.pool.stack
    · have hpos := List.count_pos_iff.mpr hmem
      have hnone : Custody.kept s.held callers (base + i) = 0 := by omega
      exact .inl ⟨hmem, fun c hc => not_mem_of_kept hnone hc⟩
    · rw [List.count_eq_zero.mpr hmem, Nat.zero_add] at honce
      exact .inr ⟨hmem, exists_keeper honce⟩
  · have hsum : s.pool.stack.length + ∑ c ∈ Finset.range callers,
        (s.held c).countP (isInPool base size) = ∑ i ∈ Finset.range size, 1 := by
      simp only [countP_isInPool]
      rw [length_eq_sum h.valid, Finset.sum_comm, ← Finset.sum_add_distrib]
      exact Finset.sum_congr rfl fun i hi => h.once i (Finset.mem_range.mp hi)
    rw [length_stack] at hsum
    rwa [← Finset.card_eq_sum_ones, Finset.card_range] at hsum
  · exact h.kept

end Counting

/-- **The pools conserve their elements**, whatever the callers allocate and free, as long as
each frees what it holds. -/
theorem pools_conserved {l : Layout} {callers : Nat} {as : List (Nat × Act)} {s : State}
    (h : Machine.run (step l callers) (State.init l) as = some s) :
    Conserves l.burstPool l.burstPoolSize callers s.bursts ∧
      Conserves l.descPool l.descPoolSize callers s.descs := by
  have inv := Machine.invariant (step l callers) (fun _ _ _ => inv_step) (inv_init l callers) h
  exact ⟨inv.bursts.conserves, inv.descs.conserves⟩

/-- Two callers, two bursts and one descriptor: each routine is run, also where a pool is empty. -/
theorem pools_conserved_two : ∃ s, Machine.run (step ⟨10, 2, 20, 1⟩ 2) (State.init ⟨10, 2, 20, 1⟩)
      [(0, .allocBurstBatch 1), (1, .allocBurst), (0, .allocBurst),
        (0, .allocBurstDynamic false (some 30)), (0, .freeBurstBatch [none, some 11, none, some 30]),
        (0, .allocBurst), (0, .freeBurst (some ⟨11, []⟩)), (1, .freeSingleBurst 10),
        (1, .allocDesc), (0, .allocDesc), (0, .allocDescDynamic (some 40)), (1, .freeDesc 20),
        (0, .freeDesc 40)] = some s ∧
    Conserves 10 2 2 s.bursts ∧ Conserves 20 1 2 s.descs := by
  obtain ⟨s, hs⟩ := Option.isSome_iff_exists.mp (show (Machine.run (step ⟨10, 2, 20, 1⟩ 2)
    (State.init ⟨10, 2, 20, 1⟩) [(0, .allocBurstBatch 1), (1, .allocBurst), (0, .allocBurst),
      (0, .allocBurstDynamic false (some 30)), (0, .freeBurstBatch [none, some 11, none, some 30]),
      (0, .allocBurst), (0, .freeBurst (some ⟨11, []⟩)), (1, .freeSingleBurst 10),
      (1, .allocDesc), (0, .allocDesc), (0, .allocDescDynamic (some 40)), (1, .freeDesc 20),
      (0, .freeDesc 40)]).isSome by decide)
  exact ⟨s, hs, pools_conserved hs⟩

end DxNpuDriver.Edma.Pools
