import DxNpuDriver.Lib.Machine
import Mathlib.Data.List.Nodup
import Mathlib.Data.List.Range

/-! The descriptors of a channel and the tasklet that calls back (`virt-dma.c`,
`virt-dma.h`, `dmaengine.h`).

Under `vc.lock` a descriptor passes from the allocated list to the submitted, the issued
and the completed one. `vchan_complete` takes the completed list for itself, and calls
back and frees one descriptor after the other without the lock. Any number of threads
drain the channel meanwhile (`dw_edma_device_terminate_all`,
`dx_pcie_reset_dma_channels`): each waits in `tasklet_kill`, collects what the lists
hold, and frees it.

The tasklet has the two bits it has in the kernel. SCHED is also what `tasklet_kill`
locks itself in with, so what is completed under it schedules nothing. -/
namespace DxNpuDriver.Edma.VirtDma
open Machine (run run_cons invariant)

/-! ### Cookies -/

def DMA_MIN_COOKIE : Int := 1

/-- `dma_cookie_assign`, in 32 bits. -/
def dmaCookieAssign (last : Int) : Int :=
  let cookie := (last + 1).bmod (2 ^ 32)
  if cookie < DMA_MIN_COOKIE then DMA_MIN_COOKIE else cookie

inductive DmaStatus where
  | complete | inProgress
  deriving DecidableEq

/-- `dma_async_is_complete` of the kernel. -/
def dmaAsyncIsComplete (cookie lastComplete lastUsed : Int) : DmaStatus :=
  if lastComplete ≤ lastUsed then
    if cookie ≤ lastComplete ∨ lastUsed < cookie then .complete else .inProgress
  else
    if cookie ≤ lastComplete ∧ lastUsed < cookie then .complete else .inProgress

/-- How many cookies there are. -/
def cookies : Nat := 2147483647

/-- The cookie of the `n`th transfer. -/
def cookieOf (n : Nat) : Int := DMA_MIN_COOKIE + (n % cookies : Nat)

theorem cookieOf_pos (n : Nat) : ¬ cookieOf n < DMA_MIN_COOKIE := by
  rw [cookieOf]
  omega

theorem cookieOf_le {n m : Nat} : cookieOf n ≤ cookieOf m ↔ n % cookies ≤ m % cookies := by
  rw [cookieOf, cookieOf]
  omega

theorem cookieOf_lt {n m : Nat} : cookieOf n < cookieOf m ↔ n % cookies < m % cookies := by
  rw [cookieOf, cookieOf]
  omega

theorem dmaCookieAssign_cookieOf (n : Nat) : dmaCookieAssign (cookieOf n) = cookieOf (n + 1) := by
  unfold dmaCookieAssign cookieOf DMA_MIN_COOKIE cookies
  rw [Int.bmod_def]
  dsimp only
  split <;> split <;> omega

theorem isComplete_iff {c l u : Int} : dmaAsyncIsComplete c l u = .complete ↔
    if l ≤ u then c ≤ l ∨ u < c else c ≤ l ∧ u < c := by
  unfold dmaAsyncIsComplete
  split
  · simp only [ite_eq_left_iff, reduceCtorEq, imp_false, Decidable.not_not]
  · simp only [ite_eq_left_iff, reduceCtorEq, imp_false, Decidable.not_not]

/-- The cookies keep the order of the transfers, as long as none is given a second time. -/
theorem isComplete_cookieOf {n last used : Nat} (hn : n ≤ used) (hlast : last ≤ used)
    (hrecent : used < n + cookies) (hdone : used < last + cookies) :
    dmaAsyncIsComplete (cookieOf n) (cookieOf last) (cookieOf used) = .complete ↔ n ≤ last := by
  rw [isComplete_iff]
  simp only [cookieOf_le, cookieOf_lt, cookies] at hrecent hdone ⊢
  split <;> omega

/-! ### The channel -/

/-- A descriptor that was submitted as the `nth`. -/
structure Tx where
  id : Nat
  nth : Nat
  cookie : Int
  deriving DecidableEq

/-- `TASKLET_STATE_SCHED`: clear, set for a run of the tasklet, or set by `tasklet_kill`. -/
inductive Sched where
  | clear | queued | kill
  deriving DecidableEq

/-- `vchan_complete`: before its lock section; in its loop over what it took; and between
the callback of a descriptor and its `vchan_vdesc_fini`. Not idle is `TASKLET_STATE_RUN`. -/
inductive Tasklet where
  | idle
  | entered
  | loop (head : List Tx)
  | called (d : Tx) (head : List Tx)
  deriving DecidableEq

/-- A thread that drains, with what it has taken: before `tasklet_kill`; in it; after it,
and whether the tasklet has been scheduled since; and freeing. `flush` is a
`tasklet_kill` that nothing is collected after. -/
inductive Drain where
  | enter (head : List Nat) (flush : Bool)
  | kill (head : List Nat) (flush : Bool)
  | collect (head : List Nat) (late : Bool)
  | free (head : List Nat)
  deriving DecidableEq

inductive Event where
  | callback (d : Tx)
  | free (id : Nat)
  deriving DecidableEq

/-- The channel. `made` counts the descriptors and is the number of the next one; `used`
counts the submissions, and `done` is the submission that completed last. -/
structure State where
  cookie : Int
  completedCookie : Int
  allocated : List Nat
  submitted : List Tx
  issued : List Tx
  completed : List Tx
  sched : Sched
  tasklet : Tasklet
  drains : List Drain
  events : List Event
  /-- The `BUG_ON` of `dma_cookie_complete`. -/
  bug : Bool
  made : Nat
  used : Nat
  done : Nat

/-- `vchan_init`. -/
def initial : State :=
  ⟨DMA_MIN_COOKIE, DMA_MIN_COOKIE, [], [], [], [], .clear, .idle, [], [], false, 0, 0, 0⟩

def Tasklet.head : Tasklet → List Tx
  | .loop head | .called _ head => head
  | .idle | .entered => []

/-- What the tasklet has called back and not yet freed. -/
def Tasklet.last : Tasklet → List Nat
  | .called d _ => [d.id]
  | .idle | .entered | .loop _ => []

def Drain.head : Drain → List Nat
  | .enter head _ | .kill head _ | .collect head _ | .free head => head

def Drain.schedule : Drain → Drain
  | .collect head _ => .collect head true
  | d => d

/-- `tasklet_schedule` and `tasklet_hi_schedule`: nothing if SCHED is set. -/
def taskletSchedule (s : State) : State :=
  if s.sched = .clear then {s with sched := .queued, drains := s.drains.map Drain.schedule} else s

def vchanTxPrep (s : State) : State :=
  {s with allocated := s.allocated ++ [s.made], made := s.made + 1}

def vchanTxSubmit (s : State) (id : Nat) : State :=
  let cookie := dmaCookieAssign s.cookie
  {s with
    cookie
    allocated := s.allocated.erase id
    submitted := s.submitted ++ [⟨id, s.used + 1, cookie⟩]
    used := s.used + 1}

def vchanIssuePending (s : State) : State :=
  {s with issued := s.issued ++ s.submitted, submitted := []}

/-- What `list_del` and `dma_cookie_complete` do to the first issued descriptor. -/
def dmaCookieComplete (s : State) (d : Tx) (rest : List Tx) : State :=
  {s with
    completedCookie := d.cookie
    issued := rest
    completed := s.completed ++ [{d with cookie := 0}]
    bug := s.bug || decide (d.cookie < DMA_MIN_COOKIE)
    done := d.nth}

inductive Label where
  | prep
  | submit (id : Nat)
  | issue
  | complete
  | hiSchedule
  | begin
  | splice
  | callback
  | fini
  | finish
  /-- A drain begins; one that finds `EDMA_REQ_STOP` set takes the lists first. -/
  | drain (early : Bool)
  | flush
  | thread (i : Nat)
  deriving DecidableEq

/-- `vchan_get_all_descriptors`. -/
def State.all (s : State) : List Nat :=
  s.allocated ++ s.submitted.map Tx.id ++ s.issued.map Tx.id ++ s.completed.map Tx.id

def State.taken (s : State) : State :=
  {s with allocated := [], submitted := [], issued := [], completed := []}

def Drain.step (s : State) (i : Nat) : Drain → Option State
  | .enter head flush =>
    if s.sched = .clear then
      some {s with sched := .kill, drains := s.drains.set i (.kill head flush)}
    else none
  | .kill head flush =>
    if s.tasklet = .idle then
      let next := if flush then .free head else .collect head false
      some {s with sched := .clear, drains := s.drains.set i next}
    else none
  | .collect head _ => some {s.taken with drains := s.drains.set i (.free (head ++ s.all))}
  | .free (id :: rest) =>
    some {s with events := s.events ++ [.free id], drains := s.drains.set i (.free rest)}
  | .free [] => none

def step (s : State) : Label → Option State
  | .prep => some (vchanTxPrep s)
  | .submit id => if id ∈ s.allocated then some (vchanTxSubmit s id) else none
  | .issue => some (vchanIssuePending s)
  | .complete =>
    match s.issued with
    | [] => none
    | d :: rest => some (taskletSchedule (dmaCookieComplete s d rest))
  | .hiSchedule => some (taskletSchedule s)
  | .begin =>
    if s.sched = .queued ∧ s.tasklet = .idle then some {s with sched := .clear, tasklet := .entered}
    else none
  | .splice =>
    if s.tasklet = .entered then some {s with tasklet := .loop s.completed, completed := []}
    else none
  | .callback =>
    match s.tasklet with
    | .loop (d :: head) =>
      some {s with tasklet := .called d head, events := s.events ++ [.callback d]}
    | _ => none
  | .fini =>
    match s.tasklet with
    | .called d head => some {s with tasklet := .loop head, events := s.events ++ [.free d.id]}
    | _ => none
  | .finish => if s.tasklet = .loop [] then some {s with tasklet := .idle} else none
  | .drain early =>
    if early then some {s.taken with drains := s.drains ++ [.enter s.all false]}
    else some {s with drains := s.drains ++ [.enter [] false]}
  | .flush => some {s with drains := s.drains ++ [.enter [] true]}
  | .thread i => s.drains[i]?.bind fun d => d.step s i

/-! ### Cookies and order -/

def Event.tx : Event → Option Tx
  | .callback d => some d
  | .free _ => none

/-- The descriptors that were called back, in their order. -/
def State.called (s : State) : List Tx := s.events.filterMap Event.tx

/-- What has completed, and what is on its way to it. -/
def State.past (s : State) : List Tx := s.called ++ s.tasklet.head ++ s.completed
def State.onWay (s : State) : List Tx := s.issued ++ s.submitted

structure Ordered (s : State) : Prop where
  line : ((s.past ++ s.onWay).map Tx.nth).Pairwise (· < ·)
  past : ∀ d ∈ s.past, d.nth ≤ s.done
  onWay : ∀ d ∈ s.onWay, s.done < d.nth ∧ d.nth ≤ s.used ∧ d.cookie = cookieOf d.nth
  done : s.done ≤ s.used
  cookie : s.cookie = cookieOf s.used
  completedCookie : s.completedCookie = cookieOf s.done
  bug : s.bug = false

theorem ordered_initial : Ordered initial := by
  refine ⟨List.Pairwise.nil, List.forall_mem_nil _, List.forall_mem_nil _, Nat.le_refl _, rfl, rfl,
    rfl⟩

/-- Where no descriptor comes in and the cookies stay. -/
theorem Ordered.sub {s t : State} (inv : Ordered s) (hpast : t.past.Sublist s.past)
    (honWay : t.onWay.Sublist s.onWay) (hdone : t.done = s.done) (hused : t.used = s.used)
    (hcookie : t.cookie = s.cookie) (hcompleted : t.completedCookie = s.completedCookie)
    (hbug : t.bug = s.bug) : Ordered t := by
  refine ⟨inv.line.sublist ((hpast.append honWay).map _), fun d hd => ?_, fun d hd => ?_, ?_, ?_,
    ?_, ?_⟩
  · rw [hdone]
    exact inv.past d (hpast.subset hd)
  · rw [hdone, hused]
    exact inv.onWay d (honWay.subset hd)
  · rw [hdone, hused]
    exact inv.done
  · rw [hcookie, hused]
    exact inv.cookie
  · rw [hcompleted, hdone]
    exact inv.completedCookie
  · rw [hbug]
    exact inv.bug

theorem taskletSchedule_cases (s : State) :
    (s.sched ≠ .clear ∧ taskletSchedule s = s) ∨
      (s.sched = .clear ∧
        taskletSchedule s = {s with sched := .queued, drains := s.drains.map Drain.schedule}) := by
  unfold taskletSchedule
  split
  · exact .inr ⟨by assumption, rfl⟩
  · exact .inl ⟨by assumption, rfl⟩

theorem Ordered.schedule {s : State} (inv : Ordered s) : Ordered (taskletSchedule s) := by
  obtain ⟨-, h⟩ | ⟨-, h⟩ := taskletSchedule_cases s
  · rw [h]
    exact inv
  · rw [h]
    exact inv.sub (.refl _) (.refl _) rfl rfl rfl rfl rfl

theorem called_free (s : State) (id : Nat) :
    (s.events ++ [Event.free id]).filterMap Event.tx = s.called := by
  rw [List.filterMap_append]
  exact List.append_nil _

theorem called_callback (s : State) (d : Tx) :
    (s.events ++ [Event.callback d]).filterMap Event.tx = s.called ++ [d] := by
  rw [List.filterMap_append]
  rfl

theorem past_taken (s : State) : s.taken.past.Sublist s.past := by
  show (s.called ++ s.tasklet.head ++ []).Sublist (s.called ++ s.tasklet.head ++ s.completed)
  exact (List.nil_sublist _).append_left _

theorem Drain.step_ordered {s t : State} {i : Nat} {d : Drain} (inv : Ordered s)
    (h : d.step s i = some t) : Ordered t := by
  cases d with
  | enter head flush =>
    simp only [Drain.step, Option.ite_none_right_eq_some, Option.some.injEq] at h
    obtain ⟨-, rfl⟩ := h
    exact inv.sub (.refl _) (.refl _) rfl rfl rfl rfl rfl
  | kill head flush =>
    simp only [Drain.step, Option.ite_none_right_eq_some, Option.some.injEq] at h
    obtain ⟨-, rfl⟩ := h
    exact inv.sub (.refl _) (.refl _) rfl rfl rfl rfl rfl
  | collect head late =>
    cases h
    exact inv.sub (past_taken s) (List.nil_sublist _) rfl rfl rfl rfl rfl
  | free head =>
    cases head with
    | nil => cases h
    | cons id rest =>
      cases h
      refine inv.sub ?_ (.refl _) rfl rfl rfl rfl rfl
      unfold State.past State.called
      dsimp only
      rw [called_free]
      exact .refl _

theorem past_complete (s : State) (d : Tx) (rest : List Tx) :
    (dmaCookieComplete s d rest).past = s.past ++ [{d with cookie := 0}] := by
  unfold State.past
  rw [List.append_assoc (s.called ++ s.tasklet.head)]
  rfl

theorem complete_ordered {s : State} {d : Tx} {rest : List Tx} (inv : Ordered s)
    (hissued : s.issued = d :: rest) : Ordered (dmaCookieComplete s d rest) := by
  have hway : s.onWay = d :: (rest ++ s.submitted) := by
    rw [State.onWay, hissued]
    rfl
  obtain ⟨hlt, hle, hcookie⟩ := inv.onWay d (by rw [hway]; exact List.mem_cons_self)
  have hline := inv.line
  rw [hway, List.map_append, List.map_cons, List.pairwise_append, List.pairwise_cons] at hline
  obtain ⟨hpast, ⟨hnext, hway'⟩, hacross⟩ := hline
  refine ⟨?_, ?_, fun e he => ?_, hle, inv.cookie, hcookie, ?_⟩
  · rw [past_complete, List.append_assoc, List.map_append]
    show (s.past.map Tx.nth ++ d.nth :: (rest ++ s.submitted).map Tx.nth).Pairwise _
    rw [List.pairwise_append, List.pairwise_cons]
    exact ⟨hpast, ⟨hnext, hway'⟩, hacross⟩
  · rw [past_complete]
    intro e he
    obtain he | he := List.mem_append.mp he
    · exact Nat.le_of_lt (Nat.lt_of_le_of_lt (inv.past e he) hlt)
    · rw [List.mem_singleton.mp he]
      exact Nat.le_refl _
  · have hmem : e ∈ s.onWay := by
      rw [hway]
      exact List.mem_cons_of_mem _ he
    exact ⟨hnext _ (List.mem_map_of_mem he), (inv.onWay e hmem).2⟩
  · show (s.bug || decide (d.cookie < DMA_MIN_COOKIE)) = false
    rw [inv.bug, hcookie, decide_eq_false (cookieOf_pos _)]
    rfl

theorem onWay_submit (s : State) (id : Nat) :
    (vchanTxSubmit s id).onWay = s.onWay ++ [⟨id, s.used + 1, dmaCookieAssign s.cookie⟩] := by
  unfold State.onWay
  rw [List.append_assoc]
  rfl

theorem submit_ordered {s : State} (inv : Ordered s) (id : Nat) : Ordered (vchanTxSubmit s id) := by
  have hnew : dmaCookieAssign s.cookie = cookieOf (s.used + 1) := by
    rw [inv.cookie, dmaCookieAssign_cookieOf]
  refine ⟨?_, inv.past, ?_, Nat.le_succ_of_le inv.done, hnew, inv.completedCookie, inv.bug⟩
  · rw [onWay_submit, ← List.append_assoc, List.map_append, List.pairwise_append]
    refine ⟨inv.line, List.pairwise_singleton _ _, fun n hn m hm => ?_⟩
    rw [List.mem_singleton.mp hm]
    obtain ⟨e, he, rfl⟩ := List.mem_map.mp hn
    refine Nat.lt_succ_of_le ?_
    obtain he | he := List.mem_append.mp he
    · exact (inv.past e he).trans inv.done
    · exact (inv.onWay e he).2.1
  · rw [onWay_submit]
    intro e he
    obtain he | he := List.mem_append.mp he
    · obtain ⟨hlt, hle, hcookie⟩ := inv.onWay e he
      exact ⟨hlt, Nat.le_succ_of_le hle, hcookie⟩
    · rw [List.mem_singleton.mp he]
      exact ⟨Nat.lt_succ_of_le inv.done, Nat.le_refl _, hnew⟩

theorem step_ordered (s : State) (l : Label) (t : State) (inv : Ordered s)
    (h : step s l = some t) : Ordered t := by
  cases l with
  | prep =>
    cases h
    exact inv.sub (.refl _) (.refl _) rfl rfl rfl rfl rfl
  | submit id =>
    simp only [step, Option.ite_none_right_eq_some, Option.some.injEq] at h
    obtain ⟨-, rfl⟩ := h
    exact submit_ordered inv id
  | issue =>
    cases h
    refine inv.sub (.refl _) ?_ rfl rfl rfl rfl rfl
    show (s.issued ++ s.submitted ++ []).Sublist (s.issued ++ s.submitted)
    rw [List.append_nil]
  | complete =>
    simp only [step] at h
    split at h
    · cases h
    · cases h
      exact (complete_ordered inv ‹_›).schedule
  | hiSchedule =>
    cases h
    exact inv.schedule
  | begin =>
    simp only [step, Option.ite_none_right_eq_some, Option.some.injEq] at h
    obtain ⟨⟨-, hidle⟩, rfl⟩ := h
    refine inv.sub ?_ (.refl _) rfl rfl rfl rfl rfl
    unfold State.past
    rw [hidle]
    exact .refl _
  | splice =>
    simp only [step, Option.ite_none_right_eq_some, Option.some.injEq] at h
    obtain ⟨hentered, rfl⟩ := h
    refine inv.sub ?_ (.refl _) rfl rfl rfl rfl rfl
    unfold State.past
    rw [hentered]
    show (s.called ++ s.completed ++ []).Sublist (s.called ++ [] ++ s.completed)
    rw [List.append_nil, List.append_nil]
  | callback =>
    simp only [step] at h
    split at h
    · rename_i d head hloop
      cases h
      refine inv.sub ?_ (.refl _) rfl rfl rfl rfl rfl
      unfold State.past State.called
      dsimp only
      rw [called_callback, hloop, List.append_assoc s.called]
      exact .refl _
    · cases h
  | fini =>
    simp only [step] at h
    split at h
    · rename_i d head hcalled
      cases h
      refine inv.sub ?_ (.refl _) rfl rfl rfl rfl rfl
      unfold State.past State.called
      dsimp only
      rw [called_free, hcalled]
      exact .refl _
    · cases h
  | finish =>
    simp only [step, Option.ite_none_right_eq_some, Option.some.injEq] at h
    obtain ⟨hloop, rfl⟩ := h
    refine inv.sub ?_ (.refl _) rfl rfl rfl rfl rfl
    unfold State.past
    rw [hloop]
    exact .refl _
  | drain early =>
    simp only [step] at h
    split at h
    · cases h
      exact inv.sub (past_taken s) (List.nil_sublist _) rfl rfl rfl rfl rfl
    · cases h
      exact inv.sub (.refl _) (.refl _) rfl rfl rfl rfl rfl
  | flush =>
    cases h
    exact inv.sub (.refl _) (.refl _) rfl rfl rfl rfl rfl
  | thread i =>
    obtain ⟨d, -, hd⟩ := Option.bind_eq_some_iff.mp h
    exact Drain.step_ordered inv hd

/-! ### Custody -/

def Event.freed : Event → Option Nat
  | .callback _ => none
  | .free id => some id

def State.freed (s : State) : List Nat := s.events.filterMap Event.freed

/-- The descriptors that the channel has: in its lists, in the hands of its tasklet. -/
def State.live (s : State) : List Nat := s.all ++ s.tasklet.head.map Tx.id ++ s.tasklet.last

/-- The descriptors that a drain has, and those that are freed. -/
def State.gone (s : State) : List Nat := s.drains.flatMap Drain.head ++ s.freed

/-- A step brings a new descriptor in, or takes some from the channel. -/
inductive Moves (s t : State) : Prop
  | made (live : t.live.Perm (s.live ++ [s.made])) (gone : t.gone = s.gone)
    (made : t.made = s.made + 1)
  | moved (ids : List Nat) (live : s.live.Perm (t.live ++ ids)) (gone : t.gone.Perm (s.gone ++ ids))
    (made : t.made = s.made)

theorem Moves.of_count {s t : State} (ids : List Nat)
    (live : ∀ id, s.live.count id = t.live.count id + ids.count id)
    (gone : ∀ id, t.gone.count id = s.gone.count id + ids.count id) (made : t.made = s.made) :
    Moves s t := by
  refine .moved ids (List.perm_iff_count.mpr fun id => ?_)
    (List.perm_iff_count.mpr fun id => ?_) made
  · rw [live, List.count_append]
  · rw [gone, List.count_append]

/-- What one drain takes or gives up, in the custody of all. -/
theorem count_set {drains : List Drain} {i : Nat} {d : Drain} (h : drains[i]? = some d) (e : Drain)
    (id : Nat) :
    ((drains.set i e).flatMap Drain.head).count id + d.head.count id =
      (drains.flatMap Drain.head).count id + e.head.count id := by
  induction drains generalizing i with
  | nil => cases h
  | cons a rest ih =>
    cases i with
    | zero =>
      cases h
      simp only [List.set_cons_zero, List.flatMap_cons, List.count_append]
      omega
    | succ i =>
      have := ih h
      simp only [List.set_cons_succ, List.flatMap_cons, List.count_append]
      omega

theorem flatMap_schedule (drains : List Drain) :
    (drains.map Drain.schedule).flatMap Drain.head = drains.flatMap Drain.head := by
  rw [List.flatMap_map]
  congr 1
  funext d
  cases d <;> rfl

theorem moves_schedule {s t : State} (h : Moves s t) : Moves s (taskletSchedule t) := by
  obtain ⟨-, hsame⟩ | ⟨-, hsame⟩ := taskletSchedule_cases t
  · rw [hsame]
    exact h
  · rw [hsame]
    have hgone : State.gone {t with sched := .queued, drains := t.drains.map Drain.schedule} =
        t.gone := by
      unfold State.gone
      dsimp only
      rw [flatMap_schedule]
      rfl
    cases h with
    | made live gone made => exact .made live (hgone.trans gone) made
    | moved ids live gone made => exact .moved ids live (hgone ▸ gone) made

theorem freed_free (s : State) (id : Nat) :
    (s.events ++ [Event.free id]).filterMap Event.freed = s.freed ++ [id] := by
  rw [List.filterMap_append]
  rfl

theorem freed_callback (s : State) (d : Tx) :
    (s.events ++ [Event.callback d]).filterMap Event.freed = s.freed := by
  rw [List.filterMap_append]
  exact List.append_nil _

theorem Drain.step_moves {s t : State} {i : Nat} {d : Drain} (hi : s.drains[i]? = some d)
    (h : d.step s i = some t) : Moves s t := by
  have hset := count_set hi
  cases d with
  | enter head flush =>
    simp only [Drain.step, Option.ite_none_right_eq_some, Option.some.injEq] at h
    obtain ⟨-, rfl⟩ := h
    refine .of_count [] (fun id => rfl) (fun id => ?_) rfl
    have := hset (.kill head flush) id
    simp only [State.gone, State.freed, List.count_append, List.count_nil, Drain.head] at this ⊢
    omega
  | kill head flush =>
    simp only [Drain.step, Option.ite_none_right_eq_some, Option.some.injEq] at h
    obtain ⟨-, rfl⟩ := h
    refine .of_count [] (fun id => rfl) (fun id => ?_) rfl
    have hhead : (if flush then Drain.free head else .collect head false).head = head := by
      cases flush <;> rfl
    have := hset (if flush then .free head else .collect head false) id
    rw [hhead] at this
    simp only [State.gone, State.freed, List.count_append, List.count_nil, Drain.head] at this ⊢
    omega
  | collect head late =>
    cases h
    refine .of_count s.all (fun id => ?_) (fun id => ?_) rfl
    · simp only [State.live, State.all, State.taken, List.count_append, List.map_nil,
        List.count_nil]
      omega
    · have := hset (.free (head ++ s.all)) id
      simp only [State.gone, State.freed, State.taken, List.count_append, Drain.head] at this ⊢
      omega
  | free head =>
    cases head with
    | nil => cases h
    | cons id' rest =>
      cases h
      refine .of_count [] (fun id => rfl) (fun id => ?_) rfl
      have := hset (.free rest) id
      have hfreed := freed_free s id'
      simp only [State.gone, State.freed, List.count_append, Drain.head, List.count_cons,
        List.count_nil, hfreed] at this ⊢
      omega

theorem step_moves {s t : State} {l : Label} (h : step s l = some t) : Moves s t := by
  cases l with
  | prep =>
    cases h
    refine .made (List.perm_iff_count.mpr fun id => ?_) rfl rfl
    simp only [State.live, State.all, vchanTxPrep, List.count_append]
    omega
  | submit id' =>
    simp only [step, Option.ite_none_right_eq_some, Option.some.injEq] at h
    obtain ⟨hmem, rfl⟩ := h
    refine .of_count [] (fun id => ?_) (fun id => rfl) rfl
    have herase := (List.perm_cons_erase hmem).count_eq id
    simp only [State.live, State.all, vchanTxSubmit, List.count_append, List.map_append,
      List.map_cons, List.map_nil, List.count_cons, List.count_nil] at herase ⊢
    omega
  | issue =>
    cases h
    refine .of_count [] (fun id => ?_) (fun id => rfl) rfl
    simp only [State.live, State.all, vchanIssuePending, List.count_append, List.map_append,
      List.map_nil, List.count_nil]
    omega
  | complete =>
    simp only [step] at h
    split at h
    · cases h
    · rename_i d rest hissued
      cases h
      refine moves_schedule (.of_count [] (fun id => ?_) (fun id => rfl) rfl)
      simp only [State.live, State.all, dmaCookieComplete, hissued, List.count_append,
        List.map_append, List.map_cons, List.map_nil, List.count_cons, List.count_nil]
      omega
  | hiSchedule =>
    cases h
    exact moves_schedule (.of_count [] (fun id => rfl) (fun id => rfl) rfl)
  | begin =>
    simp only [step, Option.ite_none_right_eq_some, Option.some.injEq] at h
    obtain ⟨⟨-, hidle⟩, rfl⟩ := h
    refine .of_count [] (fun id => ?_) (fun id => rfl) rfl
    simp only [State.live, State.all, hidle, Tasklet.head, Tasklet.last, List.count_nil,
      Nat.add_zero]
  | splice =>
    simp only [step, Option.ite_none_right_eq_some, Option.some.injEq] at h
    obtain ⟨hentered, rfl⟩ := h
    refine .of_count [] (fun id => ?_) (fun id => rfl) rfl
    simp only [State.live, State.all, hentered, Tasklet.head, Tasklet.last, List.count_append,
      List.map_nil, List.count_nil]
    omega
  | callback =>
    simp only [step] at h
    split at h
    · rename_i d head hloop
      cases h
      refine .of_count [] (fun id => ?_) (fun id => ?_) rfl
      · simp only [State.live, State.all, hloop, Tasklet.head, Tasklet.last, List.count_append,
          List.map_cons, List.count_cons, List.count_nil]
        omega
      · have hfreed := freed_callback s d
        simp only [State.gone, State.freed, hfreed, List.count_nil, Nat.add_zero]
    · cases h
  | fini =>
    simp only [step] at h
    split at h
    · rename_i d head hcalled
      cases h
      refine .of_count [d.id] (fun id => ?_) (fun id => ?_) rfl
      · simp only [State.live, State.all, hcalled, Tasklet.head, Tasklet.last, List.count_append,
          List.count_nil, Nat.add_zero]
      · have hfreed := freed_free s d.id
        simp only [State.gone, State.freed, hfreed, List.count_append]
        omega
    · cases h
  | finish =>
    simp only [step, Option.ite_none_right_eq_some, Option.some.injEq] at h
    obtain ⟨hloop, rfl⟩ := h
    refine .of_count [] (fun id => ?_) (fun id => rfl) rfl
    simp only [State.live, State.all, hloop, Tasklet.head, Tasklet.last, List.count_nil,
      Nat.add_zero]
  | drain early =>
    simp only [step] at h
    split at h
    · cases h
      refine .of_count s.all (fun id => ?_) (fun id => ?_) rfl
      · simp only [State.live, State.all, State.taken, List.count_append, List.map_nil,
          List.count_nil]
        omega
      · simp only [State.gone, State.freed, State.taken, List.flatMap_append, List.flatMap_cons,
          List.flatMap_nil, Drain.head, List.count_append, List.count_nil]
        omega
    · cases h
      refine .of_count [] (fun id => rfl) (fun id => ?_) rfl
      simp only [State.gone, State.freed, List.flatMap_append, List.flatMap_cons, List.flatMap_nil,
        Drain.head, List.append_nil, List.count_nil, Nat.add_zero]
  | flush =>
    cases h
    refine .of_count [] (fun id => rfl) (fun id => ?_) rfl
    simp only [State.gone, State.freed, List.flatMap_append, List.flatMap_cons, List.flatMap_nil,
      Drain.head, List.append_nil, List.count_nil, Nat.add_zero]
  | thread i =>
    obtain ⟨d, hi, hd⟩ := Option.bind_eq_some_iff.mp h
    exact Drain.step_moves hi hd

/-- Every descriptor is in one place. -/
def Kept (s : State) : Prop := (s.live ++ s.gone).Perm (List.range s.made)

theorem step_kept (s : State) (l : Label) (t : State) (inv : Kept s) (h : step s l = some t) :
    Kept t := by
  unfold Kept at inv ⊢
  cases step_moves h with
  | made live gone made =>
    have hswap : (t.live ++ t.gone).Perm (s.live ++ s.gone ++ [s.made]) := by
      rw [gone]
      refine (live.append_right _).trans ?_
      rw [List.append_assoc, List.append_assoc]
      exact List.perm_append_comm.append_left _
    rw [made, List.range_succ]
    exact hswap.trans (inv.append_right _)
  | moved ids live gone made =>
    have hswap : (t.live ++ t.gone).Perm (s.live ++ s.gone) := by
      refine (gone.append_left _).trans ?_
      refine List.Perm.trans ?_ (live.symm.append_right _)
      rw [List.append_assoc]
      exact List.perm_append_comm.append_left _
    rw [made]
    exact hswap.trans inv

theorem Kept.nodup {s : State} (inv : Kept s) : (s.live ++ s.gone).Nodup :=
  inv.nodup_iff.mpr List.nodup_range

/-! ### Events -/

def Event.id : Event → Nat
  | .callback d => d.id
  | .free id => id

/-- Callbacks come in the order of submission, and nothing comes after the `free` of its
descriptor. -/
def Event.Before : Event → Event → Prop
  | .callback d, .callback e => d.nth < e.nth
  | .callback _, .free _ => True
  | .free id, e => e.id ≠ id

/-- What a step reports. -/
inductive Reports (s t : State) : Prop
  | nothing (h : t.events = s.events)
  | callback (d : Tx) (head : List Tx) (loop : s.tasklet = .loop (d :: head))
    (h : t.events = s.events ++ [.callback d])
  | free (id : Nat) (held : id ∈ s.tasklet.last ∨ id ∈ s.drains.flatMap Drain.head)
    (h : t.events = s.events ++ [.free id])

theorem taskletSchedule_events (s : State) : (taskletSchedule s).events = s.events := by
  obtain ⟨-, h⟩ | ⟨-, h⟩ := taskletSchedule_cases s <;> rw [h]

theorem Drain.step_reports {s t : State} {i : Nat} {d : Drain} (hi : s.drains[i]? = some d)
    (h : d.step s i = some t) : Reports s t := by
  cases d with
  | enter head flush =>
    simp only [Drain.step, Option.ite_none_right_eq_some, Option.some.injEq] at h
    obtain ⟨-, rfl⟩ := h
    exact .nothing rfl
  | kill head flush =>
    simp only [Drain.step, Option.ite_none_right_eq_some, Option.some.injEq] at h
    obtain ⟨-, rfl⟩ := h
    exact .nothing rfl
  | collect head late =>
    cases h
    exact .nothing rfl
  | free head =>
    cases head with
    | nil => cases h
    | cons id rest =>
      cases h
      refine .free id (.inr ?_) rfl
      exact List.mem_flatMap.mpr ⟨_, List.mem_of_getElem? hi, List.mem_cons_self⟩

theorem step_reports {s t : State} {l : Label} (h : step s l = some t) : Reports s t := by
  cases l with
  | complete =>
    simp only [step] at h
    split at h
    · cases h
    · cases h
      exact .nothing (taskletSchedule_events _)
  | hiSchedule =>
    cases h
    exact .nothing (taskletSchedule_events _)
  | callback =>
    simp only [step] at h
    split at h
    · rename_i d head hloop
      cases h
      exact .callback d head hloop rfl
    · cases h
  | fini =>
    simp only [step] at h
    split at h
    · rename_i d head hcalled
      cases h
      refine .free d.id (.inl ?_) rfl
      rw [hcalled]
      exact List.mem_cons_self
    · cases h
  | thread i =>
    obtain ⟨d, hi, hd⟩ := Option.bind_eq_some_iff.mp h
    exact Drain.step_reports hi hd
  | prep | issue | flush =>
    cases h
    exact .nothing rfl
  | submit id | begin | splice | finish =>
    simp only [step, Option.ite_none_right_eq_some, Option.some.injEq] at h
    obtain ⟨-, rfl⟩ := h
    exact .nothing rfl
  | drain early =>
    cases early <;> cases h <;> exact .nothing rfl

theorem mem_freed {s : State} {id : Nat} : id ∈ s.freed ↔ .free id ∈ s.events := by
  unfold State.freed
  rw [List.mem_filterMap]
  constructor
  · intro ⟨e, he, hfreed⟩
    cases e with
    | callback d => cases hfreed
    | free id' =>
      cases hfreed
      exact he
  · intro h
    exact ⟨_, h, rfl⟩

theorem mem_called {s : State} {d : Tx} : d ∈ s.called ↔ .callback d ∈ s.events := by
  unfold State.called
  rw [List.mem_filterMap]
  constructor
  · intro ⟨e, he, htx⟩
    cases e with
    | callback d' =>
      cases htx
      exact he
    | free id => cases htx
  · intro h
    exact ⟨_, h, rfl⟩

/-- What has been freed is in no other place. -/
theorem Kept.not_freed {s : State} (inv : Kept s) {id : Nat}
    (h : id ∈ s.live ∨ id ∈ s.drains.flatMap Drain.head) : .free id ∉ s.events := by
  intro hfreed
  rw [← mem_freed] at hfreed
  have hnodup := inv.nodup
  obtain h | h := h
  · exact List.disjoint_of_nodup_append hnodup h (List.mem_append_right _ hfreed)
  · exact List.disjoint_of_nodup_append (List.nodup_append.mp hnodup).2.1 h hfreed

structure Sound (s : State) : Prop where
  ordered : Ordered s
  kept : Kept s
  events : s.events.Pairwise Event.Before

theorem sound_initial : Sound initial := ⟨ordered_initial, .refl _, .nil⟩

theorem step_sound (s : State) (l : Label) (t : State) (inv : Sound s) (h : step s l = some t) :
    Sound t := by
  refine ⟨step_ordered s l t inv.ordered h, step_kept s l t inv.kept h, ?_⟩
  cases step_reports h with
  | nothing hevents =>
    rw [hevents]
    exact inv.events
  | callback d head hloop hevents =>
    rw [hevents, List.pairwise_append]
    refine ⟨inv.events, List.pairwise_singleton _ _, fun e he f hf => ?_⟩
    rw [List.mem_singleton.mp hf]
    cases e with
    | callback e =>
      -- `e` stands before `d` in the line
      have hline := inv.ordered.line
      unfold State.past at hline
      rw [hloop, List.append_assoc, List.append_assoc, List.map_append,
        List.pairwise_append] at hline
      exact hline.2.2 _ (List.mem_map_of_mem (mem_called.mpr he)) _ List.mem_cons_self
    | free id =>
      intro hid
      refine inv.kept.not_freed (.inl ?_) he
      have hid : d.id = id := hid
      unfold State.live
      rw [hloop, ← hid]
      exact List.mem_append_left _ (List.mem_append_right _ List.mem_cons_self)
  | free id held hevents =>
    rw [hevents, List.pairwise_append]
    refine ⟨inv.events, List.pairwise_singleton _ _, fun e he f hf => ?_⟩
    rw [List.mem_singleton.mp hf]
    cases e with
    | callback e => trivial
    | free id' =>
      intro hid
      have hid : id = id' := hid
      refine inv.kept.not_freed (held.imp (fun hlast => ?_) fun hheld => ?_) he
      · rw [← hid]
        exact List.mem_append_right _ hlast
      · rw [← hid]
        exact hheld

/-- Two transfers: one is called back while a drain begins, the other is drained. -/
def drainRun : List Label :=
  [.prep, .submit 0, .prep, .submit 1, .issue, .complete, .begin, .splice, .drain false, .callback,
    .fini, .finish, .thread 0, .thread 0]

/-- What comes after: the drain collects and frees, and another transfer is made. -/
def nextRun : List Label :=
  [.thread 0, .prep, .submit 2, .issue, .complete, .begin, .splice, .callback, .fini, .finish]

/-- `dma_cookie_status` loads the cookie of the channel in one state and the completed
cookie in a later one. -/
def dmaCookieStatus (used completed : State) (cookie : Int) : DmaStatus :=
  dmaAsyncIsComplete cookie completed.completedCookie used.cookie

end DxNpuDriver.Edma.VirtDma
