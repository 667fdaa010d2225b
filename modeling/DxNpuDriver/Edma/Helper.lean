import DxNpuDriver.Pcie.Transport
import Mathlib.Logic.Function.Basic

/-! The helper channels (`dw-edma-core.h`, `dw-edma-v0-core.c`, `dx_sgdma.c`).

A descriptor table reaches the device by a copy on READ channel 2 or 3. Who makes the copy
owns the channel: `ch_in_use`, a flag under the channel's lock, is set by
`dx_dma_try_acquire_chan_ownership` and cleared by `dx_dma_release_chan_ownership`. The
flag does not say who the owner is, and `dx_pcie_reset_dma_channels` clears it for every
channel without asking.

A worker is a program of accesses (`Lib/Program`), a locked section being one of them;
beside it stands the trace of what it has acquired and released. The words of the
transport move as they like. -/
namespace DxNpuDriver.Edma.Helper
open Pcie (DevState LinkState)

inductive Errno where
  | nodev | io | busy | canceled | opnotsupp | timedout | again
  deriving DecidableEq

/-- `enum dw_edma_dir`. -/
inductive Dir where
  | write | read
  deriving DecidableEq

inductive Op where
  | readDev
  | readLink
  | readPaused
  /-- Something outside: `aborted` or `hw_err` of the channel, a cancelled shadow state. -/
  | ask
  /-- `atomic_inc_return(&dw->rr_toggle) & 1`. -/
  | toggle
  /-- `dx_dma_try_acquire_helper_channel`. -/
  | tryAcquire (ch : Nat)
  /-- `dx_dma_release_helper_channel`. -/
  | release (ch : Nat)
  /-- `wait_for_dma_channel_idle`. -/
  | waitIdle (ch : Nat)
  /-- The channel is programmed with the table and its doorbell rung. -/
  | doorbell (ch : Nat)
  /-- `dx_dma_polling_wait`. -/
  | pollingWait (ch : Nat)
  | setDev (d : DevState)
  | lockWr
  | unlockWr
  /-- The reset takes the channel's lock and clears `ch_in_use`. -/
  | clear (dir : Dir) (ch : Nat)
  deriving DecidableEq

/-- What an access answers; a wait answers 0 or an error. -/
@[reducible] def Op.Val : Op → Type
  | .readDev => DevState
  | .readLink => LinkState
  | .readPaused | .ask | .toggle | .tryAcquire _ => Bool
  | .waitIdle _ | .pollingWait _ => Option Errno
  | _ => Unit

def Op.values : ∀ o : Op, List o.Val
  | .readDev => [.uninit, .live, .recovering, .aerReset, .removing]
  | .readLink => [.unknown, .up, .down, .recovering, .degraded]
  | .readPaused | .ask | .toggle | .tryAcquire _ => [false, true]
  | .waitIdle _ | .pollingWait _ =>
    [none, some .nodev, some .io, some .busy, some .canceled, some .opnotsupp, some .timedout,
      some .again]
  | .release _ | .doorbell _ | .setDev _ | .lockWr | .unlockWr | .clear _ _ => [()]

theorem Op.mem_values : ∀ (o : Op) (v : o.Val), v ∈ o.values := by
  intro o
  cases o with
  | waitIdle ch | pollingWait ch =>
    intro v
    rcases v with _ | e
    · simp [Op.values]
    · cases e <;> simp [Op.values]
  | _ => intro v; cases v <;> simp [Op.values]

abbrev access : Access := ⟨Op, Op.Val, Op.values, Op.mem_values⟩

abbrev Code (α : Type) := Prog access α

def readDev : Code DevState := .call (A := access) .readDev
def readLink : Code LinkState := .call (A := access) .readLink
def readPaused : Code Bool := .call (A := access) .readPaused
def ask : Code Bool := .call (A := access) .ask
def toggle : Code Bool := .call (A := access) .toggle
def tryAcquire (ch : Nat) : Code Bool := .call (A := access) (.tryAcquire ch)
def release (ch : Nat) : Code Unit := .call (A := access) (.release ch)
def waitIdle (ch : Nat) : Code (Option Errno) := .call (A := access) (.waitIdle ch)
def doorbell (ch : Nat) : Code Unit := .call (A := access) (.doorbell ch)
def pollingWait (ch : Nat) : Code (Option Errno) := .call (A := access) (.pollingWait ch)
def setDev (d : DevState) : Code Unit := .call (A := access) (.setDev d)
def lockWr : Code Unit := .call (A := access) .lockWr
def unlockWr : Code Unit := .call (A := access) .unlockWr
def clear (dir : Dir) (ch : Nat) : Code Unit := .call (A := access) (.clear dir ch)

/-- The channel counts of the device. -/
structure Device where
  wrChCnt : Nat
  rdChCnt : Nat

/-! ### The workers -/

/-- `dx_dma_mmio_poll_allowed`. -/
def mmioPollAllowed : Code Bool := do
  if (← readDev) ≠ .live then return false
  if (← readLink) ≠ .up then return false
  return !(← readPaused)

/-- `dx_dma_desc_helper_allowed`, and `dx_dma_shadow_precopy_allowed`, which is the same:
channel 3 (`DX_READ_HELPER_CH_LAST`) exists. -/
def helperAllowed (dw : Device) : Code Bool := do
  return (← mmioPollAllowed) && decide (3 < dw.rdChCnt)

/-- Odd: (3, 2); even: (2, 3). -/
def order (odd : Bool) : Nat × Nat := if odd then (3, 2) else (2, 3)

/-- The retry loop both functions have, with what each checks before it tries. -/
def acquireLoop (checks : Code (Option Errno)) (first second : Nat) : Nat → Code (Except Errno Nat)
  | 0 => return .error .busy
  | retries + 1 => do
    match ← checks with
    | some e => return .error e
    | none =>
      if ← tryAcquire first then return .ok first
      if ← tryAcquire second then return .ok second
      acquireLoop checks first second retries

/-- `DX_DMA_HELPER_ACQUIRE_TIMEOUT_US`, or the shorter one of an atomic context, in steps of
`DX_DMA_HELPER_ACQUIRE_STEP_US`. -/
def acquireRetries (atomic : Bool) : Nat := (if atomic then 1000 else 50000) / 10

/-- The checks of `dw_edma_v0_core_xfer_llm_desc`. -/
def xferChecks (dw : Device) : Code (Option Errno) := do
  if !(← helperAllowed dw) then return some .nodev
  if ← ask then return some .io
  return none

/-- `dw_edma_v0_core_xfer_llm_desc`, for a chunk of channel `id`. -/
def xferLlmDesc (dw : Device) (dir : Dir) (id : Nat) (atomic : Bool) : Code (Option Errno) := do
  if ← helperAllowed dw then
    let (first, second) := order (← toggle)
    match ← acquireLoop (xferChecks dw) first second (acquireRetries atomic) with
    | .error e => return some e
    | .ok channel =>
      match ← waitIdle channel with
      | some e =>
        release channel
        return some e
      | none =>
        doorbell channel
        let ret ← pollingWait channel
        release channel
        return ret
  else if dir = .write then return some .busy
  else
    -- the copy goes over the data channel itself
    match ← waitIdle id with
    | some e => return some e
    | none =>
      doorbell id
      pollingWait id

/-- The checks of `dw_edma_v0_core_precopy_lli`; a shadow state is cancelled only where
there is a descriptor. -/
def precopyChecks (dw : Device) (desc : Bool) : Code (Option Errno) := do
  if !(← helperAllowed dw) then return some .nodev
  if desc then
    if ← ask then return some .canceled
  if ← ask then return some .io
  return none

/-- `dw_edma_v0_core_precopy_lli`. -/
def precopyLli (dw : Device) (dir : Dir) (desc : Bool) : Code (Option Errno) := do
  if dir ≠ .write then return some .opnotsupp
  if !(← helperAllowed dw) then return some .nodev
  let (first, second) := order (← toggle)
  match ← acquireLoop (precopyChecks dw desc) first second (acquireRetries false) with
  | .error e => return some e
  | .ok channel =>
    -- once more, and any of them is -ECANCELED now
    match ← precopyChecks dw desc with
    | some _ =>
      release channel
      return some .canceled
    | none =>
      match ← waitIdle channel with
      | some e =>
        release channel
        return some e
      | none =>
        doorbell channel
        let ret ← pollingWait channel
        release channel
        return ret

/-! ### The reset -/

/-- The condition `dx_pcie_reset_dma_channels` tests twice. -/
def transportOwned : Code Bool := do
  if (← readLink) = .down then return true
  if (← readDev) = .aerReset then return true
  readPaused

/-- The clear of one direction's flags, from channel `start` on. -/
def clearFrom (dir : Dir) (start : Nat) : Nat → Code Unit
  | 0 => return ()
  | n + 1 => do
    clear dir start
    clearFrom dir (start + 1) n

/-- `dx_pcie_reset_dma_channels`. Between RECOVERING and the clear it terminates the
channels and may reset the endpoint; it waits for no worker that its channels' lists do
not show. -/
def resetDmaChannels (dw : Device) : Code (Option Errno) := do
  if (← readDev) = .removing then return some .nodev
  if ← transportOwned then return some .again
  lockWr
  if ← transportOwned then
    unlockWr
    return some .again
  if ← ask then -- no user and no stuck channel
    unlockWr
    return none
  setDev .recovering
  clearFrom .read 0 dw.rdChCnt
  clearFrom .write 0 dw.wrChCnt
  setDev .live
  unlockWr
  if ← ask then return some .io
  return none

/-! ### The machine -/

inductive Call where
  | xferLlmDesc (dir : Dir) (id : Nat) (atomic : Bool)
  | precopyLli (dir : Dir) (desc : Bool)
  | resetDmaChannels
  deriving DecidableEq

def Call.code (dw : Device) : Call → Code (Option Errno)
  | .xferLlmDesc dir id atomic => Helper.xferLlmDesc dw dir id atomic
  | .precopyLli dir desc => Helper.precopyLli dw dir desc
  | .resetDmaChannels => Helper.resetDmaChannels dw

/-- What a worker has done to the ownership of the channels. -/
inductive Event where
  | acquired (ch : Nat)
  | released (ch : Nat)
  deriving DecidableEq

/-- A call, what it has still to do, and its trace. -/
structure Thread where
  call : Call
  prog : Code (Option Errno)
  trace : List Event

structure Shared where
  devState : DevState
  linkState : LinkState
  backgroundRecoveryPaused : Bool
  rrToggle : Nat
  wrLock : Bool
  /-- `ch_in_use` of every channel. -/
  chInUse : Dir → Nat → Bool

structure State where
  shared : Shared
  threads : List Thread

def initial : State := ⟨⟨.live, .up, false, 0, false, fun _ _ => false⟩, []⟩

/-- What the environment answers: whether a channel lock is contended, what is asked of
it, and what a wait ends with. -/
structure Env where
  contended : Bool
  answer : Bool
  ret : Option Errno
  deriving DecidableEq

def Shared.setInUse (m : Shared) (dir : Dir) (ch : Nat) (b : Bool) : Shared :=
  {m with chInUse := Function.update m.chInUse dir (Function.update (m.chInUse dir) ch b)}

/-- What an access does and answers. -/
def exec (m : Shared) (env : Env) : (o : Op) → Option (o.Val × Shared)
  | .readDev => some (m.devState, m)
  | .readLink => some (m.linkState, m)
  | .readPaused => some (m.backgroundRecoveryPaused, m)
  | .ask => some (env.answer, m)
  | .toggle =>
    let n := (m.rrToggle + 1) % 2 ^ 32
    some (decide (n % 2 = 1), {m with rrToggle := n})
  | .tryAcquire ch =>
    if env.contended ∨ m.chInUse .read ch then some (false, m)
    else some (true, m.setInUse .read ch true)
  | .release ch => some ((), m.setInUse .read ch false)
  | .waitIdle _ => some (env.ret, m)
  | .doorbell _ => some ((), m)
  | .pollingWait _ => some (env.ret, m)
  | .setDev d => some ((), {m with devState := d})
  | .lockWr => if m.wrLock then none else some ((), {m with wrLock := true})
  | .unlockWr => some ((), {m with wrLock := false})
  | .clear dir ch => some ((), m.setInUse dir ch false)

/-- What an access adds to the trace. -/
def track (trace : List Event) : (o : Op) → o.Val → List Event
  | .tryAcquire ch, true => trace ++ [.acquired ch]
  | .release ch, _ => trace ++ [.released ch]
  | _, _ => trace

inductive Label where
  | start (c : Call)
  | go (i : Nat) (env : Env)
  /-- The rest of the transport writes its words. -/
  | transport (d : DevState) (l : LinkState) (paused : Bool)
  deriving DecidableEq

def step (dw : Device) (s : State) : Label → Option State
  | .start c => some {s with threads := s.threads ++ [⟨c, c.code dw, []⟩]}
  | .go i env =>
    match s.threads[i]? with
    | none => none
    | some t =>
      match t.prog with
      | .ret _ => none
      | .op o k => (exec s.shared env o).map fun (v, m) =>
          ⟨m, s.threads.set i ⟨t.call, k v, track t.trace o v⟩⟩
  | .transport d l paused => some {s with shared :=
      {s.shared with devState := d, linkState := l, backgroundRecoveryPaused := paused}}

/-! ### The property -/

/-- The worker is between its acquire and its release of the channel. -/
def Thread.holds (ch : Nat) (t : Thread) : Bool := decide (t.trace = [.acquired ch])

/-- No channel has two owners. -/
def Exclusive (s : State) : Prop := ∀ ch, s.threads.countP (Thread.holds ch) ≤ 1

/-- Nothing was acquired, or one channel was acquired and released. -/
def Balanced (trace : List Event) : Prop :=
  trace = [] ∨ ∃ ch, trace = [.acquired ch, .released ch]

/-- A call acquires at most one channel; having acquired it, it comes to its release, of
the same channel, whatever happens; and it does neither a second time. -/
def Thread.Orderly (t : Thread) : Prop :=
  (Balanced t.trace ∨ ∃ ch, t.trace = [.acquired ch]) ∧
  (t.prog.done = true → Balanced t.trace) ∧
  ∀ ch, t.trace = [.acquired ch] → t.prog.must (A := access) (fun o => o = .release ch) = true

/-- The rule on steps: the reset clears the flag of a READ channel that nobody holds. -/
def Unowned (s : State) : Label → Prop
  | .go i _ => ∀ t, s.threads[i]? = some t → ∀ ch, t.prog.head = some (.clear .read ch) →
      ∀ u ∈ s.threads, u.holds ch = false
  | _ => True

/-- The READ channel whose flag the next access clears. -/
def clears : Option Op → Option Nat
  | some (.clear .read ch) => some ch
  | _ => none

theorem clears_iff {o : Option Op} {ch : Nat} : clears o = some ch ↔ o = some (.clear .read ch) := by
  unfold clears
  split
  · simp
  · next h => simpa using h ch

instance (s : State) (l : Label) : Decidable (Unowned s l) :=
  match l with
  | .go i _ =>
    decidable_of_iff (∀ t ∈ s.threads[i]?, ∀ ch ∈ clears t.prog.head, ∀ u ∈ s.threads,
        u.holds ch = false)
      ⟨fun h t ht ch hch => h t ht ch (clears_iff.mpr hch),
        fun h t ht ch hch => h t ht ch (clears_iff.mp hch)⟩
  | .start _ | .transport _ _ _ => isTrue trivial

/-! ### What a call does to the ownership -/

section Trace
variable {trace : List Event}

@[simp] theorem wp_readDev {post : DevState → List Event → Prop} :
    readDev.wp track post trace = ∀ v, post v trace := Prog.wp_call ..

@[simp] theorem wp_readLink {post : LinkState → List Event → Prop} :
    readLink.wp track post trace = ∀ v, post v trace := Prog.wp_call ..

@[simp] theorem wp_readPaused {post : Bool → List Event → Prop} :
    readPaused.wp track post trace = ∀ v, post v trace := Prog.wp_call ..

@[simp] theorem wp_ask {post : Bool → List Event → Prop} :
    ask.wp track post trace = ∀ v, post v trace := Prog.wp_call ..

@[simp] theorem wp_toggle {post : Bool → List Event → Prop} :
    toggle.wp track post trace = ∀ v, post v trace := Prog.wp_call ..

@[simp] theorem wp_waitIdle {ch : Nat} {post : Option Errno → List Event → Prop} :
    (waitIdle ch).wp track post trace = ∀ v, post v trace := Prog.wp_call ..

@[simp] theorem wp_pollingWait {ch : Nat} {post : Option Errno → List Event → Prop} :
    (pollingWait ch).wp track post trace = ∀ v, post v trace := Prog.wp_call ..

@[simp] theorem wp_doorbell {ch : Nat} {post : Unit → List Event → Prop} :
    (doorbell ch).wp track post trace = ∀ v, post v trace := Prog.wp_call ..

@[simp] theorem wp_setDev {d : DevState} {post : Unit → List Event → Prop} :
    (setDev d).wp track post trace = ∀ v, post v trace := Prog.wp_call ..

@[simp] theorem wp_lockWr {post : Unit → List Event → Prop} :
    lockWr.wp track post trace = ∀ v, post v trace := Prog.wp_call ..

@[simp] theorem wp_unlockWr {post : Unit → List Event → Prop} :
    unlockWr.wp track post trace = ∀ v, post v trace := Prog.wp_call ..

@[simp] theorem wp_clear {dir : Dir} {ch : Nat} {post : Unit → List Event → Prop} :
    (clear dir ch).wp track post trace = ∀ v, post v trace := Prog.wp_call ..

@[simp] theorem wp_release {ch : Nat} {post : Unit → List Event → Prop} :
    (release ch).wp track post trace = ∀ v, post v (trace ++ [.released ch]) := Prog.wp_call ..

theorem wp_tryAcquire {ch : Nat} {post : Bool → List Event → Prop} (hfail : post false trace)
    (hok : post true (trace ++ [.acquired ch])) : (tryAcquire ch).wp track post trace := by
  intro v
  cases v with
  | false => exact hfail
  | true => exact hok

theorem wp_helperAllowed {dw : Device} {post : Bool → List Event → Prop} (h : ∀ b, post b trace) :
    (helperAllowed dw).wp track post trace := by
  simp only [helperAllowed, mmioPollAllowed, Prog.wp_bind, wp_readDev, wp_readLink, wp_readPaused,
    Prog.wp_ite, Prog.wp_pure]
  intro d
  split
  · exact h _
  · intro l
    split
    · exact h _
    · exact fun _ => h _

theorem wp_transportOwned {post : Bool → List Event → Prop} (h : ∀ b, post b trace) :
    transportOwned.wp track post trace := by
  simp only [transportOwned, Prog.wp_bind, wp_readDev, wp_readLink, wp_readPaused, Prog.wp_ite,
    Prog.wp_pure]
  intro l
  split
  · exact h _
  · intro d
    split
    · exact h _
    · exact fun b => h b

/-- The loop ends with an error and nothing acquired, or with the one channel it acquired. -/
theorem wp_acquireLoop {checks : Code (Option Errno)} {first second : Nat}
    {post : Except Errno Nat → List Event → Prop}
    (quiet : ∀ {post' : Option Errno → List Event → Prop}, (∀ r, post' r trace) →
      checks.wp track post' trace)
    (hfail : ∀ e, post (.error e) trace) (hok : ∀ ch, post (.ok ch) (trace ++ [.acquired ch]))
    (retries : Nat) : (acquireLoop checks first second retries).wp track post trace := by
  induction retries with
  | zero => exact hfail _
  | succ n ih =>
    simp only [acquireLoop, Prog.wp_bind]
    refine quiet fun r => ?_
    cases r with
    | some e => exact hfail e
    | none =>
      simp only [Prog.wp_bind]
      refine wp_tryAcquire ?_ (hok first)
      simp only [Prog.wp_bind, Bool.false_eq_true, if_false]
      exact wp_tryAcquire ih (hok second)

theorem wp_xferChecks {dw : Device} {post : Option Errno → List Event → Prop}
    (h : ∀ r, post r trace) : (xferChecks dw).wp track post trace := by
  simp only [xferChecks, Prog.wp_bind]
  refine wp_helperAllowed fun b => ?_
  split
  · exact h _
  · simp only [Prog.wp_bind, wp_ask]
    intro b
    split <;> exact h _

theorem wp_precopyChecks {dw : Device} {desc : Bool} {post : Option Errno → List Event → Prop}
    (h : ∀ r, post r trace) : (precopyChecks dw desc).wp track post trace := by
  have last : (do if ← ask then return some Errno.io
                  return none : Code (Option Errno)).wp track post trace := by
    simp only [Prog.wp_bind, wp_ask]
    intro b
    split <;> exact h _
  simp only [precopyChecks, Prog.wp_bind]
  refine wp_helperAllowed fun b => ?_
  split
  · exact h _
  · split
    · simp only [Prog.wp_bind, wp_ask]
      intro b
      split
      · exact h _
      · exact last
    · exact last

/-- The copy over a helper, and its release. -/
theorem wp_copied {ch : Nat} {post : Option Errno → List Event → Prop}
    (h : ∀ r, post r (trace ++ [.released ch])) :
    (do match ← waitIdle ch with
        | some e =>
          release ch
          return some e
        | none =>
          doorbell ch
          let ret ← pollingWait ch
          release ch
          return ret : Code (Option Errno)).wp track post trace := by
  simp only [Prog.wp_bind, wp_waitIdle]
  intro r
  cases r with
  | some e =>
    simp only [Prog.wp_bind, wp_release]
    exact fun _ => h _
  | none =>
    simp only [Prog.wp_bind, wp_doorbell, wp_pollingWait, wp_release]
    exact fun _ _ _ => h _

end Trace

theorem balanced_pair (ch : Nat) : Balanced ([] ++ [.acquired ch] ++ [.released ch]) :=
  .inr ⟨ch, rfl⟩

theorem xferLlmDesc_balanced (dw : Device) (dir : Dir) (id : Nat) (atomic : Bool) :
    (xferLlmDesc dw dir id atomic).wp track (fun _ trace => Balanced trace) [] := by
  simp only [xferLlmDesc, Prog.wp_bind]
  refine wp_helperAllowed fun allowed => ?_
  split
  · simp only [Prog.wp_bind, wp_toggle]
    intro odd
    refine wp_acquireLoop wp_xferChecks (fun e => .inl rfl) (fun ch => ?_) _
    exact wp_copied fun r => balanced_pair ch
  · split
    · exact .inl rfl
    · simp only [Prog.wp_bind, wp_waitIdle]
      intro r
      cases r with
      | some e => exact .inl rfl
      | none => exact fun _ _ => .inl rfl

theorem precopyLli_balanced (dw : Device) (dir : Dir) (desc : Bool) :
    (precopyLli dw dir desc).wp track (fun _ trace => Balanced trace) [] := by
  simp only [precopyLli]
  split
  · exact .inl rfl
  · simp only [Prog.wp_bind]
    refine wp_helperAllowed fun allowed => ?_
    split
    · exact .inl rfl
    · simp only [Prog.wp_bind, wp_toggle]
      intro odd
      refine wp_acquireLoop wp_precopyChecks (fun e => .inl rfl) (fun ch => ?_) _
      simp only [Prog.wp_bind]
      refine wp_precopyChecks fun r => ?_
      cases r with
      | some e =>
        simp only [Prog.wp_bind, wp_release]
        exact fun _ => balanced_pair ch
      | none => exact wp_copied fun r => balanced_pair ch

theorem wp_clearFrom {dir : Dir} {post : Unit → List Event → Prop} {trace : List Event}
    (h : post () trace) (n start : Nat) : (clearFrom dir start n).wp track post trace := by
  induction n generalizing start with
  | zero => exact h
  | succ n ih =>
    simp only [clearFrom, Prog.wp_bind, wp_clear]
    exact fun _ => ih _

/-- The reset owns nothing. -/
theorem resetDmaChannels_balanced (dw : Device) :
    (resetDmaChannels dw).wp track (fun _ trace => Balanced trace) [] := by
  simp only [resetDmaChannels, Prog.wp_bind, wp_readDev]
  intro d
  split
  · exact .inl rfl
  simp only [Prog.wp_bind]
  refine wp_transportOwned fun owned => ?_
  split
  · exact .inl rfl
  simp only [Prog.wp_bind, wp_lockWr]
  intro _
  refine wp_transportOwned fun owned => ?_
  split
  · exact fun _ => .inl rfl
  simp only [Prog.wp_bind, wp_ask]
  intro idle
  split
  · exact fun _ => .inl rfl
  simp only [Prog.wp_bind, wp_setDev]
  intro _
  refine wp_clearFrom ?_ _ _
  simp only [Prog.wp_bind]
  refine wp_clearFrom ?_ _ _
  simp only [Prog.wp_bind, wp_setDev, wp_unlockWr, wp_ask]
  intro _ _ failed
  split <;> exact .inl rfl

theorem code_balanced (dw : Device) (c : Call) :
    (c.code dw).wp track (fun _ trace => Balanced trace) [] := by
  cases c with
  | xferLlmDesc dir id atomic => exact xferLlmDesc_balanced dw dir id atomic
  | precopyLli dir desc => exact precopyLli_balanced dw dir desc
  | resetDmaChannels => exact resetDmaChannels_balanced dw

/-! ### Order in one thread -/

/-- Whatever the thread still does, its trace will be balanced when it returns. -/
def Thread.Keeps (t : Thread) : Prop := t.prog.wp track (fun _ trace => Balanced trace) t.trace

theorem track_grows (trace : List Event) (o : Op) (v : o.Val) : trace <+: track trace o v := by
  cases o with
  | tryAcquire ch =>
    cases v with
    | false => exact List.prefix_rfl
    | true => exact List.prefix_append _ _
  | release ch => exact List.prefix_append _ _
  | _ => exact List.prefix_rfl

theorem exists_balanced {p : Code (Option Errno)} {trace : List Event}
    (h : p.wp track (fun _ trace => Balanced trace) trace) : ∃ t, trace <+: t ∧ Balanced t := by
  have answers : ∀ o : Op, Nonempty o.Val := by
    intro o
    cases o with
    | readDev => exact ⟨DevState.live⟩
    | readLink => exact ⟨LinkState.up⟩
    | readPaused | ask | toggle | tryAcquire _ => exact ⟨false⟩
    | waitIdle _ | pollingWait _ => exact ⟨(none : Option Errno)⟩
    | _ => exact ⟨()⟩
  obtain ⟨-, t, hle, ht⟩ := Prog.exists_of_wp (A := access) (fun _ => List.prefix_rfl)
    (fun _ _ _ => List.IsPrefix.trans) track_grows answers h
  exact ⟨t, hle, ht⟩

/-- What can still be balanced. -/
theorem cases_of_balanced {trace t : List Event} (h : trace <+: t) (ht : Balanced t) :
    Balanced trace ∨ ∃ ch, trace = [.acquired ch] := by
  rcases ht with rfl | ⟨ch, rfl⟩
  · exact .inl (.inl (List.prefix_nil.mp h))
  · rcases trace with _ | ⟨a, _ | ⟨b, _ | ⟨c, rest⟩⟩⟩
    · exact .inl (.inl rfl)
    · simp only [List.cons_prefix_cons] at h
      exact .inr ⟨ch, by rw [h.1]⟩
    · simp only [List.cons_prefix_cons] at h
      exact .inl (.inr ⟨ch, by rw [h.1, h.2.1]⟩)
    · simp only [List.cons_prefix_cons, List.prefix_nil] at h
      cases h.2.2

/-- After an acquire, what keeps the trace in balance has to be the release. -/
theorem must_release {p : Code (Option Errno)} {ch : Nat}
    (h : p.wp track (fun _ trace => Balanced trace) [.acquired ch]) :
    p.must (A := access) (fun o => o = .release ch) = true := by
  have never : ∀ {e : Event} {q : Code (Option Errno)}, e ≠ .released ch →
      ¬ q.wp track (fun _ trace => Balanced trace) ([.acquired ch] ++ [e]) := by
    intro e q he hq
    obtain ⟨t, hle, ht⟩ := exists_balanced hq
    rcases cases_of_balanced hle ht with (hnil | ⟨c, hc⟩) | ⟨c, hc⟩
    · cases hnil
    · simp only [List.cons_append, List.nil_append, List.cons.injEq, Event.acquired.injEq] at hc
      exact he (by rw [hc.2.1, hc.1])
    · simp only [List.cons_append, List.nil_append, List.cons.injEq, reduceCtorEq, and_false] at hc
  induction p with
  | ret r =>
    rcases h with h | ⟨c, h⟩
    · cases h
    · simp only [List.cons.injEq, reduceCtorEq, and_false] at h
  | op o k ih =>
    simp only [Prog.must, Bool.or_eq_true, decide_eq_true_eq, List.all_eq_true]
    by_cases ho : o = .release ch
    · exact .inl ho
    · refine .inr fun v _ => ?_
      have hv := h v
      cases o with
      | tryAcquire c =>
        cases v with
        | false => exact ih false hv
        | true => exact (never (e := .acquired c) (fun h => by cases h) hv).elim
      | release c => exact (never (fun heq => ho (by rw [Event.released.inj heq])) hv).elim
      | _ => exact ih v hv

theorem Thread.Keeps.orderly {t : Thread} (h : t.Keeps) : t.Orderly := by
  obtain ⟨u, hle, hu⟩ := exists_balanced h
  refine ⟨cases_of_balanced hle hu, fun hdone => ?_, fun ch hch => ?_⟩
  · obtain ⟨c, prog, trace⟩ := t
    cases prog with
    | ret r => exact h
    | op o k => cases hdone
  · simp only [Thread.Keeps, hch] at h
    exact must_release h

/-! ### Steps -/

inductive Moved (dw : Device) (s : State) : Label → State → Prop
  | start (c : Call) :
      Moved dw s (.start c) {s with threads := s.threads ++ [⟨c, c.code dw, []⟩]}
  | go (i : Nat) (env : Env) (c : Call) (o : Op) (k : o.Val → Code (Option Errno))
      (trace : List Event) (v : o.Val) (m : Shared)
      (hi : s.threads[i]? = some ⟨c, .op (A := access) o k, trace⟩)
      (hexec : exec s.shared env o = some (v, m)) :
      Moved dw s (.go i env) ⟨m, s.threads.set i ⟨c, k v, track trace o v⟩⟩
  | transport (d : DevState) (l : LinkState) (paused : Bool) :
      Moved dw s (.transport d l paused) {s with shared :=
        {s.shared with devState := d, linkState := l, backgroundRecoveryPaused := paused}}

theorem step_moved {dw : Device} {s t : State} {l : Label} (h : step dw s l = some t) :
    Moved dw s l t := by
  cases l with
  | start c =>
    cases h
    exact .start c
  | go i env =>
    simp only [step] at h
    split at h
    · cases h
    · next t hi =>
      obtain ⟨c, prog, trace⟩ := t
      cases prog with
      | ret r => cases h
      | op o k =>
        simp only [Option.map_eq_some_iff] at h
        obtain ⟨⟨v, m⟩, hexec, rfl⟩ := h
        exact .go i env c o k trace v m hi hexec
  | transport d l paused =>
    cases h
    exact .transport d l paused

/-- Every thread keeps its trace in balance, in every run. -/
theorem keeps_step {dw : Device} (s : State) (l : Label) (t : State)
    (inv : ∀ u ∈ s.threads, u.Keeps) (h : step dw s l = some t) : ∀ u ∈ t.threads, u.Keeps := by
  cases step_moved h with
  | start c =>
    intro u hu
    rcases List.mem_append.mp hu with hu | hu
    · exact inv u hu
    · rw [List.mem_singleton.mp hu]
      exact code_balanced dw c
  | go i env c o k trace v m hi hexec =>
    exact Machine.forall_mem_set inv (fun _ => id) (inv _ (List.mem_of_getElem? hi) v)
  | transport d l paused => exact inv

/-! ### One owner -/

/-- The flag of a channel that has an owner is set, and there is one owner only. -/
structure Owned (s : State) : Prop where
  keeps : ∀ t ∈ s.threads, t.Keeps
  owners : ∀ ch, s.threads.countP (Thread.holds ch) ≤ if s.shared.chInUse .read ch then 1 else 0

theorem Owned.exclusive {s : State} (inv : Owned s) : Exclusive s := by
  intro ch
  have := inv.owners ch
  split at this <;> omega

@[simp] theorem setInUse_read (m : Shared) (ch c : Nat) (b : Bool) :
    (m.setInUse .read ch b).chInUse .read c = if c = ch then b else m.chInUse .read c := by
  simp only [Shared.setInUse, Function.update_self, Function.update_apply]

section Go
variable {s : State} {i : Nat} {env : Env} {c : Call} {o : Op} {k : o.Val → Code (Option Errno)}
  {trace : List Event} {v : o.Val} {m : Shared}

/-- The thread takes a channel whose flag is clear: nobody owned it. -/
theorem acquire_owners {ch : Nat} {u : Thread}
    (inv : Owned s) (hi : s.threads[i]? = some u) (hu : ∀ d, u.holds d = false)
    (hfree : s.shared.chInUse .read ch = false) {u' : Thread} (hu' : u'.trace = [.acquired ch])
    (d : Nat) :
    (s.threads.set i u').countP (Thread.holds d) ≤
      if (s.shared.setInUse .read ch true).chInUse .read d then 1 else 0 := by
  have moved := Machine.countP_move (p := Thread.holds d) (y := u') hi
  have before := inv.owners d
  rw [hu d] at moved
  rw [setInUse_read]
  by_cases hd : d = ch
  · subst hd
    rw [hfree] at before
    simp only [Thread.holds, hu', decide_true, if_true, Bool.false_eq_true, if_false] at moved before ⊢
    omega
  · have : u'.holds d = false := by
      simp only [Thread.holds, hu', List.cons.injEq, Event.acquired.injEq, and_true,
        decide_eq_false_iff_not]
      exact fun h => hd h.symm
    rw [this] at moved
    simp only [hd, if_false, Bool.false_eq_true] at moved ⊢
    omega

/-- The owner gives the channel back. -/
theorem release_owners {ch : Nat} {u : Thread}
    (inv : Owned s) (hi : s.threads[i]? = some u) (hu : u.trace = [.acquired ch])
    {u' : Thread} (hu' : ∀ d, u'.holds d = false) (d : Nat) :
    (s.threads.set i u').countP (Thread.holds d) ≤
      if (s.shared.setInUse .read ch false).chInUse .read d then 1 else 0 := by
  have moved := Machine.countP_move (p := Thread.holds d) (y := u') hi
  have before := inv.owners d
  rw [hu' d] at moved
  rw [setInUse_read]
  by_cases hd : d = ch
  · subst hd
    have self : u.holds d = true := by simp only [Thread.holds, hu, decide_true]
    rw [self] at moved
    simp only [if_true, Bool.false_eq_true, if_false] at moved ⊢
    split at before <;> omega
  · simp only [hd, if_false, Bool.false_eq_true] at moved ⊢
    split at moved <;> omega

/-- An access that neither takes nor gives. -/
theorem still_owners {u u' : Thread} (inv : Owned s) (hi : s.threads[i]? = some u)
    (hu : u'.trace = u.trace) (hm : ∀ d, m.chInUse .read d = s.shared.chInUse .read d) (d : Nat) :
    (s.threads.set i u').countP (Thread.holds d) ≤ if m.chInUse .read d then 1 else 0 := by
  have moved := Machine.countP_move (p := Thread.holds d) (y := u') hi
  have before := inv.owners d
  have same : u'.holds d = u.holds d := by simp only [Thread.holds, hu]
  rw [same] at moved
  rw [hm]
  omega

/-- The flag of a channel that nobody owns is cleared. -/
theorem clear_owners {ch : Nat} {u u' : Thread} (inv : Owned s) (hi : s.threads[i]? = some u)
    (hu : u'.trace = u.trace) (hnone : ∀ w ∈ s.threads, w.holds ch = false) (d : Nat) :
    (s.threads.set i u').countP (Thread.holds d) ≤
      if (s.shared.setInUse .read ch false).chInUse .read d then 1 else 0 := by
  have moved := still_owners (m := s.shared) inv hi hu (fun _ => rfl)
  rw [setInUse_read]
  by_cases hd : d = ch
  · subst hd
    have none : ∀ w ∈ s.threads.set i u', w.holds d = false := by
      refine Machine.forall_mem_set hnone (fun _ => id) ?_
      have := hnone u (List.mem_of_getElem? hi)
      simp only [Thread.holds, hu] at this ⊢
      exact this
    rw [List.countP_eq_zero.mpr fun w hw => by rw [none w hw]; rintro ⟨⟩]
    exact Nat.zero_le _
  · simp only [hd, if_false]
    exact moved d

/-- Nothing has been acquired before. -/
theorem nil_of_acquired {trace : List Event} {ch : Nat}
    (h : Balanced (trace ++ [.acquired ch]) ∨ ∃ c, trace ++ [.acquired ch] = [.acquired c]) :
    trace = [] := by
  rcases trace with _ | ⟨a, _ | ⟨b, rest⟩⟩
  · rfl
  · simp [Balanced] at h
  · simp [Balanced] at h

/-- What is released is what has been acquired. -/
theorem acquired_of_released {trace : List Event} {ch : Nat}
    (h : Balanced (trace ++ [.released ch]) ∨ ∃ c, trace ++ [.released ch] = [.acquired c]) :
    trace = [.acquired ch] := by
  rcases trace with _ | ⟨a, _ | ⟨b, rest⟩⟩
  · simp [Balanced] at h
  · simpa [Balanced] using h
  · simp [Balanced] at h

theorem go_owned (inv : Owned s)
    (rule : ∀ ch, o = .clear .read ch → ∀ u ∈ s.threads, u.holds ch = false)
    (hi : s.threads[i]? = some ⟨c, .op (A := access) o k, trace⟩)
    (hexec : exec s.shared env o = some (v, m)) :
    Owned ⟨m, s.threads.set i ⟨c, k v, track trace o v⟩⟩ := by
  have self := inv.keeps _ (List.mem_of_getElem? hi)
  refine ⟨Machine.forall_mem_set inv.keeps (fun _ => id) (self v), ?_⟩
  have after := (Thread.Keeps.orderly (t := ⟨c, k v, track trace o v⟩) (self v)).1
  cases o with
  | tryAcquire ch =>
    simp only [exec] at hexec
    split at hexec
    · cases hexec
      exact still_owners inv hi rfl fun _ => rfl
    · next hfree =>
      cases hexec
      -- with something acquired before, the trace could not be balanced any more
      obtain rfl : trace = [] := nil_of_acquired after
      simp only [not_or, Bool.not_eq_true] at hfree
      exact acquire_owners inv hi (fun _ => rfl) hfree.2 rfl
  | release ch =>
    cases hexec
    obtain rfl : trace = [.acquired ch] := acquired_of_released after
    exact release_owners inv hi rfl fun d => by simp [Thread.holds, track]
  | clear dir ch =>
    cases hexec
    cases dir with
    | write => exact still_owners inv hi rfl fun _ => rfl
    | read => exact clear_owners inv hi rfl (rule ch rfl)
  | lockWr =>
    simp only [exec] at hexec
    split at hexec
    · cases hexec
    · cases hexec
      exact still_owners inv hi rfl fun _ => rfl
  | _ =>
    cases hexec
    exact still_owners inv hi rfl fun _ => rfl

end Go

theorem step_owned {dw : Device} (s : State) (l : Label) (t : State) (inv : Owned s)
    (rule : Unowned s l) (h : step dw s l = some t) : Owned t := by
  have keeps := keeps_step s l t inv.keeps h
  cases step_moved h with
  | start c =>
    refine ⟨keeps, fun ch => ?_⟩
    have := inv.owners ch
    simp only [List.countP_append, List.countP_cons, List.countP_nil, Thread.holds, reduceCtorEq,
      decide_false, Bool.false_eq_true, if_false, Nat.add_zero] at this ⊢
    exact this
  | go i env c o k trace v m hi hexec =>
    exact go_owned inv (fun ch ho => rule _ hi ch (congrArg some ho)) hi hexec
  | transport d l paused => exact ⟨keeps, inv.owners⟩

theorem initial_owned : Owned initial := ⟨fun _ h => (by cases h), fun _ => Nat.zero_le _⟩

/-- **One owner at a time.** In every run of any number of workers and resets in which the
reset clears the flag of no channel somebody holds, no helper channel has two owners, and
every worker gives back the one channel it acquired, once. -/
theorem unowned_run_exclusive {dw : Device} {ls : List Label} {s : State}
    (rule : Machine.Admissible (step dw) Unowned initial ls)
    (h : Machine.run (step dw) initial ls = some s) :
    Exclusive s ∧ ∀ t ∈ s.threads, t.Orderly := by
  have inv := Machine.invariant_of_admissible (step dw) step_owned initial_owned rule h
  exact ⟨inv.exclusive, fun t ht => (inv.keeps t ht).orderly⟩

/-! ### Parts of runs -/

/-- Four channels each way. -/
def fourByFour : Device := ⟨4, 4⟩

/-- Thread `i` makes `n` accesses; no lock is contended, nothing is aborted, every wait ends
well. -/
def goes (i n : Nat) : List Label := List.replicate n (.go i ⟨false, false, none⟩)

/-- A worker for a chunk of WRITE channel 0; after nine accesses it has its helper, after
thirteen it has returned. -/
def worker : Label := .start (.xferLlmDesc .write 0 false)

/-- Two workers at once, then a reset, then a pre-copy. -/
def orderlyRun : List Label :=
  worker :: goes 0 9 ++ worker :: goes 1 13 ++ goes 0 4 ++ .start .resetDmaChannels :: goes 2 21 ++
    .start (.precopyLli .write true) :: goes 3 10

def State.traces (s : State) : List (List Event) := s.threads.map Thread.trace

theorem exclusive_orderlyRun :
    ∃ s, Machine.run (step fourByFour) initial orderlyRun = some s ∧
      s.traces = [[.acquired 3, .released 3], [.acquired 2, .released 2], [], [.acquired 3]] ∧
      Exclusive s ∧ ∀ t ∈ s.threads, t.Orderly := by
  have unowned : Machine.Admissible (step fourByFour) Unowned initial orderlyRun := by decide
  have hrun : (Machine.run (step fourByFour) initial orderlyRun).map State.traces =
      some [[.acquired 3, .released 3], [.acquired 2, .released 2], [], [.acquired 3]] := by decide
  obtain ⟨s, hs, htraces⟩ := Option.map_eq_some_iff.mp hrun
  exact ⟨s, hs, htraces, unowned_run_exclusive unowned hs⟩

/-- The reset comes while the first worker has channel 3; the worker after it takes that
channel again. -/
def forcedRun : List Label :=
  worker :: goes 0 9 ++ worker :: goes 1 13 ++ .start .resetDmaChannels :: goes 2 21 ++
    worker :: goes 3 9

theorem two_owners :
    ¬ ∀ dw ls s, Machine.run (step dw) initial ls = some s →
      Exclusive s ∧ ∀ t ∈ s.threads, t.Orderly := by
  intro h
  have hrun : (Machine.run (step fourByFour) initial forcedRun).map
      (fun s => s.threads.countP (Thread.holds 3)) = some 2 := by decide
  obtain ⟨s, hs, hcount⟩ := Option.map_eq_some_iff.mp hrun
  have := (h fourByFour forcedRun s hs).1 3
  rw [hcount] at this
  exact absurd this (by decide)

end DxNpuDriver.Edma.Helper
