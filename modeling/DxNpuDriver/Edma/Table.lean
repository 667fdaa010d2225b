import DxNpuDriver.Edma.Coverage

/-! The descriptor table on its way to the device (`dw-edma-v0-core.c`, `dw-edma-core.c`).

A channel has one host buffer, `desc_buf`, in which `dw_edma_v0_core_write_chunk` lays out
the table of a chunk, and one region in the device, into which a helper channel copies it
and from which the engine reads it. Two chunks share them: while the table of the one is
running, the shadow worker writes the next one to `desc_buf`, and copies it after Done.

The machine is that of `Transfer` with the two buffers and the engine beside it. The
launch worker and the lazy worker write and copy in `dw_edma_v0_core_prepare_start`, and
others may come in between; the write is a step of its own here. The engine runs from the
doorbell on until it finishes; a Done is handled, and CS reads STOP, only when it does not
run. -/
namespace DxNpuDriver.Edma.Table
open Fill
open Transfer (Xfer Env)

/-- What the two buffers hold the table of, and whether a data transfer is running. -/
structure Device where
  descBuf : Option Chunk
  llRegion : Option Chunk
  running : Bool
  deriving DecidableEq

/-- `launchWrote` and `lazyWrote`: the worker is in `dw_edma_v0_core_prepare_start`, between
its write and its copy. -/
structure State where
  channel : Transfer.State
  device : Device
  launchWrote : Bool
  lazyWrote : Bool
  deriving DecidableEq

/-- The channel of an issued descriptor; nothing is known of the buffers. -/
def issue (d : Transfer.Desc) (descBuf llRegion : Option Chunk) : State :=
  ⟨Transfer.issue d, ⟨descBuf, llRegion, false⟩, false, false⟩

inductive Label where
  | channel (l : Transfer.Label)
  | launchWrite
  | lazyWrite
  /-- The engine comes to the end of the table. -/
  | finish
  deriving DecidableEq

/-- The chunk whose table the step begins to copy. -/
def copies (s : State) : Label → Option Chunk
  | .channel (.launch _) =>
    match s.channel.launch with
    | .prepare child => if s.launchWrote then some child else none
    | _ => none
  | .channel (.lazy _) =>
    match s.channel.lazy with
    | .prepare child _ => if s.lazyWrote then some child else none
    | _ => none
  | .channel (.shadow _) =>
    match s.channel.shadow with
    | .precopy c _ => some c
    | _ => none
  | _ => none

/-- The chunk whose table `dw_edma_v0_core_prebuild_chunk` writes. -/
def prebuilds (s : State) : Label → Option Chunk
  | .channel (.shadow env) =>
    match s.channel.shadow with
    | .prebuild c => if env.ret = .ok then some c else none
    | _ => none
  | _ => none

/-- What the environment answered. -/
def ret : Label → Ret
  | .channel (.launch env) | .channel (.lazy env) | .channel (.shadow env) => env.ret
  | _ => .ok

/-- A Done is handled, and STOP read, when the engine does not run; a worker that has not
written its table does not get as far as to have it copied. -/
def enabled (s : State) : Transfer.Label → Bool
  | .done => !s.device.running
  | .launch env =>
    match s.channel.launch with
    | .prepare _ => s.launchWrote || decide (env.ret ≠ .ok)
    | _ => true
  | .lazy env =>
    match s.channel.lazy with
    | .prepare _ _ => s.lazyWrote || decide (env.ret ≠ .ok)
    | _ => true
  | .shadow env =>
    match s.channel.shadow with
    | .readStatus _ => !(env.yes && s.device.running)
    | _ => true
  | _ => true

/-- The device after a step of the channel that leads to `t`. Of a copy that fails it is not
known what it leaves. -/
def Device.after (s : State) (l : Label) (t : Transfer.State) : Device :=
  { descBuf := (prebuilds s l).or s.device.descBuf
    llRegion :=
      if (copies s l).isSome then if ret l = .ok then s.device.descBuf else none
      else s.device.llRegion
    running := s.device.running || decide (t.rung ≠ s.channel.rung) }

def step (x : Xfer) (s : State) : Label → Option State
  | .channel l =>
    if enabled s l then
      (Transfer.step x s.channel l).map fun t =>
        ⟨t, .after s (.channel l) t,
          s.launchWrote && decide (t.launch = s.channel.launch),
          s.lazyWrote && decide (t.lazy = s.channel.lazy)⟩
    else none
  | .launchWrite =>
    match s.channel.launch with
    | .prepare child =>
      if s.launchWrote then none
      else some {s with device := {s.device with descBuf := some child}, launchWrote := true}
    | _ => none
  | .lazyWrite =>
    match s.channel.lazy with
    | .prepare child _ =>
      if s.lazyWrote then none
      else some {s with device := {s.device with descBuf := some child}, lazyWrote := true}
    | _ => none
  | .finish =>
    if s.device.running then some {s with device := {s.device with running := false}} else none

/-! ### The property -/

/-- A step that copies a table does so while no data transfer runs, and copies the table
written for its chunk; a step that rings finds the table of its chunk in the device. -/
structure Isolates (s : State) (l : Label) (t : State) : Prop where
  stopped : ∀ c, copies s l = some c → s.device.running = false
  written : ∀ c, copies s l = some c → s.device.descBuf = some c
  launched : ∀ c, t.channel.rung = s.channel.rung ++ [c] → s.device.llRegion = some c

/-- Consecutive tables have opposite change bits. -/
def Alternates (rung : List Chunk) : Prop := rung.IsChain fun a b => b.cb = !a.cb

/-! ### The invariant -/

/-- The table that was launched last; before the first doorbell, the one that will be. -/
def lastTable (s : Transfer.State) : Option Chunk := s.rung.getLast?.or s.desc.chunks.head?

/-- The change bits a refill meets and leaves, after table `p`. -/
structure Refills (p : Chunk) (s : Transfer.State) : Prop where
  active : ∀ c, s.desc.chunks.head? = some c → c.cb = p.cb
  fill : ∀ c, s.lazy = .fill c → c.cb = p.cb
  prepare : ∀ c plan, s.lazy = .prepare c plan → c.cb = !p.cb
  commit : ∀ c plan, s.lazy = .commit c (some plan) → c.cb = !p.cb

/-- The change bits: of the tables rung for, of the table the shadow worker has next, and of
the table that is refilled. -/
structure Toggled (s : Transfer.State) : Prop where
  rung : Alternates s.rung
  shadow : s.desc.lazyWorkInitialized = false →
    ∀ c p, s.desc.shadowChunk = some c → lastTable s = some p → c.cb = !p.cb
  refill : s.desc.lazyWorkInitialized = true → ∀ p, s.rung.getLast? = some p → Refills p s

/-- What the buffers hold at each place of the shadow worker. -/
def Buffered (s : Transfer.State) (d : Device) : Prop :=
  match s.shadow with
  | .idle | .entry => ∀ c, s.desc.shadowChunk = some c → c.head = true → d.descBuf = some c
  | .prealloc c | .turn c _ | .readStarted c | .readStatus c | .handoff c | .recheck c
  | .precopy c _ => d.descBuf = some c
  | .clearStarted c => d.descBuf = some c ∧ d.running = false
  | .launch c _ => d.llRegion = some c
  | .noChunk | .fill _ | .prebuild _ | .failed | .precopyFailed _ | .queueNext | .setAborted
  | .clearLazy => True

structure Inv (x : Xfer) (s : State) : Prop where
  cover : ∃ k n, Transfer.Cover x k n s.channel
  started : s.device.running = true → s.channel.xferStarted = true
  launchWrote : s.launchWrote = true →
    ∃ child, s.channel.launch = .prepare child ∧ s.device.descBuf = some child
  launchRing : ∀ child, s.channel.launch = .ring child .ok → s.device.llRegion = some child
  lazyWrote : s.lazyWrote = true →
    ∃ child plan, s.channel.lazy = .prepare child plan ∧ s.device.descBuf = some child
  lazyCommit : ∀ child plan, s.channel.lazy = .commit child (some plan) →
    s.device.llRegion = some child
  shadow : s.channel.desc.lazyWorkInitialized = false → Buffered s.channel s.device
  unbuilt : s.channel.desc.lazyWorkInitialized = false → s.channel.rung = [] →
    ∀ c, s.channel.desc.shadowChunk = some c → c.head = false
  toggled : Toggled s.channel

/-! ### Done -/

/-- A Done leaves the workers, their chunks and the doorbell alone. -/
theorem doneInterrupt_frame (s : Transfer.State) (hsingle : s.desc.chunks.length ≤ 1)
    (hne : s.xferStarted = true → s.desc.chunks ≠ []) :
    let t := Transfer.doneInterrupt s
    t.rung = s.rung ∧ t.launch = s.launch ∧ t.lazy = s.lazy ∧ t.shadow = s.shadow ∧
      t.desc.shadowChunk = s.desc.shadowChunk ∧
      t.desc.lazyWorkInitialized = s.desc.lazyWorkInitialized ∧
      (t.desc.chunks = s.desc.chunks ∨ s.xferStarted = true ∧ t.desc.chunks = []) := by
  rcases Transfer.doneInterrupt_cases hsingle hne with hsame | ⟨hstarted, xferSz, hsame | hout⟩
  · simp only [hsame, true_or, and_self]
  · simp only [hsame, Transfer.credit, true_or, and_self]
  · generalize Transfer.doneInterrupt s = t at hout ⊢
    cases hout with
    | finished h => exact ⟨rfl, rfl, rfl, rfl, rfl, rfl, .inr ⟨hstarted, rfl⟩⟩
    | unexpected hlazy h => exact ⟨rfl, rfl, rfl, rfl, rfl, rfl, .inr ⟨hstarted, rfl⟩⟩
    | _ => exact ⟨rfl, rfl, rfl, rfl, rfl, rfl, .inl rfl⟩

theorem Toggled.frame {s t : Transfer.State} (h : Toggled s) (hrung : t.rung = s.rung)
    (hlazy : t.lazy = s.lazy) (hchunk : t.desc.shadowChunk = s.desc.shadowChunk)
    (hinit : t.desc.lazyWorkInitialized = s.desc.lazyWorkInitialized)
    (hchunks : t.desc.chunks = s.desc.chunks ∨ s.rung ≠ [] ∧ t.desc.chunks = []) : Toggled t := by
  refine ⟨by rw [hrung]; exact h.rung, ?_, ?_⟩
  · intro hi c p hc hp
    refine h.shadow (hinit ▸ hi) c p (hchunk ▸ hc) ?_
    rcases hchunks with hchunks | ⟨hne, hchunks⟩
    · rw [lastTable, ← hrung, ← hchunks]
      exact hp
    · obtain ⟨q, hq⟩ := Option.ne_none_iff_exists'.mp (mt List.getLast?_eq_none_iff.mp hne)
      simp only [lastTable, hrung, hq, Option.some_or] at hp ⊢
      exact hp
  · intro hi p hp
    have before := h.refill (hinit ▸ hi) p (hrung ▸ hp)
    refine ⟨?_, by rw [hlazy]; exact before.fill, by rw [hlazy]; exact before.prepare,
      by rw [hlazy]; exact before.commit⟩
    rcases hchunks with hchunks | ⟨-, hchunks⟩
    · rw [hchunks]
      exact before.active
    · simp [hchunks]

theorem Buffered.frame {s t : Transfer.State} {d : Device} (h : Buffered s d)
    (hshadow : t.shadow = s.shadow) (hchunk : t.desc.shadowChunk = s.desc.shadowChunk) :
    Buffered t d := by
  simp only [Buffered, hshadow, hchunk] at h ⊢
  exact h

/-- The device after a step that neither writes nor copies nor rings. -/
theorem Device.after_quiet {s : State} {l : Label} {t : Transfer.State} (hcopies : copies s l = none)
    (hprebuilds : prebuilds s l = none) (hrung : t.rung = s.channel.rung) :
    Device.after s l t = s.device := by
  simp [Device.after, hcopies, hprebuilds, hrung]

/-- A table with the other bit goes on. -/
theorem Alternates.ring {rung : List Chunk} {p c : Chunk} (h : Alternates rung)
    (hp : rung.getLast? = some p) (hcb : c.cb = !p.cb) : Alternates (rung ++ [c]) := by
  refine List.isChain_append.mpr ⟨h, List.isChain_singleton _, ?_⟩
  intro a ha b hb
  simp only [List.head?_cons, Option.mem_def, Option.some.injEq] at hb
  rw [Option.mem_def, hp] at ha
  cases ha
  rw [← hb, hcb]

theorem done_inv {x : Xfer} {s : State} (inv : Inv x s)
    (cover : ∃ k n, Transfer.Cover x k n (Transfer.doneInterrupt s.channel))
    (hrunning : s.device.running = false) :
    Inv x ⟨Transfer.doneInterrupt s.channel, s.device, s.launchWrote, s.lazyWrote⟩ := by
  obtain ⟨k, n, before⟩ := inv.cover
  obtain ⟨hrung, hlaunch, hlazy, hshadow, hchunk, hinit, hchunks⟩ := doneInterrupt_frame s.channel
    before.base.single (fun h => (before.base.started h).2)
  refine ⟨cover, ?_, ?_, ?_, ?_, ?_, ?_, ?_, ?_⟩
  · intro h
    rw [hrunning] at h
    cases h
  · rw [hlaunch]
    exact inv.launchWrote
  · rw [hlaunch]
    exact inv.launchRing
  · rw [hlazy]
    exact inv.lazyWrote
  · rw [hlazy]
    exact inv.lazyCommit
  · intro h
    exact (inv.shadow (hinit ▸ h)).frame hshadow hchunk
  · rw [hrung, hchunk, hinit]
    exact inv.unbuilt
  · refine inv.toggled.frame hrung hlazy hchunk hinit ?_
    rcases hchunks with hchunks | ⟨hstarted, hchunks⟩
    · exact .inl hchunks
    · exact .inr ⟨(before.base.started hstarted).1, hchunks⟩

/-! ### The launch worker -/

/-- The state after a step of the channel. -/
def State.next (s : State) (l : Transfer.Label) (t : Transfer.State) : State :=
  ⟨t, .after s (.channel l) t, s.launchWrote && decide (t.launch = s.channel.launch),
    s.lazyWrote && decide (t.lazy = s.channel.lazy)⟩

section Launch
variable {x : Xfer} {s : State} {t : Transfer.State} {env : Env}

/-- While the launch worker has a table, nobody else has begun. -/
theorem Inv.staged (inv : Inv x s) (hl : s.channel.launch.holding = true) :
    s.channel.rung = [] ∧ s.channel.xferStarted = false ∧ s.channel.shadow = .idle ∧
      s.channel.lazy = .idle := by
  obtain ⟨k, n, cover⟩ := inv.cover
  have hrung := cover.base.staging (by simp [Transfer.State.staging, hl])
  refine ⟨hrung, ?_, ?_, ?_⟩
  · exact Bool.eq_false_iff.mpr fun h => (cover.base.started h).1 hrung
  · cases hinit : s.channel.desc.lazyWorkInitialized with
    | true => exact (cover.fixed hinit).idle.2.1
    | false =>
      by_contra hne
      exact (cover.shadowed hinit).launched (.inr hne) hrung
  · cases hinit : s.channel.desc.lazyWorkInitialized with
    | true =>
      by_contra hne
      exact ((cover.fixed hinit).running (.inr hne)).2 hrung
    | false => exact (cover.shadowed hinit).lazy.1

/-- The launch worker goes on without a doorbell and without a copy. -/
theorem Inv.launch_quiet (inv : Inv x s) (cover : ∃ k n, Transfer.Cover x k n t)
    (hwrote : s.launchWrote = false) (hcopies : copies s (.channel (.launch env)) = none)
    (hsame : ∃ p l err, t = {s.channel with pendingLaunch := p, launch := l, hwErr := err})
    (hring : ∀ child, t.launch = .ring child .ok → s.channel.launch = .ring child .ok) :
    Inv x (s.next (.launch env) t) := by
  obtain ⟨p, l, err, rfl⟩ := hsame
  have hdevice : Device.after s (.channel (.launch env))
      {s.channel with pendingLaunch := p, launch := l, hwErr := err} = s.device :=
    Device.after_quiet hcopies rfl rfl
  refine ⟨cover, ?_, ?_, ?_, ?_, ?_, ?_, inv.unbuilt, inv.toggled.frame rfl rfl rfl rfl (.inl rfl)⟩
  · simp only [State.next, hdevice]
    exact inv.started
  · simp [State.next, hwrote]
  · simp only [State.next, hdevice]
    exact fun child h => inv.launchRing child (hring child h)
  · simp only [State.next, hdevice, decide_true, Bool.and_true]
    exact inv.lazyWrote
  · simp only [State.next, hdevice]
    exact inv.lazyCommit
  · simp only [State.next, hdevice]
    exact fun h => (inv.shadow h).frame rfl rfl

/-- The lazy worker does not run, so it has written nothing. -/
theorem Inv.unrefilled (inv : Inv x s) (hlazy : s.channel.lazy = .idle) : s.lazyWrote = false := by
  refine Bool.eq_false_iff.mpr fun hw => ?_
  obtain ⟨child, plan, hp, -⟩ := inv.lazyWrote hw
  cases hlazy.symm.trans hp

/-- The copy of the first table. -/
theorem launch_prepare {child : Chunk} (inv : Inv x s)
    (cover : ∃ k n, Transfer.Cover x k n t) (henabled : enabled s (.launch env) = true)
    (hl : s.channel.launch = .prepare child) (h : Transfer.launchStep env s.channel = some t) :
    Inv x (s.next (.launch env) t) := by
  simp only [Transfer.launchStep, hl, Option.some.injEq] at h
  subst h
  cases hwrote : s.launchWrote with
  | false =>
    simp only [enabled, hl, hwrote, Bool.false_or, decide_eq_true_eq] at henabled
    refine inv.launch_quiet cover hwrote ?_ ⟨_, _, _, rfl⟩ ?_
    · simp only [copies, hl, hwrote, Bool.false_eq_true, if_false]
    · intro c hc
      exact absurd (Transfer.Launch.ring.inj hc).2 henabled
  | true =>
    obtain ⟨c, hc, hbuf⟩ := inv.launchWrote hwrote
    rw [hl] at hc
    cases hc
    have hcopies : copies s (.channel (.launch env)) = some child := by
      simp only [copies, hl, hwrote, if_true]
    obtain ⟨hrung, hstarted, hshadow, hlazy⟩ := inv.staged (by rw [hl]; rfl)
    refine ⟨cover, ?_, ?_, ?_, ?_, ?_, ?_, inv.unbuilt, inv.toggled.frame rfl rfl rfl rfl (.inl rfl)⟩
    · simp only [State.next, Device.after, ne_eq, not_true_eq_false, decide_false, Bool.or_false]
      exact inv.started
    · simp [State.next, hl]
    · intro d hd
      simp only [State.next, Transfer.Launch.ring.injEq] at hd
      simp only [State.next, Device.after, hcopies, Option.isSome_some, if_true, ret, hd.2, hbuf]
      rw [hd.1]
    · simp [State.next, inv.unrefilled hlazy]
    · intro c plan hc
      simp only [State.next, hlazy] at hc
      cases hc
    · intro hinit
      have := inv.shadow hinit
      simp only [Buffered, State.next, hshadow] at this ⊢
      exact this

/-- The launch worker is not between its write and its copy. -/
theorem Inv.not_writing (env : Env) (inv : Inv x s) (h : ∀ child, s.channel.launch ≠ .prepare child) :
    s.launchWrote = false ∧ copies s (.channel (.launch env)) = none := by
  constructor
  · refine Bool.eq_false_iff.mpr fun hw => ?_
    obtain ⟨child, hp, -⟩ := inv.launchWrote hw
    exact h child hp
  · simp only [copies]

/-- The first doorbell rings, and the shadow worker may be asked for the next table. -/
theorem launch_rung {child : Chunk} (pending : Bool) (inv : Inv x s)
    (hl : s.channel.launch = .ring child .ok) (hhead : s.channel.desc.chunks.head? = some child)
    (cover : ∃ k n, Transfer.Cover x k n {s.channel with
      launch := .idle, xferStarted := true, rung := s.channel.rung ++ [child],
      shadowPending := pending}) :
    Inv x (s.next (.launch env) {s.channel with
      launch := .idle, xferStarted := true, rung := s.channel.rung ++ [child],
      shadowPending := pending}) := by
  have hwrote := (inv.not_writing env (by rw [hl]; rintro _ ⟨⟩)).1
  obtain ⟨hrung, hstarted, hshadow, hlazy⟩ := inv.staged (by rw [hl]; rfl)
  refine ⟨cover, fun _ => rfl, by simp [State.next, hwrote], fun _ h => (by cases h), ?_, ?_, ?_, ?_,
    ?_, ?_, ?_⟩
  · simp [State.next, inv.unrefilled hlazy]
  · intro c plan hc
    simp only [State.next, hlazy] at hc
    cases hc
  · intro hinit
    have := inv.shadow hinit
    simp only [Buffered, State.next, hshadow] at this ⊢
    exact this
  · simp [State.next]
  · simp [State.next, hrung, Alternates]
  · intro hinit c p hc hp
    refine inv.toggled.shadow hinit c p hc ?_
    simp only [State.next, lastTable, hrung, List.nil_append, List.getLast?_singleton,
      Option.some_or] at hp
    simp only [lastTable, hrung, List.getLast?_nil, Option.none_or, hhead, hp]
  · intro _ p hp
    simp only [State.next, hrung, List.nil_append, List.getLast?_singleton, Option.some.injEq] at hp
    subst hp
    refine ⟨fun c hc => ?_, ?_, ?_, ?_⟩
    · simp only [State.next, hhead, Option.some.injEq] at hc
      rw [hc]
    all_goals
      simp only [State.next, hlazy]
      intros
      contradiction

theorem launch_inv (inv : Inv x s) (cover : ∃ k n, Transfer.Cover x k n t)
    (henabled : enabled s (.launch env) = true) (h : Transfer.launchStep env s.channel = some t) :
    Inv x (s.next (.launch env) t) := by
  -- whatever it does but to copy and to ring, the worker leaves the device alone
  have quiet {p : Option Chunk} {l : Transfer.Launch} {err : Bool}
      (hl : ∀ child, s.channel.launch ≠ .prepare child) (hring : ∀ child, l ≠ .ring child .ok)
      (cover : ∃ k n, Transfer.Cover x k n {s.channel with
        pendingLaunch := p, launch := l, hwErr := err}) :
      Inv x (s.next (.launch env) {s.channel with pendingLaunch := p, launch := l, hwErr := err}) := by
    obtain ⟨hwrote, hcopies⟩ := inv.not_writing env hl
    exact inv.launch_quiet cover hwrote hcopies ⟨_, _, _, rfl⟩ fun child hc => absurd hc (hring child)
  cases Transfer.launchStep_cases h with
  | prepared child hl => exact launch_prepare inv cover henabled hl h
  | nothing hl | dropped child hl | taken child hl =>
    exact quiet (by rw [hl]; rintro _ ⟨⟩) (by rintro _ ⟨⟩) cover
  | unprepared child ret hl | refused child hl | stale child hl =>
    exact quiet (by rw [hl]; rintro _ ⟨⟩) (by rintro _ ⟨⟩) cover
  | rung child pending hl hcompleted hchild hpending =>
    exact launch_rung pending inv hl hchild cover

end Launch

/-! ### The lazy worker -/

section Lazy
variable {x : Xfer} {s : State} {t : Transfer.State} {env : Env}

/-- A refilled table has the other change bit. -/
theorem lazyRefillChunkPrepare_cb {supply : Supply} {d : Transfer.Desc} {c c' : Chunk}
    {plan : Transfer.Plan}
    (h : Transfer.lazyRefillChunkPrepare x supply d c = (c', some plan)) : c'.cb = !c.cb := by
  simp only [Transfer.lazyRefillChunkPrepare] at h
  split at h
  · cases h
  · split at h
    · cases h
    · split at h
      · cases h
        rw [fillSgBursts_cb]
        rfl
      · cases h

/-- While a refill is under way the engine has stopped, and the launch worker has done its
part. -/
theorem Inv.refilling (inv : Inv x s) (hl : s.channel.lazy ≠ .idle) :
    s.channel.desc.lazyWorkInitialized = true ∧ s.device.running = false ∧
      s.channel.launch.holding = false ∧ ∃ p, s.channel.rung.getLast? = some p := by
  obtain ⟨k, n, cover⟩ := inv.cover
  have hinit : s.channel.desc.lazyWorkInitialized = true := by
    by_contra h
    exact hl (cover.shadowed (Bool.eq_false_iff.mpr h)).lazy.1
  obtain ⟨hstarted, hrung⟩ := (cover.fixed hinit).running (.inr hl)
  refine ⟨hinit, ?_, ?_, ?_⟩
  · exact Bool.eq_false_iff.mpr fun h => by
      have := inv.started h
      rw [hstarted] at this
      cases this
  · exact Bool.eq_false_iff.mpr fun h => hrung (inv.staged h).1
  · exact Option.ne_none_iff_exists'.mp (mt List.getLast?_eq_none_iff.mp hrung)

/-- The launch worker holds nothing, so nothing is said of what it wrote or copied. -/
theorem Inv.unlaunched (inv : Inv x s) (hl : s.channel.launch.holding = false) :
    s.launchWrote = false ∧ ∀ child, s.channel.launch ≠ .ring child .ok := by
  refine ⟨Bool.eq_false_iff.mpr fun hw => ?_, fun child hring => ?_⟩
  · obtain ⟨_, hp, _⟩ := inv.launchWrote hw
    rw [hp] at hl
    cases hl
  · rw [hring] at hl
    cases hl

/-- The lazy worker goes on: what it leaves in the device region it has copied itself. -/
theorem Inv.lazy_moved (inv : Inv x s) (cover : ∃ k n, Transfer.Cover x k n t)
    (hl : s.channel.lazy ≠ .idle) (hlaunch : t.launch = s.channel.launch)
    (hinit : t.desc.lazyWorkInitialized = s.channel.desc.lazyWorkInitialized)
    (hne : t.lazy ≠ s.channel.lazy) (hrung : t.rung = s.channel.rung)
    (hcommit : ∀ child plan, t.lazy = .commit child (some plan) →
      (s.next (.lazy env) t).device.llRegion = some child)
    (hrefill : ∀ p, s.channel.rung.getLast? = some p → Refills p t) :
    Inv x (s.next (.lazy env) t) := by
  obtain ⟨hfixed, hrunning, hholding, q, hq⟩ := inv.refilling hl
  obtain ⟨hwrote, hring⟩ := inv.unlaunched hholding
  have hnonempty : s.channel.rung ≠ [] := fun h => by simp [h] at hq
  refine ⟨cover, ?_, ?_, ?_, ?_, hcommit, ?_, ?_, ?_, ?_, ?_⟩
  · simp [State.next, Device.after, hrunning, hrung]
  · simp [State.next, hwrote]
  · intro child h
    simp only [State.next, hlaunch] at h
    exact absurd h (hring child)
  · simp [State.next, hne]
  · intro h
    simp only [State.next, hinit, hfixed] at h
    cases h
  · intro _ h
    simp only [State.next, hrung] at h
    exact absurd h hnonempty
  · simp only [State.next, hrung]
    exact inv.toggled.rung
  · intro h
    simp only [State.next, hinit, hfixed] at h
    cases h
  · intro _ p hp
    simp only [State.next, hrung] at hp
    exact hrefill p hp

/-- The refilled table is launched. -/
theorem lazy_ring {child : Chunk} {plan : Transfer.Plan} (inv : Inv x s)
    (hl : s.channel.lazy = .commit child (some plan)) (hlaunch : t.launch = s.channel.launch)
    (cover : ∃ k n, Transfer.Cover x k n t)
    (hinit : t.desc.lazyWorkInitialized = s.channel.desc.lazyWorkInitialized)
    (hidle : t.lazy = .idle) (hrung : t.rung = s.channel.rung ++ [child])
    (hnew : t.desc.chunks = [child]) (hstarted : t.xferStarted = true) :
    Inv x (s.next (.lazy env) t) := by
  obtain ⟨hfixed, hrunning, hholding, q, hq⟩ := inv.refilling (by rw [hl]; exact fun h => by cases h)
  obtain ⟨hwrote, hring⟩ := inv.unlaunched hholding
  have hcb : child.cb = !q.cb := (inv.toggled.refill hfixed q hq).commit child plan hl
  refine ⟨cover, fun _ => hstarted, ?_, ?_, ?_, ?_, ?_, ?_, ?_, ?_, ?_⟩
  · simp [State.next, hwrote]
  · intro c h
    simp only [State.next, hlaunch] at h
    exact absurd h (hring c)
  · simp [State.next, hidle, hl]
  · intro c p h
    simp only [State.next, hidle] at h
    cases h
  · intro h
    simp only [State.next, hinit, hfixed] at h
    cases h
  · simp [State.next, hrung]
  · simp only [State.next, hrung]
    exact inv.toggled.rung.ring hq hcb
  · intro h
    simp only [State.next, hinit, hfixed] at h
    cases h
  · intro _ p hp
    simp only [State.next, hrung, List.getLast?_append, List.getLast?_singleton, Option.some_or,
      Option.some.injEq] at hp
    subst hp
    refine ⟨fun c hc => ?_, ?_, ?_, ?_⟩
    · simp only [State.next, hnew, List.head?_cons, Option.some.injEq] at hc
      rw [hc]
    all_goals
      simp only [State.next, hidle]
      intros
      contradiction

/-- The worker gives up, with its list as it is. -/
theorem Inv.lazy_ends (inv : Inv x s) (hl : s.channel.lazy ≠ .idle) {d : Transfer.Desc} {err : Bool}
    (cover : ∃ k n, Transfer.Cover x k n {s.channel with desc := d, hwErr := err, lazy := .idle})
    (hinit : d.lazyWorkInitialized = s.channel.desc.lazyWorkInitialized)
    (hchunks : d.chunks = s.channel.desc.chunks) :
    Inv x (s.next (.lazy env) {s.channel with desc := d, hwErr := err, lazy := .idle}) := by
  refine inv.lazy_moved cover hl rfl hinit (Ne.symm hl) rfl (fun _ _ h => by cases h) fun p hp => ?_
  have refills := inv.toggled.refill (inv.refilling hl).1 p hp
  refine ⟨?_, fun _ h => (by cases h), fun _ _ h => (by cases h), fun _ _ h => (by cases h)⟩
  simp only [hchunks]
  exact refills.active

/-- The refilled table is copied, or its copy has failed. -/
theorem lazy_prepare {child : Chunk} {plan : Transfer.Plan} (inv : Inv x s)
    (cover : ∃ k n, Transfer.Cover x k n t) (henabled : enabled s (.lazy env) = true)
    (hl : s.channel.lazy = .prepare child plan)
    (h : Transfer.lazyStep x env s.channel = some t) : Inv x (s.next (.lazy env) t) := by
  have hne : s.channel.lazy ≠ .idle := by rw [hl]; exact fun h => by cases h
  simp only [Transfer.lazyStep, hl, Option.some.injEq] at h
  subst h
  refine inv.lazy_moved cover hne rfl rfl (by rw [hl]; exact fun h => by cases h) rfl ?_
    fun p hp => ?_
  · -- the copy succeeded, so the worker had written its table
    intro c q hc
    simp only [Transfer.Refill.commit.injEq] at hc
    have hret : env.ret = .ok := by
      by_contra hret
      rw [if_neg hret] at hc
      cases hc.2
    simp only [enabled, hl, hret, ne_eq, not_true_eq_false, decide_false, Bool.or_false] at henabled
    obtain ⟨d, q', hd, hbuf⟩ := inv.lazyWrote henabled
    rw [hl] at hd
    cases hd
    simp only [State.next, Device.after, copies, hl, henabled, if_true, Option.isSome_some, ret,
      hret, hbuf]
    rw [hc.1]
  · have refills := inv.toggled.refill (inv.refilling hne).1 p hp
    refine ⟨refills.active, fun _ h => (by cases h), fun _ _ h => (by cases h), fun c q hc => ?_⟩
    simp only [Transfer.Refill.commit.injEq] at hc
    rw [← hc.1]
    exact refills.prepare child plan hl

theorem lazy_inv (inv : Inv x s) (cover : ∃ k n, Transfer.Cover x k n t)
    (henabled : enabled s (.lazy env) = true) (h : Transfer.lazyStep x env s.channel = some t) :
    Inv x (s.next (.lazy env) t) := by
  by_cases hne : s.channel.lazy = .idle
  · simp [Transfer.lazyStep, hne] at h
  have refills := fun p hp => inv.toggled.refill (inv.refilling hne).1 p hp
  obtain ⟨k, n, before⟩ := inv.cover
  cases Transfer.lazyStep_cases h with
  | waited ret hl =>
    refine inv.lazy_moved cover hne rfl rfl (by rw [hl]; exact fun h => by cases h) rfl
      (fun _ _ h => by cases h) fun p hp => ?_
    exact ⟨(refills p hp).active, fun _ h => (by cases h), fun _ _ h => (by cases h),
      fun _ _ h => (by cases h)⟩
  | unclaimed | gaveUp | dropped | failed => exact inv.lazy_ends hne cover rfl rfl
  | claimed ret child rest hl hchunks =>
    refine inv.lazy_moved cover hne rfl rfl (by rw [hl]; exact fun h => by cases h) rfl
      (fun _ _ h => by cases h) fun p hp => ?_
    have hcb := (refills p hp).active child (by rw [hchunks]; rfl)
    have hrest : rest = [] := by
      have hsingle := before.base.single
      rw [hchunks] at hsingle
      simpa using hsingle
    exact ⟨by simp [hrest], fun c hc => by cases hc; exact hcb, fun _ _ h => (by cases h),
      fun _ _ h => (by cases h)⟩
  | unfilled child c hl =>
    refine inv.lazy_moved cover hne rfl rfl (by rw [hl]; exact fun h => by cases h) rfl
      (fun _ _ h => by cases h) fun p hp => ?_
    exact ⟨(refills p hp).active, fun _ h => (by cases h), fun _ _ h => (by cases h),
      fun _ _ h => (by cases h)⟩
  | filled child c plan hl hprep =>
    refine inv.lazy_moved cover hne rfl rfl (by rw [hl]; exact fun h => by cases h) rfl
      (fun _ _ h => by cases h) fun p hp => ?_
    have hcb := lazyRefillChunkPrepare_cb hprep
    refine ⟨(refills p hp).active, fun _ h => (by cases h), fun d q hd => ?_,
      fun _ _ h => (by cases h)⟩
    cases hd
    rw [hcb, ← (refills p hp).fill child hl]
    rfl
  | prepared child plan hl => exact lazy_prepare inv cover henabled hl h
  | refilled child plan hl hgo =>
    have hchunks : s.channel.desc.chunks = [] := by
      have place := (before.fixed (inv.refilling hne).1).place
      simp only [Transfer.RefillAt, hl] at place
      exact place.1
    exact lazy_ring inv hl rfl cover rfl rfl rfl (by simp [Transfer.ring, hchunks]) rfl

end Lazy

/-! ### The shadow worker -/

section Shadow
variable {x : Xfer} {s : State} {t : Transfer.State} {env : Env}

/-- While the shadow worker runs there is no refill, and the first table was launched. -/
theorem Inv.shadowing (inv : Inv x s) (hs : s.channel.shadow ≠ .idle) :
    s.channel.desc.lazyWorkInitialized = false ∧ s.channel.lazy = .idle ∧
      s.channel.launch.holding = false ∧ ∃ p, s.channel.rung.getLast? = some p := by
  obtain ⟨k, n, cover⟩ := inv.cover
  have hinit : s.channel.desc.lazyWorkInitialized = false :=
    Bool.eq_false_iff.mpr fun h => hs (cover.fixed h).idle.2.1
  have hrung := (cover.shadowed hinit).launched (.inr hs)
  refine ⟨hinit, (cover.shadowed hinit).lazy.1, ?_, ?_⟩
  · exact Bool.eq_false_iff.mpr fun h => hrung (inv.staged h).1
  · exact Option.ne_none_iff_exists'.mp (mt List.getLast?_eq_none_iff.mp hrung)

/-- The place of the worker in the invariant of the transfer. -/
theorem Inv.place (inv : Inv x s) (hs : s.channel.shadow ≠ .idle) :
    ∃ n, Transfer.ShadowAt x n s.channel ∧ Transfer.Shadowed x n s.channel := by
  obtain ⟨k, n, cover⟩ := inv.cover
  have sh := cover.shadowed (inv.shadowing hs).1
  exact ⟨n, sh.place, sh⟩

/-- The shadow worker goes on without a doorbell. -/
theorem Inv.shadow_moved (inv : Inv x s) (cover : ∃ k n, Transfer.Cover x k n t)
    (hs : s.channel.shadow ≠ .idle) (hlaunch : t.launch = s.channel.launch)
    (hlazy : t.lazy = s.channel.lazy) (hrung : t.rung = s.channel.rung)
    (hinit : t.desc.lazyWorkInitialized = s.channel.desc.lazyWorkInitialized)
    (hstarted : s.device.running = true → t.xferStarted = true)
    (hcb : ∀ c, t.desc.shadowChunk = some c →
      ∃ c', s.channel.desc.shadowChunk = some c' ∧ c.cb = c'.cb)
    (hplace : Buffered t (Device.after s (.channel (.shadow env)) t)) :
    Inv x (s.next (.shadow env) t) := by
  obtain ⟨hmode, hidle, hholding, q, hq⟩ := inv.shadowing hs
  obtain ⟨hwrote, hring⟩ := inv.unlaunched hholding
  have hnonempty : s.channel.rung ≠ [] := fun h => by simp [h] at hq
  refine ⟨cover, ?_, ?_, ?_, ?_, ?_, fun _ => hplace, ?_, ?_, ?_, ?_⟩
  · intro h
    simp only [State.next, Device.after, hrung, ne_eq, not_true_eq_false, decide_false,
      Bool.or_false] at h
    exact hstarted h
  · simp [State.next, hwrote]
  · intro child h
    simp only [State.next, hlaunch] at h
    exact absurd h (hring child)
  · simp [State.next, inv.unrefilled hidle]
  · intro child plan h
    simp only [State.next, hlazy, hidle] at h
    cases h
  · intro _ h
    simp only [State.next, hrung] at h
    exact absurd h hnonempty
  · simp only [State.next, hrung]
    exact inv.toggled.rung
  · intro _ c p hc hp
    obtain ⟨c', hc', hsame⟩ := hcb c hc
    rw [hsame]
    refine inv.toggled.shadow hmode c' p hc' ?_
    simp only [State.next, lastTable, hrung, hq, Option.some_or] at hp ⊢
    exact hp
  · intro h
    simp only [State.next, hinit, hmode] at h
    cases h

/-- The access of the shadow worker that is next builds its table or copies it. -/
def writesTable : Transfer.Shadow → Bool
  | .prebuild _ | .precopy _ _ => true
  | _ => false

theorem quiet_of_writesTable (env : Env) (h : writesTable s.channel.shadow = false) :
    copies s (.channel (.shadow env)) = none ∧ prebuilds s (.channel (.shadow env)) = none := by
  revert h
  simp only [copies, prebuilds]
  cases s.channel.shadow with
  | prebuild c => exact fun h => by cases h
  | precopy c next => exact fun h => by cases h
  | _ => exact fun _ => ⟨rfl, rfl⟩

theorem Inv.shadow_quiet (inv : Inv x s) (cover : ∃ k n, Transfer.Cover x k n t)
    (hs : s.channel.shadow ≠ .idle) (hwrites : writesTable s.channel.shadow = false)
    (hlaunch : t.launch = s.channel.launch) (hlazy : t.lazy = s.channel.lazy)
    (hrung : t.rung = s.channel.rung)
    (hinit : t.desc.lazyWorkInitialized = s.channel.desc.lazyWorkInitialized)
    (hstarted : s.device.running = true → t.xferStarted = true)
    (hcb : ∀ c, t.desc.shadowChunk = some c →
      ∃ c', s.channel.desc.shadowChunk = some c' ∧ c.cb = c'.cb)
    (hplace : Buffered t s.device) : Inv x (s.next (.shadow env) t) := by
  refine inv.shadow_moved cover hs hlaunch hlazy hrung hinit hstarted hcb ?_
  obtain ⟨hcopies, hprebuilds⟩ := quiet_of_writesTable env hwrites
  rw [Device.after_quiet hcopies hprebuilds hrung]
  exact hplace

/-- The built table is launched, and the next build asked for or not. -/
theorem shadow_ring {c : Chunk} {next : Option Chunk} (inv : Inv x s)
    (cover : ∃ k n, Transfer.Cover x k n t) (hs : s.channel.shadow = .launch c next)
    (hlaunch : t.launch = s.channel.launch) (hlazy : t.lazy = s.channel.lazy)
    (hrung : t.rung = s.channel.rung ++ [c])
    (hinit : t.desc.lazyWorkInitialized = s.channel.desc.lazyWorkInitialized)
    (hstarted : t.xferStarted = true)
    (hcb : ∀ u, t.desc.shadowChunk = some u → u.cb = !c.cb)
    (hplace : Buffered t (Device.after s (.channel (.shadow env)) t)) :
    Inv x (s.next (.shadow env) t) := by
  have hne : s.channel.shadow ≠ .idle := by rw [hs]; exact fun h => by cases h
  obtain ⟨hmode, hidle, hholding, q, hq⟩ := inv.shadowing hne
  obtain ⟨hwrote, hring⟩ := inv.unlaunched hholding
  have hbit : c.cb = !q.cb := by
    obtain ⟨n, place, -⟩ := inv.place hne
    simp only [Transfer.ShadowAt, hs] at place
    refine inv.toggled.shadow hmode c q place.2.1.chunk ?_
    simp only [lastTable, hq, Option.some_or]
  refine ⟨cover, fun _ => hstarted, ?_, ?_, ?_, ?_, fun _ => hplace, ?_, ?_, ?_, ?_⟩
  · simp [State.next, hwrote]
  · intro child h
    simp only [State.next, hlaunch] at h
    exact absurd h (hring child)
  · simp [State.next, inv.unrefilled hidle]
  · intro child plan h
    simp only [State.next, hlazy, hidle] at h
    cases h
  · simp [State.next, hrung]
  · simp only [State.next, hrung]
    exact inv.toggled.rung.ring hq hbit
  · intro _ u p hu hp
    simp only [State.next, lastTable, hrung, List.getLast?_append, List.getLast?_singleton,
      Option.some_or, Option.some.injEq] at hp
    rw [← hp]
    exact hcb u hu
  · intro h
    simp only [State.next, hinit, hmode] at h
    cases h

/-- A build leaves the change bit, and one that fails the chunk. -/
theorem shadowFillChunk_cb {supply : Supply} {d d' : Transfer.Desc} {c : Chunk} {r : Option Chunk}
    (h : Transfer.shadowFillChunk x supply d c = (d', r)) :
    d'.shadowChunk = d.shadowChunk ∧ d'.lazyWorkInitialized = d.lazyWorkInitialized ∧
      ∀ c', r = some c' → c'.cb = c.cb := by
  simp only [Transfer.shadowFillChunk] at h
  split at h
  · cases h
    exact ⟨rfl, rfl, fun _ h => (by cases h)⟩
  · split at h
    · cases h
      refine ⟨rfl, rfl, fun c' hc' => ?_⟩
      cases hc'
      exact fillSgBursts_cb
    · cases h
      exact ⟨rfl, rfl, fun _ h => (by cases h)⟩

/-- The last section: the built table is in the device. -/
theorem shadow_launch {c : Chunk} {next : Option Chunk} (inv : Inv x s)
    (hs : s.channel.shadow = .launch c next)
    (cover : ∃ k n, Transfer.Cover x k n (Transfer.shadowLaunch env.yes c next s.channel)) :
    Inv x (s.next (.shadow env) (Transfer.shadowLaunch env.yes c next s.channel)) := by
  have hne : s.channel.shadow ≠ .idle := by rw [hs]; exact fun h => by cases h
  obtain ⟨n, place, sh⟩ := inv.place hne
  simp only [Transfer.ShadowAt, hs] at place
  have hgo : ¬(s.channel.desc.shadowState = .cancelled ∨ s.channel.aborted = true) := by
    rintro (h | h)
    · exact sh.live h
    · rw [place.1] at h
      cases h
  simp only [Transfer.shadowLaunch, if_neg hgo] at cover ⊢
  by_cases hyes : env.yes = true
  · simp only [hyes, not_true_eq_false, if_false] at cover ⊢
    cases hmore : s.channel.desc.shadowHasMore with
    | true =>
      have hmore' : (Transfer.swapChunks c s.channel.desc).shadowHasMore = true := hmore
      simp only [hmore', if_true] at cover ⊢
      cases next with
      | none => exact shadow_ring inv cover hs rfl rfl rfl rfl rfl (fun _ h => by cases h) trivial
      | some u =>
        refine shadow_ring inv cover hs rfl rfl rfl rfl rfl ?_ trivial
        intro v hv
        cases hv
        rfl
    | false =>
      have hmore' : (Transfer.swapChunks c s.channel.desc).shadowHasMore = false := hmore
      simp only [hmore', Bool.false_eq_true, if_false] at cover ⊢
      exact shadow_ring inv cover hs rfl rfl rfl rfl rfl (fun _ h => by cases h)
        (fun _ h => by cases h)
  · rw [if_pos hyes] at cover ⊢
    exact inv.shadow_moved cover hne rfl rfl rfl rfl inv.started (fun _ h => by cases h)
      (fun _ h => by cases h)

/-- The chunk is filled, and its change bit stays. -/
theorem shadow_fill {c : Chunk} (inv : Inv x s) (cover : ∃ k n, Transfer.Cover x k n t)
    (hs : s.channel.shadow = .fill c) (h : Transfer.shadowStep x env s.channel = some t) :
    Inv x (s.next (.shadow env) t) := by
  have hne : s.channel.shadow ≠ .idle := by rw [hs]; exact fun h => by cases h
  obtain ⟨n, place, sh⟩ := inv.place hne
  simp only [Transfer.ShadowAt, hs] at place
  have hchunk : s.channel.desc.shadowChunk = some c := place.2.1.chunk
  simp only [Transfer.shadowStep, hs] at h
  split at h
  · next d c' hfill =>
    cases h
    obtain ⟨-, hinit, hbit⟩ := shadowFillChunk_cb hfill
    refine inv.shadow_moved cover hne rfl rfl rfl hinit inv.started ?_ trivial
    intro u hu
    cases hu
    exact ⟨c, hchunk, hbit c' rfl⟩
  · next d hfill =>
    cases h
    obtain ⟨hsame, hinit, -⟩ := shadowFillChunk_cb hfill
    exact inv.shadow_moved cover hne rfl rfl rfl hinit inv.started
      (fun u hu => ⟨u, hsame ▸ hu, rfl⟩) trivial

/-- Whatever `shadow_state` says, the buffer has the table. -/
theorem shadow_turn {c : Chunk} {next : Option Chunk} (inv : Inv x s)
    (cover : ∃ k n, Transfer.Cover x k n t) (hs : s.channel.shadow = .turn c next)
    (h : Transfer.shadowStep x env s.channel = some t) : Inv x (s.next (.shadow env) t) := by
  have hne : s.channel.shadow ≠ .idle := by rw [hs]; exact fun h => by cases h
  obtain ⟨n, place, sh⟩ := inv.place hne
  have buffered := inv.shadow (inv.shadowing hne).1
  simp only [Buffered, hs] at buffered
  simp only [Transfer.ShadowAt, hs] at place
  have hchunk : s.channel.desc.shadowChunk = some c := place.2.1.chunk
  have given : ∀ u, s.channel.desc.shadowChunk = some u → u.head = true →
      s.device.descBuf = some u := by
    intro u hu _
    rw [hchunk] at hu
    cases hu
    exact buffered
  simp only [Transfer.shadowStep, hs] at h
  split at h <;>
    · cases h
      refine inv.shadow_quiet cover hne (by rw [hs]; rfl) rfl rfl rfl rfl inv.started
        (fun u hu => ⟨u, hu, rfl⟩) ?_
      first
        | exact buffered
        | exact given

theorem shadow_inv (inv : Inv x s) (cover : ∃ k n, Transfer.Cover x k n t)
    (henabled : enabled s (.shadow env) = true) (h : Transfer.shadowStep x env s.channel = some t) :
    Inv x (s.next (.shadow env) t) := by
  by_cases hne : s.channel.shadow = .idle
  · simp [Transfer.shadowStep, hne] at h
  obtain ⟨n, place, sh⟩ := inv.place hne
  have buffered := inv.shadow (inv.shadowing hne).1
  have hcb : ∀ c, s.channel.desc.shadowChunk = some c →
      ∃ c', s.channel.desc.shadowChunk = some c' ∧ c.cb = c'.cb := fun c hc => ⟨c, hc, rfl⟩
  cases hs : s.channel.shadow with
  | idle => exact absurd hs hne
  | launch c next =>
    simp only [Transfer.shadowStep, hs, Option.some.injEq] at h
    subst h
    exact shadow_launch inv hs cover
  | entry =>
    simp only [Buffered, hs] at buffered
    simp only [Transfer.shadowStep, hs] at h
    split at h
    · cases h
      exact inv.shadow_moved cover hne rfl rfl rfl rfl inv.started hcb trivial
    · next c hc =>
      split at h
      · next hready =>
        cases h
        exact inv.shadow_quiet cover hne (by rw [hs]; rfl) rfl rfl rfl rfl inv.started hcb
          (buffered c hc hready.2.1)
      · cases h
        exact inv.shadow_moved cover hne rfl rfl rfl rfl inv.started hcb trivial
  | fill c => exact shadow_fill inv cover hs h
  | prebuild c =>
    simp only [Transfer.shadowStep, hs, Option.some.injEq] at h
    subst h
    refine inv.shadow_moved cover hne rfl rfl rfl rfl inv.started hcb ?_
    by_cases hret : env.ret = .ok
    · simp only [Buffered, hret, if_true, Device.after, prebuilds, hs, Option.some_or]
    · simp only [Buffered, hret, if_false]
  | precopy c next =>
    simp only [Buffered, hs] at buffered
    simp only [Transfer.shadowStep, hs] at h
    split at h
    · next hret =>
      cases h
      refine inv.shadow_moved cover hne rfl rfl rfl rfl inv.started hcb ?_
      simp only [Buffered, Device.after, copies, hs, Option.isSome_some, if_true, ret, hret, buffered]
    · cases h
      exact inv.shadow_moved cover hne rfl rfl rfl rfl inv.started hcb trivial
  | prealloc c =>
    simp only [Buffered, hs] at buffered
    simp only [Transfer.shadowStep, hs, Option.some.injEq] at h
    subst h
    exact inv.shadow_quiet cover hne (by rw [hs]; rfl) rfl rfl rfl rfl inv.started hcb buffered
  | turn c next => exact shadow_turn inv cover hs h
  | readStarted c =>
    simp only [Buffered, hs] at buffered
    simp only [Transfer.shadowStep, hs, Option.some.injEq] at h
    subst h
    refine inv.shadow_quiet cover hne (by rw [hs]; rfl) rfl rfl rfl rfl inv.started hcb ?_
    cases s.channel.xferStarted <;> exact buffered
  | readStatus c =>
    simp only [Buffered, hs] at buffered
    simp only [enabled, hs, Bool.not_eq_true', Bool.and_eq_false_iff] at henabled
    simp only [Transfer.shadowStep, hs, Option.some.injEq] at h
    subst h
    refine inv.shadow_quiet cover hne (by rw [hs]; rfl) rfl rfl rfl rfl inv.started hcb ?_
    cases hyes : env.yes with
    | true => exact ⟨buffered, henabled.resolve_left (by simp [hyes])⟩
    | false => exact buffered
  | clearStarted c =>
    simp only [Buffered, hs] at buffered
    simp only [Transfer.shadowStep, hs, Option.some.injEq] at h
    subst h
    refine inv.shadow_quiet cover hne (by rw [hs]; rfl) rfl rfl rfl rfl ?_ hcb buffered.1
    intro h
    rw [buffered.2] at h
    cases h
  | handoff c =>
    simp only [Buffered, hs] at buffered
    simp only [Transfer.shadowStep, hs] at h
    split at h
    · split at h
      · cases h
        exact inv.shadow_quiet cover hne (by rw [hs]; rfl) rfl rfl rfl rfl inv.started hcb buffered
      · cases h
        exact inv.shadow_quiet cover hne (by rw [hs]; rfl) rfl rfl rfl rfl inv.started hcb buffered
    · cases h
      exact inv.shadow_quiet cover hne (by rw [hs]; rfl) rfl rfl rfl rfl inv.started hcb buffered
  | recheck c =>
    simp only [Buffered, hs] at buffered
    simp only [Transfer.ShadowAt, hs] at place
    have hchunk : s.channel.desc.shadowChunk = some c := place.2.1.chunk
    simp only [Transfer.shadowStep, hs] at h
    split at h
    · cases h
      exact inv.shadow_quiet cover hne (by rw [hs]; rfl) rfl rfl rfl rfl inv.started hcb buffered
    · cases h
      refine inv.shadow_quiet cover hne (by rw [hs]; rfl) rfl rfl rfl rfl inv.started hcb ?_
      intro u hu _
      rw [hchunk] at hu
      cases hu
      exact buffered
  | noChunk | clearLazy =>
    simp only [Transfer.ShadowAt, hs] at place
    simp only [Transfer.shadowStep, hs, Option.some.injEq] at h
    subst h
    refine inv.shadow_moved cover hne rfl rfl rfl rfl inv.started hcb ?_
    intro u hu
    first
      | cases place.1.symm.trans hu
      | cases place.1.1.symm.trans hu
  | failed | precopyFailed _ =>
    simp only [Transfer.shadowStep, hs, Option.some.injEq] at h
    subst h
    exact inv.shadow_moved cover hne rfl rfl rfl rfl inv.started (fun _ h => by cases h)
      (fun _ h => by cases h)
  | queueNext =>
    simp only [Transfer.ShadowAt, hs] at place
    obtain ⟨-, c, unbuilt, -⟩ := place
    simp only [Transfer.shadowStep, hs, Option.some.injEq] at h
    subst h
    refine inv.shadow_moved cover hne rfl rfl rfl rfl inv.started hcb ?_
    intro u hu hhead
    have hchunk : s.channel.desc.shadowChunk = some c := unbuilt.chunk
    cases hchunk.symm.trans hu
    rw [unbuilt.head] at hhead
    cases hhead
  | setAborted =>
    simp only [Transfer.shadowStep, hs, Option.some.injEq] at h
    subst h
    exact inv.shadow_moved cover hne rfl rfl rfl rfl inv.started hcb trivial

end Shadow

/-! ### Steps -/

section Step
variable {x : Xfer} {s : State}

theorem launchRun_inv (inv : Inv x s) (hidle : s.channel.launch = .idle)
    (cover : ∃ k n, Transfer.Cover x k n
      {s.channel with launchPending := false, launch := .entry}) :
    Inv x (s.next .launchRun {s.channel with launchPending := false, launch := .entry}) := by
  have hdevice : Device.after s (.channel .launchRun)
      {s.channel with launchPending := false, launch := .entry} = s.device :=
    Device.after_quiet rfl rfl rfl
  refine ⟨cover, ?_, ?_, ?_, ?_, ?_, ?_, inv.unbuilt, inv.toggled.frame rfl rfl rfl rfl (.inl rfl)⟩
  all_goals simp only [State.next, hdevice]
  · exact inv.started
  · simp [hidle]
  · exact fun _ h => by cases h
  · simpa using inv.lazyWrote
  · exact inv.lazyCommit
  · exact fun h => (inv.shadow h).frame rfl rfl

theorem lazyRun_inv (inv : Inv x s) (hidle : s.channel.lazy = .idle)
    (cover : ∃ k n, Transfer.Cover x k n {s.channel with lazyPending := false, lazy := .wait}) :
    Inv x (s.next .lazyRun {s.channel with lazyPending := false, lazy := .wait}) := by
  have before := inv.toggled
  have hdevice : Device.after s (.channel .lazyRun)
      {s.channel with lazyPending := false, lazy := .wait} = s.device :=
    Device.after_quiet rfl rfl rfl
  refine ⟨cover, ?_, ?_, ?_, ?_, ?_, ?_, inv.unbuilt, before.rung, before.shadow, ?_⟩
  all_goals simp only [State.next, hdevice]
  · exact inv.started
  · simpa using inv.launchWrote
  · exact inv.launchRing
  · simp [hidle]
  · exact fun _ _ h => by cases h
  · exact fun h => (inv.shadow h).frame rfl rfl
  · intro hi p hp
    exact ⟨(before.refill hi p hp).active, fun _ h => (by cases h), fun _ _ h => (by cases h),
      fun _ _ h => (by cases h)⟩

theorem shadowRun_inv (inv : Inv x s) (hidle : s.channel.shadow = .idle)
    (cover : ∃ k n, Transfer.Cover x k n
      {s.channel with shadowPending := false, shadow := .entry}) :
    Inv x (s.next .shadowRun {s.channel with shadowPending := false, shadow := .entry}) := by
  have hdevice : Device.after s (.channel .shadowRun)
      {s.channel with shadowPending := false, shadow := .entry} = s.device :=
    Device.after_quiet rfl rfl rfl
  refine ⟨cover, ?_, ?_, ?_, ?_, ?_, ?_, inv.unbuilt, inv.toggled.frame rfl rfl rfl rfl (.inl rfl)⟩
  all_goals simp only [State.next, hdevice]
  · exact inv.started
  · simpa using inv.launchWrote
  · exact inv.launchRing
  · simpa using inv.lazyWrote
  · exact inv.lazyCommit
  · intro h
    have := inv.shadow h
    simp only [Buffered, hidle] at this ⊢
    exact this

/-- The launch worker writes the first table: the shadow worker has built nothing yet. -/
theorem launchWrite_inv {child : Chunk} (inv : Inv x s) (hl : s.channel.launch = .prepare child) :
    Inv x {s with device := {s.device with descBuf := some child}, launchWrote := true} := by
  obtain ⟨hrung, hstarted, hshadow, hlazy⟩ := inv.staged (by rw [hl]; rfl)
  refine {inv with
    launchWrote := fun _ => ⟨child, hl, rfl⟩, lazyWrote := fun hw => ?_, shadow := fun hinit => ?_}
  · cases (inv.unrefilled hlazy).symm.trans hw
  · simp only [Buffered, hshadow]
    intro c hc hhead
    rw [inv.unbuilt hinit hrung c hc] at hhead
    cases hhead

theorem lazyWrite_inv {child : Chunk} {plan : Transfer.Plan} (inv : Inv x s)
    (hl : s.channel.lazy = .prepare child plan) :
    Inv x {s with device := {s.device with descBuf := some child}, lazyWrote := true} := by
  obtain ⟨hfixed, -, hholding, -⟩ := inv.refilling (by rw [hl]; exact fun h => by cases h)
  refine {inv with
    launchWrote := fun hw => ?_, lazyWrote := fun _ => ⟨child, plan, hl, rfl⟩
    shadow := fun h => ?_}
  · rw [(inv.unlaunched hholding).1] at hw
    cases hw
  · rw [hfixed] at h
    cases h

theorem finish_inv (inv : Inv x s) :
    Inv x {s with device := {s.device with running := false}} := by
  refine {inv with started := fun h => (by cases h), shadow := fun h => ?_}
  have := inv.shadow h
  cases hs : s.channel.shadow with
  | clearStarted c =>
    simp only [Buffered, hs] at this ⊢
    exact ⟨this.1, trivial⟩
  | noChunk | fill _ | prebuild _ | failed | precopyFailed _ | queueNext | setAborted | clearLazy =>
    simp only [Buffered, hs]
  | _ =>
    simp only [Buffered, hs] at this ⊢
    exact this

theorem channel_inv {l : Transfer.Label} {t : Transfer.State} (inv : Inv x s)
    (henabled : enabled s l = true) (h : Transfer.step x s.channel l = some t) :
    Inv x (s.next l t) := by
  have cover := Transfer.step_cover s.channel l t inv.cover h
  cases l with
  | done =>
    cases h
    obtain ⟨k, n, before⟩ := inv.cover
    obtain ⟨hrung, hlaunch, hlazy, -⟩ := doneInterrupt_frame s.channel
      before.base.single (fun h => (before.base.started h).2)
    simp only [State.next, Device.after_quiet (l := .channel .done) rfl rfl hrung, hlaunch, hlazy,
      decide_true, Bool.and_true]
    exact done_inv inv cover (by simpa [enabled] using henabled)
  | launchRun =>
    simp only [Transfer.step] at h
    split at h
    · next hready =>
      cases h
      exact launchRun_inv inv hready.2 cover
    · cases h
  | lazyRun =>
    simp only [Transfer.step] at h
    split at h
    · next hready =>
      cases h
      exact lazyRun_inv inv hready.2 cover
    · cases h
  | shadowRun =>
    simp only [Transfer.step] at h
    split at h
    · next hready =>
      cases h
      exact shadowRun_inv inv hready.2 cover
    · cases h
  | launch env => exact launch_inv inv cover henabled h
  | lazy env => exact lazy_inv inv cover henabled h
  | shadow env => exact shadow_inv inv cover henabled h

theorem step_inv (s : State) (l : Label) (t : State) (inv : Inv x s) (h : step x s l = some t) :
    Inv x t := by
  cases l with
  | channel l =>
    simp only [step] at h
    split at h
    · next henabled =>
      obtain ⟨u, hu, rfl⟩ := Option.map_eq_some_iff.mp h
      exact channel_inv inv henabled hu
    · cases h
  | launchWrite =>
    simp only [step] at h
    split at h
    · split at h
      · cases h
      · cases h
        exact launchWrite_inv inv ‹_›
    · cases h
  | lazyWrite =>
    simp only [step] at h
    split at h
    · split at h
      · cases h
      · cases h
        exact lazyWrite_inv inv ‹_›
    · cases h
  | finish =>
    simp only [step] at h
    split at h
    · cases h
      exact finish_inv inv
    · cases h

end Step

/-! ### What the invariant gives -/

section Isolates
variable {x : Xfer} {s t : State} {l : Label}

/-- The worker that copies is the only one at work, and has written its table. -/
theorem Inv.copies (inv : Inv x s) {c : Chunk} (h : copies s l = some c) :
    s.device.running = false ∧ s.device.descBuf = some c := by
  have stopped : s.channel.xferStarted = false → s.device.running = false := fun hs =>
    Bool.eq_false_iff.mpr fun hr => by
      have := inv.started hr
      rw [hs] at this
      cases this
  unfold Table.copies at h
  split at h
  · split at h
    · next child hl =>
      split at h
      · next hwrote =>
        cases h
        obtain ⟨d, hd, hbuf⟩ := inv.launchWrote hwrote
        rw [hl] at hd
        cases hd
        exact ⟨stopped (inv.staged (by rw [hl]; rfl)).2.1, hbuf⟩
      · cases h
    · cases h
  · split at h
    · next child plan hl =>
      split at h
      · next hwrote =>
        cases h
        obtain ⟨d, q, hd, hbuf⟩ := inv.lazyWrote hwrote
        rw [hl] at hd
        cases hd
        exact ⟨(inv.refilling (by rw [hl]; exact fun h => by cases h)).2.1, hbuf⟩
      · cases h
    · cases h
  · split at h
    · next next hs =>
      cases h
      have hne : s.channel.shadow ≠ .idle := by rw [hs]; exact fun h => by cases h
      obtain ⟨n, place, sh⟩ := inv.place hne
      have buffered := inv.shadow (inv.shadowing hne).1
      simp only [Transfer.ShadowAt, hs] at place
      simp only [Buffered, hs] at buffered
      exact ⟨stopped (sh.handed place.2.2.1).1, buffered⟩
    · cases h
  · cases h

/-- The launch worker rings for the table it has prepared. -/
theorem launchStep_rung {s t : Transfer.State} {env : Env} {c : Chunk}
    (h : Transfer.launchStep env s = some t) (hrung : t.rung = s.rung ++ [c]) :
    s.launch = .ring c .ok := by
  cases Transfer.launchStep_cases h with
  | rung child pending hl =>
    have hchild : child = c := by simpa [Transfer.ring] using hrung
    rw [hl, hchild]
  | nothing | dropped | taken | prepared | unprepared | refused | stale => simp at hrung

/-- The lazy worker rings for the table it has refilled. -/
theorem lazyStep_rung {s t : Transfer.State} {env : Env} {c : Chunk}
    (h : Transfer.lazyStep x env s = some t) (hrung : t.rung = s.rung ++ [c]) :
    ∃ plan, s.lazy = .commit c (some plan) := by
  cases Transfer.lazyStep_cases h with
  | refilled child plan hl =>
    have hchild : child = c := by simpa [Transfer.ring] using hrung
    exact ⟨plan, by rw [hl, hchild]⟩
  | waited | unclaimed | claimed | unfilled | filled | prepared | dropped => simp at hrung
  | gaveUp | failed => simp [Transfer.lazyError] at hrung

/-- The shadow worker rings for the table it has copied. -/
theorem shadowStep_rung {s t : Transfer.State} {env : Env} {c : Chunk}
    (h : Transfer.shadowStep x env s = some t) (hrung : t.rung = s.rung ++ [c]) :
    ∃ next, s.shadow = .launch c next := by
  have same : ∀ {t : Transfer.State}, t.rung = s.rung → t.rung = s.rung ++ [c] → False := by
    intro t ht hrung
    rw [ht] at hrung
    simp at hrung
  cases hs : s.shadow with
  | launch u next =>
    simp only [Transfer.shadowStep, hs, Option.some.injEq] at h
    subst h
    have hu : u = c := by
      simp only [Transfer.shadowLaunch] at hrung
      split at hrung
      · exact (same rfl hrung).elim
      · split at hrung
        · exact (same rfl hrung).elim
        · repeat' split at hrung
          all_goals
            simp only [Transfer.ring, List.append_cancel_left_eq, List.cons.injEq, and_true] at hrung
            exact hrung
    exact ⟨next, by rw [hu]⟩
  | idle => simp [Transfer.shadowStep, hs] at h
  | _ =>
    simp only [Transfer.shadowStep, hs] at h
    repeat' split at h
    all_goals
      cases h
      exact (same rfl hrung).elim

/-- A table that is rung for is in the device. -/
theorem Inv.launched (inv : Inv x s) (h : step x s l = some t) {c : Chunk}
    (hrung : t.channel.rung = s.channel.rung ++ [c]) : s.device.llRegion = some c := by
  have same : t.channel.rung = s.channel.rung → False := fun hsame => by
    rw [hsame] at hrung
    simp at hrung
  cases l with
  | channel l =>
    simp only [step] at h
    split at h
    · obtain ⟨u, hu, rfl⟩ := Option.map_eq_some_iff.mp h
      cases l with
      | done =>
        cases hu
        obtain ⟨k, n, before⟩ := inv.cover
        exact (same (doneInterrupt_frame s.channel before.base.single
          (fun h => (before.base.started h).2)).1).elim
      | launchRun | lazyRun | shadowRun =>
        simp only [Transfer.step] at hu
        split at hu
        · cases hu
          exact (same rfl).elim
        · cases hu
      | launch env => exact inv.launchRing c (launchStep_rung hu hrung)
      | lazy env =>
        obtain ⟨plan, hl⟩ := lazyStep_rung hu hrung
        exact inv.lazyCommit c plan hl
      | shadow env =>
        obtain ⟨next, hs⟩ := shadowStep_rung hu hrung
        have buffered := inv.shadow (inv.shadowing (by rw [hs]; exact fun h => by cases h)).1
        simp only [Buffered, hs] at buffered
        exact buffered
    · cases h
  | launchWrite | lazyWrite =>
    simp only [step] at h
    split at h
    · split at h
      · cases h
      · cases h
        exact (same rfl).elim
    · cases h
  | finish =>
    simp only [step] at h
    split at h
    · cases h
      exact (same rfl).elim
    · cases h

end Isolates

/-! ### Runs -/

/-- The first table the shadow worker builds has the other change bit than the one that is
launched first. -/
theorem prepareLazy_cb {x : Xfer} {ok : Bool} {c u : Chunk} {cur : Cursor} {allocSz : Nat}
    (h : (Transfer.prepareLazy x ok c cur allocSz).shadowChunk = some u) :
    (Transfer.prepareLazy x ok c cur allocSz).chunks = [c] ∧ u.cb = !c.cb := by
  simp only [Transfer.prepareLazy] at h ⊢
  split at h
  · next hshadow =>
    rw [if_pos hshadow]
    simp only [Transfer.shadowPrepareBuild] at h ⊢
    split at h
    · next hbuild =>
      rw [if_pos hbuild]
      cases h
      exact ⟨rfl, rfl⟩
    · cases h
  · cases h

theorem prepareEnd_cb {x : Xfer} {ok : Bool} {c u : Chunk} {cur : Cursor} {allocSz : Nat}
    {d : Transfer.Desc} (h : Transfer.prepareEnd x ok c cur allocSz = some (some d))
    (hu : d.shadowChunk = some u) : ∃ c, d.chunks = [c] ∧ u.cb = !c.cb := by
  simp only [Transfer.prepareEnd] at h
  split at h
  · cases h
    cases hu
  · split at h
    · cases h
    · split at h
      · cases h
        exact ⟨c, prepareLazy_cb hu⟩
      · cases h

theorem deviceTransfer_cb {x : Xfer} {supplies : List Supply} {ok : Bool} {d : Transfer.Desc}
    {u : Chunk} (h : Transfer.deviceTransfer x supplies ok = some d)
    (hu : d.shadowChunk = some u) : ∃ c, d.chunks = [c] ∧ u.cb = !c.cb := by
  have loop : ∀ supplies c cur allocSz, Transfer.prepareLoop x ok supplies c cur allocSz = some d →
      ∃ c, d.chunks = [c] ∧ u.cb = !c.cb := by
    intro supplies
    induction supplies with
    | nil =>
      intro c cur allocSz h
      simp only [Transfer.prepareLoop, Option.join_eq_some_iff] at h
      exact prepareEnd_cb h hu
    | cons supply supplies ih =>
      intro c cur allocSz h
      simp only [Transfer.prepareLoop] at h
      split at h
      · next r hend =>
        rw [h] at hend
        exact prepareEnd_cb hend hu
      · split at h
        · exact ih _ _ _ h
        · cases h
  simp only [Transfer.deviceTransfer] at h
  split at h
  · cases h
  · exact loop _ _ _ _ h

theorem issue_inv {x : Xfer} {supplies : List Supply} {ok : Bool} {d : Transfer.Desc}
    {descBuf llRegion : Option Chunk} (hmax : 1 ≤ x.llMax)
    (h : Transfer.deviceTransfer x supplies ok = some d) : Inv x (issue d descBuf llRegion) := by
  obtain ⟨n, c, hfirst, hprep, hfilled⟩ := Transfer.deviceTransfer_prepared hmax h
  have cover := Transfer.issue_cover hfirst hfilled hprep
  have hchunks : d.chunks = [c] := by cases hprep <;> assumption
  have hunbuilt : d.lazyWorkInitialized = false → ∀ u, d.shadowChunk = some u → u.head = false := by
    intro hinit u hu
    cases hprep with
    | whole _ _ _ _ shadowChunk => cases shadowChunk.symm.trans hu
    | fixed _ _ _ _ lazyWork => cases lazyWork.symm.trans hinit
    | shadow _ _ _ _ _ _ _ _ cb shadowChunk =>
      cases shadowChunk.symm.trans hu
      rfl
  simp only [issue, Transfer.issue_staged hfirst hfilled hchunks] at cover ⊢
  refine ⟨⟨0, n, cover⟩, fun h => (by cases h), fun h => (by cases h), fun _ h => (by cases h),
    fun h => (by cases h), fun _ _ h => (by cases h), fun hinit => ?_, fun hinit _ => hunbuilt hinit,
    ?_, ?_, ?_⟩
  · intro u hu hhead
    rw [hunbuilt hinit u hu] at hhead
    cases hhead
  · exact List.isChain_nil
  · intro _ u p hu hp
    obtain ⟨c', hc', hcb⟩ := deviceTransfer_cb h hu
    simp only [lastTable, List.getLast?_nil, Option.none_or, hc', List.head?_cons,
      Option.some.injEq] at hp
    rw [← hp, hcb]
  · intro _ p hp
    cases hp

/-- **The table in the device is the one that runs.** In every run of a descriptor, whatever
was in the buffers before and whatever fails, a helper copy begins only while no data
transfer runs and copies the table written for its chunk; the doorbell rings for a chunk
whose table is in the device; and consecutive tables have opposite change bits. -/
theorem run_isolates {x : Xfer} {supplies : List Supply} {ok : Bool} {d : Transfer.Desc}
    {descBuf llRegion : Option Chunk} {ls : List Label} {s : State} (hmax : 1 ≤ x.llMax)
    (hprep : Transfer.deviceTransfer x supplies ok = some d)
    (h : Machine.run (step x) (issue d descBuf llRegion) ls = some s) :
    (∀ l t, step x s l = some t → Isolates s l t) ∧ Alternates s.channel.rung := by
  have inv := Machine.invariant (step x) step_inv (issue_inv hmax hprep) h
  refine ⟨fun l t ht => ⟨?_, ?_, ?_⟩, inv.toggled.rung⟩
  · exact fun c hc => (inv.copies hc).1
  · exact fun c hc => (inv.copies hc).2
  · exact fun c hc => inv.launched ht hc

/-- Three entries that do not touch, one for each table. -/
def sharedXfer : Xfer :=
  ⟨.write, 1, 4096, true, 0, true, [⟨0x1000, 16⟩, ⟨0x3000, 16⟩, ⟨0x5000, 16⟩], 3, 0x100⟩

/-- The shadow worker writes a table while the one before it runs, and comes to its copy
after Done. -/
def sharedBuild : List Label :=
  .channel .shadowRun :: List.replicate 3 (.channel (.shadow Transfer.good)) ++
    [.finish, .channel .done] ++ List.replicate 2 (.channel (.shadow Transfer.good))

/-- The first table is launched, the second one built, copied and launched, and the third
one built. -/
def sharedRun : List Label :=
  [.channel .launchRun, .channel (.launch Transfer.good), .launchWrite,
    .channel (.launch Transfer.good), .channel (.launch Transfer.good)] ++
  sharedBuild ++ List.replicate 3 (.channel (.shadow Transfer.good)) ++ sharedBuild

theorem sharedRun_isolates :
    ∃ d s, Transfer.deviceTransfer sharedXfer (List.replicate 3 ⟨true, 1, 0⟩) true = some d ∧
      Machine.run (step sharedXfer) (issue d none none) sharedRun = some s ∧
      ((copies s (.channel (.shadow Transfer.good))).isSome, s.channel.rung.length) = (true, 2) ∧
      (∀ l t, step sharedXfer s l = some t → Isolates s l t) ∧ Alternates s.channel.rung := by
  have hend : (Transfer.deviceTransfer sharedXfer (List.replicate 3 ⟨true, 1, 0⟩) true).bind
      (fun d => (Machine.run (step sharedXfer) (issue d none none) sharedRun).map fun s =>
        ((copies s (.channel (.shadow Transfer.good))).isSome, s.channel.rung.length)) =
      some (true, 2) := by
    decide
  obtain ⟨d, hprep, hmap⟩ := Option.bind_eq_some_iff.mp hend
  obtain ⟨s, hrun, hcopies⟩ := Option.map_eq_some_iff.mp hmap
  exact ⟨d, s, hprep, hrun, hcopies, run_isolates (by decide) hprep hrun⟩

end DxNpuDriver.Edma.Table
