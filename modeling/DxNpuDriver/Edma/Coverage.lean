import DxNpuDriver.Edma.Transfer

/-! The tables rung for cover the list in order, and a completed cookie covers all of it.

The position in the list is kept in three places, and moved by different workers: in
`cur`, which the lazy worker commits at its doorbell, in `shadowNext`, which the shadow
worker moves when it builds a table, and in the plan of a refill that is under way. The
invariant says of each of them how it lies to `k`, the number of entries rung for:
`Base` what the doorbell, the flags and the cookie owe each other, `Fixed` and
`Shadowed` where the next table comes from in either lazy mode.

No failure is silent: every branch that gives up the rest of the list sets `hwErr` or
`aborted` in the step that clears `lazyMode` or before it (`Base.lazyOff`). -/
namespace DxNpuDriver.Edma.Transfer
open Fill

/-- The cursor after `k` entries of the request. -/
def Xfer.at (x : Xfer) (k : Nat) : Cursor := cursorAt x.sgl x.len x.addr k

/-- Host and device addresses of the bytes of the first `k` entries. -/
def Xfer.bytes (x : Xfer) (k : Nat) : List (Nat × Nat) := bytesTo x.sgl x.addr k

/-- What the rung tables copy, in order. -/
def rungBytes (x : Xfer) (s : State) : List (Nat × Nat) :=
  s.rung.flatMap fun c => Fill.bytes x.dir c.bursts

/-- The table covers the entries from `n` to `m`. -/
structure Holds (x : Xfer) (n m : Nat) (c : Chunk) : Prop where
  lt : n < m
  le_len : m ≤ x.len
  le_length : m ≤ x.sgl.length
  bytes : x.bytes m = x.bytes n ++ Fill.bytes x.dir c.bursts

@[simp] theorem Xfer.bytes_zero (x : Xfer) : x.bytes 0 = [] := by
  simp [Xfer.bytes, bytesTo, sgBytes, Extent.layout]

@[simp] theorem Xfer.at_remaining (x : Xfer) (k : Nat) : (x.at k).remaining = x.len - k := rfl

/-- A fill of an empty table from position `n` that takes entries holds them. -/
theorem holds_of_fill {x : Xfer} {batchMax n m : Nat} {supply : Supply} {c : Chunk} {accum : Nat}
    (hempty : c.bursts = [])
    (h : (fillSgBursts x.dir x.llMax batchMax supply c (x.at n) accum).ret = .ok (m + 1)) :
    Holds x n (n + (m + 1)) (fillSgBursts x.dir x.llMax batchMax supply c (x.at n) accum).chunk ∧
    (fillSgBursts x.dir x.llMax batchMax supply c (x.at n) accum).cur = x.at (n + (m + 1)) := by
  obtain ⟨hcur, hlen, hlength, new, hbytes, hto⟩ := fillSgBursts_cursorAt h
  refine ⟨⟨by omega, by omega, by omega, ?_⟩, hcur⟩
  rw [Xfer.bytes, hto]
  simp only [Xfer.at, hbytes, hempty, bytes_nil, List.nil_append, Xfer.bytes]

/-! ### What a prepared descriptor is -/

/-- The first table, with the first `n` entries. -/
structure First (x : Xfer) (n : Nat) (c : Chunk) : Prop where
  le_len : n ≤ x.len
  le_length : n ≤ x.sgl.length
  bytes : Fill.bytes x.dir c.bursts = x.bytes n
  head : c.head = true
  counted : Counted c
  filled : n = 0 ∨ 0 < c.burstsAlloc

/-- The three kinds of descriptor that `dw_edma_device_transfer` makes, with their first
table `c`. -/
inductive Prepared (x : Xfer) (n : Nat) (c : Chunk) (d : Desc) : Prop where
  | whole (h : n = x.len) (chunks : d.chunks = [c]) (lazyMode : d.lazyMode = false)
      (shadowState : d.shadowState = .idle) (shadowChunk : d.shadowChunk = none)
      (lazyWork : d.lazyWorkInitialized = false) (spare : d.shadowNextChunk = none)
  | fixed (h : n < x.len) (chunks : d.chunks = [c]) (cur : d.cur = x.at n)
      (shadowState : d.shadowState = .idle) (lazyWork : d.lazyWorkInitialized = true)
      (lazyMode : d.lazyMode = true)
  | shadow (h : n < x.len) (chunks : d.chunks = [c]) (cur : d.cur = x.at n)
      (shadowState : d.shadowState = .building) (lazyWork : d.lazyWorkInitialized = false)
      (lazyMode : d.lazyMode = true) (next : d.shadowNext = x.at n)
      (more : d.shadowHasMore = true) (cb : Bool)
      (shadowChunk : d.shadowChunk = some {allocUnlinkedChunk x with cb := cb})
      (spare : d.shadowNextChunk = none)

theorem prepareLazy_prepared {x : Xfer} {ok : Bool} {c : Chunk} {n allocSz : Nat}
    (h : n < x.len) : Prepared x n c (prepareLazy x ok c (x.at n) allocSz) := by
  simp only [prepareLazy]
  split
  · simp only [shadowPrepareBuild]
    split
    · exact .shadow h rfl rfl rfl rfl rfl rfl rfl _ rfl rfl
    · exact .fixed h rfl rfl rfl rfl rfl
  · exact .fixed h rfl rfl rfl rfl rfl

theorem prepareEnd_prepared {x : Xfer} {ok : Bool} {c : Chunk} {n allocSz : Nat} {d : Desc}
    (hmax : 0 < x.llMax) (hlen : 0 < x.len) (hfirst : First x n c)
    (h : prepareEnd x ok c (x.at n) allocSz = some (some d)) :
    Prepared x n c d ∧ 0 < c.burstsAlloc := by
  have hle := hfirst.le_len
  have hremaining := x.at_remaining n
  simp only [prepareEnd] at h
  split at h
  · cases h
    have hn : n = x.len := by omega
    exact ⟨.whole hn rfl rfl rfl rfl rfl rfl, hfirst.filled.resolve_left (by omega)⟩
  · split at h
    · cases h
    · split at h
      · cases h
        exact ⟨prepareLazy_prepared (by omega), by omega⟩
      · cases h

/-- A pass of the loop leaves the table with the entries that the cursor has passed. -/
theorem first_of_fill {x : Xfer} {n m : Nat} {supply : Supply} {c : Chunk} {accum : Nat}
    (hfirst : First x n c)
    (h : (fillSgBursts x.dir x.llMax prepBurstBatchSize supply c (x.at n) accum).ret =
      .ok (m + 1)) :
    First x (n + (m + 1))
      (fillSgBursts x.dir x.llMax prepBurstBatchSize supply c (x.at n) accum).chunk := by
  obtain ⟨_, hlen, hlength, new, hbytes, hto⟩ := fillSgBursts_cursorAt h
  have hexact := fillSgBursts_ok h
  obtain ⟨hcounted, hpos⟩ := hexact.counted hfirst.counted
  have hn := hfirst.le_len
  have hn' := hfirst.le_length
  refine ⟨by omega, by omega, ?_, by rw [hexact.head, hfirst.head], hcounted, .inr (hpos (by omega))⟩
  rw [Xfer.bytes, hto, Xfer.at, hbytes, hfirst.bytes, Xfer.bytes]

theorem prepareLoop_prepared {x : Xfer} {ok : Bool} {supplies : List Supply} {c : Chunk}
    {n allocSz : Nat} {d : Desc} (hmax : 0 < x.llMax) (hlen : 0 < x.len) (hfirst : First x n c)
    (h : prepareLoop x ok supplies c (x.at n) allocSz = some d) :
    ∃ m c', First x m c' ∧ Prepared x m c' d ∧ 0 < c'.burstsAlloc := by
  induction supplies generalizing c n allocSz with
  | nil =>
    simp only [prepareLoop, Option.join_eq_some_iff] at h
    exact ⟨n, c, hfirst, prepareEnd_prepared hmax hlen hfirst h⟩
  | cons supply supplies ih =>
    simp only [prepareLoop] at h
    split at h
    · rename_i r hend
      rw [h] at hend
      exact ⟨n, c, hfirst, prepareEnd_prepared hmax hlen hfirst hend⟩
    · split at h
      · rename_i m hret
        have hcur : (fillSgBursts x.dir x.llMax prepBurstBatchSize supply c (x.at n) allocSz).cur =
            x.at (n + (m + 1)) := (fillSgBursts_cursorAt hret).1
        rw [hcur] at h
        exact ih (first_of_fill hfirst hret) h
      · cases h

theorem deviceTransfer_prepared {x : Xfer} {supplies : List Supply} {ok : Bool} {d : Desc}
    (hmax : 0 < x.llMax) (h : deviceTransfer x supplies ok = some d) :
    ∃ n c, First x n c ∧ Prepared x n c d ∧ 0 < c.burstsAlloc := by
  simp only [deviceTransfer] at h
  split at h
  · cases h
  · have hfirst : First x 0 (allocChunk x) :=
      ⟨Nat.zero_le _, Nat.zero_le _, by simp [allocChunk], rfl, rfl, .inl rfl⟩
    exact prepareLoop_prepared hmax (by omega) hfirst h

/-! ### The invariant -/

/-- The launch worker has taken a table. -/
def Launch.holding : Launch → Bool
  | .prepare _ | .ring _ _ => true
  | .idle | .entry => false

/-- A table is staged for the launch worker, or in its hands. -/
def State.staging (s : State) : Bool := s.pendingLaunch.isSome || s.launch.holding

/-- What `Base` looks at. -/
def State.ledger (s : State) :=
  (s.rung, s.desc.chunks, s.desc.cur.remaining, s.desc.lazyMode, s.hwErr, s.aborted, s.completed,
    s.xferStarted, s.pendingLaunch, s.launch)

/-- The first `k` entries are rung for. The next table starts at `n`; before the first
doorbell that is where the first table ends. -/
structure Base (x : Xfer) (k n : Nat) (s : State) : Prop where
  rung : rungBytes x s = x.bytes k
  le_len : n ≤ x.len
  le_length : n ≤ x.sgl.length
  first : s.rung = [] →
    k = 0 ∧ ∃ c, s.desc.chunks = [c] ∧ Fill.bytes x.dir c.bursts = x.bytes n
  later : s.rung ≠ [] → k = n
  staging : s.staging = true → s.rung = []
  slot : s.launch.holding = true → s.pendingLaunch = none
  single : s.desc.chunks.length ≤ 1
  started : s.xferStarted = true → s.rung ≠ [] ∧ s.desc.chunks ≠ []
  lazyOn : s.desc.lazyMode = true → 0 < s.desc.cur.remaining
  lazyOff : s.desc.lazyMode = false → s.hwErr = true ∨ s.aborted = true ∨ n = x.len
  completed : s.completed = true → s.hwErr = true ∨ s.aborted = true ∨ k = x.len

/-- `shadow_chunk`, `shadow_next_*` and `shadow_has_more`. -/
structure Pipe where
  chunk : Option Chunk
  next : Cursor
  more : Bool

def Desc.pipe (d : Desc) : Pipe := ⟨d.shadowChunk, d.shadowNext, d.shadowHasMore⟩

/-- `shadow_chunk` is allocated and empty, and the build starts at `n`. -/
structure Unbuilt (x : Xfer) (n : Nat) (p : Pipe) (c : Chunk) : Prop where
  chunk : p.chunk = some c
  head : c.head = false
  bursts : c.bursts = []
  next : p.next = x.at n
  more : p.more = true
  lt : n < x.len

/-- `shadow_chunk` holds the entries from `n`, and the next build starts where it ends. -/
structure Built (x : Xfer) (n : Nat) (p : Pipe) (c : Chunk) : Prop where
  chunk : p.chunk = some c
  head : c.head = true
  filled : c.burstsAlloc ≠ 0
  holds : ∃ m, Holds x n m c ∧ p.next = x.at m ∧ p.more = decide (m < x.len)

/-- No table is built or will be. -/
def Gone (d : Desc) : Prop := d.shadowChunk = none ∧ d.shadowState = .idle

/-- The build has not reached its `switch`. Only a Done makes the running worker pending. -/
def InBuild (s : State) : Prop :=
  (s.desc.shadowState = .building ∧ s.shadowPending = false) ∨ s.desc.shadowState = .isrPending

/-- The table is announced, and a Done may have asked for it. -/
def Announced (s : State) : Prop :=
  (s.desc.shadowState = .ready ∧ s.shadowPending = false) ∨ s.desc.shadowState = .isrPending

/-- The build is asked for but has not begun. -/
def Asked (s : State) : Prop :=
  s.desc.shadowState = .building ∨ s.desc.shadowState = .isrPending

/-- A chunk allocated for the build after the next is empty. -/
def Spare (next : Option Chunk) : Prop := ∀ c, next = some c → c.head = false ∧ c.bursts = []

/-- What holds at each place of the shadow worker. -/
def ShadowAt (x : Xfer) (n : Nat) (s : State) : Prop :=
  match s.shadow with
  | .idle => Gone s.desc ∨ (s.aborted = false ∧ ∃ c,
      (Unbuilt x n s.desc.pipe c ∧ Asked s) ∨ (Built x n s.desc.pipe c ∧ Announced s))
  | .entry => Gone s.desc ∨ (s.aborted = false ∧ ∃ c,
      (Unbuilt x n s.desc.pipe c ∧ InBuild s) ∨ (Built x n s.desc.pipe c ∧ s.desc.shadowState = .isrPending))
  | .noChunk | .setAborted => Gone s.desc
  | .fill c => s.aborted = false ∧ Unbuilt x n s.desc.pipe c ∧ InBuild s
  | .failed => s.aborted = false ∧ InBuild s
  | .prebuild c | .prealloc c => s.aborted = false ∧ Built x n s.desc.pipe c ∧ InBuild s
  | .turn c next => s.aborted = false ∧ Built x n s.desc.pipe c ∧ InBuild s ∧ Spare next
  | .readStarted c | .readStatus c | .clearStarted c | .recheck c =>
    s.aborted = false ∧ Built x n s.desc.pipe c ∧ Announced s
  | .handoff c => s.aborted = false ∧ Built x n s.desc.pipe c ∧ Announced s ∧ s.xferStarted = false
  | .precopy c next | .launch c next =>
    s.aborted = false ∧ Built x n s.desc.pipe c ∧ s.desc.shadowState = .isrPending ∧ Spare next
  | .precopyFailed cancelled => cancelled = false
  | .queueNext => s.aborted = false ∧ ∃ c, Unbuilt x n s.desc.pipe c ∧ Asked s
  | .clearLazy => Gone s.desc ∧ s.aborted = true

/-- The descriptor has no refill work: it is whole, or the shadow worker serves it. -/
structure Shadowed (x : Xfer) (n : Nat) (s : State) : Prop where
  lazy : s.lazy = .idle ∧ s.lazyPending = false
  launched : s.shadowPending = true ∨ s.shadow ≠ .idle → s.rung ≠ []
  live : s.desc.shadowState ≠ .cancelled
  handed : s.desc.shadowState = .isrPending → s.xferStarted = false ∧ s.rung ≠ []
  spare : Spare s.desc.shadowNextChunk
  place : ShadowAt x n s

/-- What holds at each place of the lazy worker. -/
def RefillAt (x : Xfer) (n : Nat) (s : State) : Prop :=
  match s.lazy with
  | .idle | .wait | .claim _ => True
  | .fill _ | .commit _ none => s.desc.chunks = []
  | .prepare c plan | .commit c (some plan) =>
    s.desc.chunks = [] ∧ ∃ m, Holds x n m c ∧ plan.cur = x.at m

/-- The lazy worker refills the one table. -/
structure Fixed (x : Xfer) (n : Nat) (s : State) : Prop where
  cur : s.desc.cur = x.at n
  idle : s.desc.shadowState = .idle ∧ s.shadow = .idle ∧ s.shadowPending = false
  running : s.lazyPending = true ∨ s.lazy ≠ .idle → s.xferStarted = false ∧ s.rung ≠ []
  once : s.lazy ≠ .idle → s.lazyPending = false
  place : RefillAt x n s

structure Cover (x : Xfer) (k n : Nat) (s : State) : Prop where
  base : Base x k n s
  fixed : s.desc.lazyWorkInitialized = true → Fixed x n s
  shadowed : s.desc.lazyWorkInitialized = false → Shadowed x n s

theorem Base.same {x : Xfer} {k n : Nat} {s t : State} (h : Base x k n s)
    (e : t.ledger = s.ledger) : Base x k n t := by
  simp only [State.ledger, Prod.mk.injEq] at e
  obtain ⟨hrung, hchunks, hremaining, hlazy, herr, habort, hdone, hstarted, hslot, hlaunch⟩ := e
  constructor
  case rung => rw [rungBytes, hrung]; exact h.rung
  case le_len => exact h.le_len
  case le_length => exact h.le_length
  case first => rw [hrung, hchunks]; exact h.first
  case later => rw [hrung]; exact h.later
  case staging => rw [hrung, State.staging, hslot, hlaunch]; exact h.staging
  case slot => rw [hslot, hlaunch]; exact h.slot
  case single => rw [hchunks]; exact h.single
  case started => rw [hrung, hchunks, hstarted]; exact h.started
  case lazyOn => rw [hlazy, hremaining]; exact h.lazyOn
  case lazyOff => rw [hlazy, herr, habort]; exact h.lazyOff
  case completed => rw [hdone, herr, habort]; exact h.completed

/-- With `hw_err` set, giving up the rest of the list is no longer silent. -/
theorem Base.failed {x : Xfer} {k n : Nat} {s : State} (h : Base x k n s) (lazyMode : Bool)
    (hlazy : lazyMode = true → s.desc.lazyMode = true) :
    Base x k n {s with hwErr := true, desc := {s.desc with lazyMode := lazyMode}} :=
  {h with
    lazyOn := fun hon => h.lazyOn (hlazy hon)
    lazyOff := fun _ => .inl rfl
    completed := fun _ => .inl rfl}

/-- Once a doorbell was rung nothing is staged. -/
theorem Base.unstaged {x : Xfer} {k n : Nat} {s : State} (h : Base x k n s) (hrung : s.rung ≠ []) :
    s.staging = false :=
  Bool.eq_false_iff.mpr fun hst => hrung (h.staging hst)

/-! ### Done -/

theorem ShadowAt.stopped {x : Xfer} {n : Nat} {s : State} (h : ShadowAt x n s) :
    ShadowAt x n {s with xferStarted := false} := by
  cases hs : s.shadow with
  | handoff c =>
    simp only [ShadowAt, hs] at h ⊢
    exact ⟨h.1, h.2.1, h.2.2.1, trivial⟩
  | _ =>
    simp only [ShadowAt, hs] at h ⊢
    exact h

/-- A Done that finds the build asked for or its table announced makes the worker pending. -/
theorem ShadowAt.handed {x : Xfer} {n xferSz : Nat} {s : State} (h : ShadowAt x n s)
    (hstate : s.desc.shadowState ≠ .idle) :
    ShadowAt x n {s with
      xferStarted := false, shadowPending := true,
      desc := {s.desc with xferSz := xferSz, shadowState := .isrPending}} := by
  cases hs : s.shadow with
  | idle =>
    simp only [ShadowAt, hs] at h ⊢
    rcases h with gone | ⟨hab, c, ⟨unbuilt, _⟩ | ⟨built, _⟩⟩
    · exact absurd gone.2 hstate
    · exact .inr ⟨hab, c, .inl ⟨unbuilt, .inr rfl⟩⟩
    · exact .inr ⟨hab, c, .inr ⟨built, .inr rfl⟩⟩
  | entry =>
    simp only [ShadowAt, hs] at h ⊢
    rcases h with gone | ⟨hab, c, ⟨unbuilt, _⟩ | ⟨built, _⟩⟩
    · exact absurd gone.2 hstate
    · exact .inr ⟨hab, c, .inl ⟨unbuilt, .inr rfl⟩⟩
    · exact .inr ⟨hab, c, .inr ⟨built, trivial⟩⟩
  | noChunk | setAborted =>
    simp only [ShadowAt, hs] at h
    exact absurd h.2 hstate
  | clearLazy =>
    simp only [ShadowAt, hs] at h
    exact absurd h.1.2 hstate
  | failed =>
    simp only [ShadowAt, hs] at h ⊢
    exact ⟨h.1, .inr rfl⟩
  | fill c | prebuild c | prealloc c | readStarted c | readStatus c | clearStarted c | recheck c =>
    simp only [ShadowAt, hs] at h ⊢
    exact ⟨h.1, h.2.1, .inr rfl⟩
  | turn c next =>
    simp only [ShadowAt, hs] at h ⊢
    exact ⟨h.1, h.2.1, .inr rfl, h.2.2.2⟩
  | handoff c =>
    simp only [ShadowAt, hs] at h ⊢
    exact ⟨h.1, h.2.1, .inr rfl, trivial⟩
  | precopy c next | launch c next =>
    simp only [ShadowAt, hs] at h ⊢
    exact ⟨h.1, h.2.1, trivial, h.2.2.2⟩
  | precopyFailed cancelled =>
    simp only [ShadowAt, hs] at h ⊢
    exact h
  | queueNext =>
    simp only [ShadowAt, hs] at h ⊢
    obtain ⟨hab, c, unbuilt, _⟩ := h
    exact ⟨hab, c, unbuilt, .inr rfl⟩

/-- The cookie is completed once nothing of the list is left, or what is left is given up
with a flag. -/
theorem Cover.finish {x : Xfer} {k n : Nat} {s : State} (inv : Cover x k n s)
    (hstarted : s.xferStarted = false) (hrung : s.rung ≠ [])
    (hoff : s.hwErr = true ∨ s.aborted = true ∨ n = x.len) :
    Cover x k n (cookieComplete {s with desc := {s.desc with chunks := []}}) where
  base := {inv.base with
    first := fun hnil => absurd hnil hrung
    single := Nat.zero_le _
    started := fun h => absurd h (by simp [cookieComplete, hstarted])
    completed := fun _ => by rw [inv.base.later hrung]; exact hoff}
  fixed h := {inv.fixed h with
    place := by
      have := (inv.fixed h).place
      cases hl : s.lazy with
      | commit c plan => cases plan <;> simp_all [RefillAt, cookieComplete]
      | _ => simp_all [RefillAt, cookieComplete]}
  shadowed h := {inv.shadowed h with}

/-- A Done that counts is taken, and the bytes of its table are added. -/
def credit (xferSz : Nat) (s : State) : State :=
  {s with xferStarted := false, desc := {s.desc with xferSz := xferSz}}

/-- What a Done that counts does to a descriptor with one table, which leaves `s`. -/
inductive Outcome (s : State) : State → Prop where
  | finished (h : s.desc.lazyMode = false ∨ s.desc.cur.remaining = 0) :
    Outcome s (cookieComplete {s with desc := {s.desc with chunks := []}})
  | handed (hlazy : s.desc.lazyMode = true)
      (h : s.desc.shadowState = .ready ∨ s.desc.shadowState = .building) :
    Outcome s {s with desc := {s.desc with shadowState := .isrPending}, shadowPending := true}
  | refill (hlazy : s.desc.lazyMode = true) (h : s.desc.shadowState = .idle)
      (hinit : s.desc.lazyWorkInitialized = true) :
    Outcome s {s with desc := {s.desc with lazyRefillState := .pending}, lazyPending := true}
  | stuck (hlazy : s.desc.lazyMode = true) (h : s.desc.shadowState = .idle)
      (hinit : s.desc.lazyWorkInitialized = false) :
    Outcome s (lazyError {s with desc := {s.desc with lazyRefillState := .pending}})
  | unexpected (hlazy : s.desc.lazyMode = true)
      (h : s.desc.shadowState = .isrPending ∨ s.desc.shadowState = .cancelled) :
    Outcome s (cookieComplete {s with
      aborted := true, unexpected := true, desc := {s.desc with lazyMode := false, chunks := []}})

/-- The rest of a Done of the only table, after the lazy path has looked at it. -/
def settle : State × Bool → State
  | (s, true) => s
  | (s, false) => cookieComplete {s with desc := {s.desc with chunks := []}}

theorem deferLazyDone_outcome (s : State) : Outcome s (settle (deferLazyDone s)) := by
  simp only [deferLazyDone]
  split
  · exact .finished (.inl (Bool.eq_false_iff.mpr ‹_›))
  · have hlazy : s.desc.lazyMode = true := not_not.mp ‹_›
    split
    · exact .handed hlazy (.inl ‹_›)
    · exact .handed hlazy (.inr ‹_›)
    · rename_i hstate
      split
      · split
        · exact .refill hlazy hstate ‹_›
        · exact .stuck hlazy hstate (Bool.eq_false_iff.mpr ‹_›)
      · exact .finished (.inr (by omega))
    · exact .unexpected hlazy (.inl ‹_›)
    · exact .unexpected hlazy (.inr ‹_›)

/-- A Done that counts settles the only table. -/
theorem doneInterrupt_outcome {s : State} {child : Chunk} (hstarted : s.xferStarted = true)
    (hcompleted : s.completed = false) (hchunks : s.desc.chunks = [child]) :
    Outcome (credit ((s.desc.xferSz + child.llRegionSz) % 2 ^ 32) s) (doneInterrupt s) := by
  have hdone : doneInterrupt s =
      settle (deferLazyDone (credit ((s.desc.xferSz + child.llRegionSz) % 2 ^ 32) s)) := by
    simp [doneInterrupt, hstarted, hcompleted, hchunks, credit, finishDone]
    rfl
  rw [hdone]
  exact deferLazyDone_outcome _

/-- Everything a Done can do to a descriptor with at most one table: it does not count, it
comes after the cookie, or it settles the table. -/
theorem doneInterrupt_cases {s : State} (hsingle : s.desc.chunks.length ≤ 1)
    (hne : s.xferStarted = true → s.desc.chunks ≠ []) :
    doneInterrupt s = s ∨ s.xferStarted = true ∧
      ∃ xferSz, doneInterrupt s = credit xferSz s ∨ Outcome (credit xferSz s) (doneInterrupt s) := by
  cases hstarted : s.xferStarted with
  | false => exact .inl (by simp [doneInterrupt, hstarted])
  | true =>
    refine .inr ⟨rfl, ?_⟩
    cases hcompleted : s.completed with
    | true =>
      refine ⟨s.desc.xferSz, .inl ?_⟩
      simp [doneInterrupt, hstarted, hcompleted, credit]
    | false =>
      obtain ⟨child, hchunks⟩ : ∃ child, s.desc.chunks = [child] :=
        List.length_eq_one_iff.mp
          (Nat.le_antisymm hsingle (List.length_pos_iff.mpr (hne hstarted)))
      exact ⟨_, .inr (doneInterrupt_outcome hstarted hcompleted hchunks)⟩

theorem Cover.credit {x : Xfer} {k n xferSz : Nat} {s : State} (inv : Cover x k n s) :
    Cover x k n (credit xferSz s) where
  base := {inv.base with started := (by rintro ⟨⟩)}
  fixed h := {inv.fixed h with running := fun hr => ⟨rfl, ((inv.fixed h).running hr).2⟩}
  shadowed h := {inv.shadowed h with
    handed := fun hs => ⟨rfl, ((inv.shadowed h).handed hs).2⟩
    place := (inv.shadowed h).place.stopped}

theorem doneInterrupt_cover {x : Xfer} {k n : Nat} {s : State} (inv : Cover x k n s) :
    Cover x k n (doneInterrupt s) := by
  rcases doneInterrupt_cases inv.base.single (fun h => (inv.base.started h).2) with
    hsame | ⟨hstarted, xferSz, hsame | hout⟩
  · rw [hsame]
    exact inv
  · rw [hsame]
    exact inv.credit
  · have hrung := (inv.base.started hstarted).1
    have credited : Cover x k n (credit xferSz s) := inv.credit
    generalize doneInterrupt s = t at hout ⊢
    cases hout with
    | finished h =>
      refine credited.finish rfl hrung (inv.base.lazyOff ?_)
      rcases h with hoff | hzero
      · exact hoff
      · exact Bool.eq_false_iff.mpr fun hon => Nat.ne_of_gt (inv.base.lazyOn hon) hzero
    | handed hlazy h =>
      refine ⟨credited.base.same rfl, fun hf => ?_, fun hsh => ?_⟩
      · have := (inv.fixed hf).idle.1
        simp_all [credit]
      · have sh := inv.shadowed hsh
        have hidle : s.desc.shadowState ≠ .idle := by
          rcases h with h | h <;> exact fun hi => by simp [credit, hi] at h
        exact ⟨sh.lazy, fun _ => hrung, (by rintro ⟨⟩), fun _ => ⟨rfl, hrung⟩, sh.spare,
          sh.place.handed hidle⟩
    | refill hlazy h hinit =>
      refine ⟨credited.base.same rfl, fun hf => ?_, fun hsh => ?_⟩
      · refine {credited.fixed hf with running := fun _ => ⟨rfl, hrung⟩, once := fun hne => ?_}
        have hstopped := ((inv.fixed hf).running (.inr hne)).1
        cases hstarted.symm.trans hstopped
      · exact absurd hsh (by simp_all [credit])
    | stuck hlazy h hinit =>
      refine ⟨(credited.base.failed false (by rintro ⟨⟩)).same rfl, fun hf => ?_, fun hsh => ?_⟩
      · exact absurd hf (by simp_all [credit, lazyError])
      · exact {credited.shadowed hsh with}
    | unexpected hlazy h =>
      exfalso
      cases hinit : s.desc.lazyWorkInitialized with
      | true =>
        have := (inv.fixed hinit).idle.1
        simp_all [credit]
      | false =>
        have sh := inv.shadowed hinit
        rcases h with h | h
        · simp_all [(sh.handed h).1]
        · exact sh.live h

/-! ### The doorbell and the launch worker -/

/-- The doorbell rings for a table that goes on where the rung ones end. -/
theorem Base.ring {x : Xfer} {k n m : Nat} {s t : State} {c : Chunk} (h : Base x k n s)
    (hbytes : x.bytes m = x.bytes k ++ Fill.bytes x.dir c.bursts)
    (hlen : m ≤ x.len) (hlength : m ≤ x.sgl.length)
    (hrung : t.rung = s.rung ++ [c]) (hchunks : t.desc.chunks = [c])
    (hstaging : t.staging = false)
    (hon : t.desc.lazyMode = true → 0 < t.desc.cur.remaining)
    (hoff : t.desc.lazyMode = false → t.hwErr = true ∨ t.aborted = true ∨ m = x.len)
    (hcompleted : t.completed = true → t.hwErr = true ∨ t.aborted = true ∨ m = x.len) :
    Base x m m t where
  rung := by
    have := h.rung
    simp only [rungBytes] at this
    simp only [rungBytes, hrung, List.flatMap_append, this, List.flatMap_singleton, hbytes]
  le_len := hlen
  le_length := hlength
  first hnil := by simp [hrung] at hnil
  later _ := rfl
  staging hst := by simp [hstaging] at hst
  slot hst := by simp_all [State.staging]
  single := by simp [hchunks]
  started _ := by simp [hrung, hchunks]
  lazyOn := hon
  lazyOff := hoff
  completed := hcompleted

/-- The launch worker goes on without a doorbell. -/
theorem Cover.launch_moved {x : Xfer} {k n : Nat} {s : State} (inv : Cover x k n s)
    (p : Option Chunk) (l : Launch) (err : Bool) (herr : s.hwErr = true → err = true)
    (hstaging : (p.isSome || l.holding) = true → s.rung = [])
    (hslot : l.holding = true → p = none) :
    Cover x k n {s with pendingLaunch := p, launch := l, hwErr := err} where
  base := {inv.base with
    staging := hstaging
    slot := hslot
    lazyOff := fun hoff => (inv.base.lazyOff hoff).imp_left herr
    completed := fun hc => (inv.base.completed hc).imp_left herr}
  fixed h := {inv.fixed h with}
  shadowed h := {inv.shadowed h with}

/-- The first doorbell. No other worker has run yet. -/
theorem Cover.launched {x : Xfer} {k n : Nat} {s : State} {child : Chunk} (inv : Cover x k n s)
    (pending : Bool) (hrung : s.rung = []) (hchild : s.desc.chunks.head? = some child)
    (hcompleted : s.completed = false) (hslot : s.pendingLaunch = none)
    (hpending : pending = true → s.desc.shadowState = .building) :
    Cover x n n (ring child {s with launch := .idle, shadowPending := pending}) := by
  obtain ⟨hk, c, hchunks, hbytes⟩ := inv.base.first hrung
  obtain rfl : c = child := by simpa [hchunks] using hchild
  constructor
  case base =>
    refine inv.base.ring ?_ inv.base.le_len inv.base.le_length rfl hchunks ?_ inv.base.lazyOn
      inv.base.lazyOff ?_
    · rw [hk, Xfer.bytes_zero, List.nil_append, hbytes]
    · simp [State.staging, Transfer.ring, hslot, Launch.holding]
    · simp [Transfer.ring, hcompleted]
  case fixed =>
    intro h
    have fixed := inv.fixed h
    have hnot : ¬(s.lazyPending = true ∨ s.lazy ≠ .idle) := fun hr => (fixed.running hr).2 hrung
    have hstate := fixed.idle.1
    refine {fixed with idle := ?_, running := fun hr => absurd hr hnot}
    refine ⟨hstate, fixed.idle.2.1, ?_⟩
    exact Bool.eq_false_iff.mpr fun hp => by cases hstate.symm.trans (hpending hp)
  case shadowed =>
    intro h
    have sh := inv.shadowed h
    have hidle : s.shadow = .idle := by
      by_contra hne
      exact sh.launched (.inr hne) hrung
    have hne : s.rung ++ [c] ≠ [] := by simp
    refine ⟨sh.lazy, fun _ => hne, sh.live, fun hs => absurd hrung (sh.handed hs).2, sh.spare, ?_⟩
    have place := sh.place
    simp only [ShadowAt, Transfer.ring, hidle] at place ⊢
    rcases place with gone | ⟨hab, c, ⟨unbuilt, asked⟩ | ⟨built, announced⟩⟩
    · exact .inl gone
    · exact .inr ⟨hab, c, .inl ⟨unbuilt, asked⟩⟩
    · refine .inr ⟨hab, c, .inr ⟨built, ?_⟩⟩
      rcases announced with ⟨hready, _⟩ | hpend
      · exact .inl ⟨hready, Bool.eq_false_iff.mpr fun hp => by cases hready.symm.trans (hpending hp)⟩
      · exact absurd hrung (sh.handed hpend).2

/-- Before the first doorbell nobody has queued the shadow worker. -/
theorem Cover.unqueued {x : Xfer} {k n : Nat} {s : State} (inv : Cover x k n s)
    (hrung : s.rung = []) : s.shadowPending = false := by
  cases hinit : s.desc.lazyWorkInitialized with
  | true => exact (inv.fixed hinit).idle.2.2
  | false =>
    refine Bool.eq_false_iff.mpr fun hp => ?_
    exact (inv.shadowed hinit).launched (.inl hp) hrung

/-- Everything a step of the launch worker can do. It rings for the table that it has
prepared, if that is still the first one. -/
inductive Launching (env : Env) (s : State) : State → Prop where
  | nothing (hl : s.launch = .entry) (hnone : s.pendingLaunch = none) :
    Launching env s {s with launch := .idle}
  | dropped (child : Chunk) (hl : s.launch = .entry) (hpend : s.pendingLaunch = some child) :
    Launching env s {s with pendingLaunch := none, launch := .idle}
  | taken (child : Chunk) (hl : s.launch = .entry) (hpend : s.pendingLaunch = some child) :
    Launching env s {s with pendingLaunch := none, launch := .prepare child}
  | prepared (child : Chunk) (hl : s.launch = .prepare child) :
    Launching env s {s with
      hwErr := s.hwErr || signalled env.ret, launch := .ring child env.ret}
  | unprepared (child : Chunk) (ret : Ret) (hl : s.launch = .ring child ret) (hret : ret ≠ .ok) :
    Launching env s {s with launch := .idle, hwErr := s.hwErr || decide (ret = .err .EBUSY)}
  | refused (child : Chunk) (hl : s.launch = .ring child .ok) :
    Launching env s {s with launch := .idle}
  | stale (child : Chunk) (hl : s.launch = .ring child .ok)
      (h : s.completed = true ∨ s.desc.chunks.head? ≠ some child) :
    Launching env s {s with launch := .idle, hwErr := true}
  | rung (child : Chunk) (pending : Bool) (hl : s.launch = .ring child .ok)
      (hcompleted : s.completed = false) (hchild : s.desc.chunks.head? = some child)
      (hpending : pending = s.shadowPending ∨
        pending = true ∧ s.desc.lazyMode = true ∧ s.desc.shadowState = .building) :
    Launching env s (ring child {s with launch := .idle, shadowPending := pending})

theorem launchStep_cases {s t : State} {env : Env} (h : launchStep env s = some t) :
    Launching env s t := by
  cases hl : s.launch with
  | idle => simp [launchStep, hl] at h
  | entry =>
    simp only [launchStep, hl] at h
    split at h
    · cases h
      exact .nothing hl ‹_›
    · split at h
      · cases h
        exact .dropped _ hl ‹_›
      · cases h
        exact .taken _ hl ‹_›
  | prepare child =>
    simp only [launchStep, hl] at h
    cases h
    exact .prepared child hl
  | ring child ret =>
    simp only [launchStep, hl] at h
    split at h
    · cases h
      exact .unprepared child ret hl ‹_›
    · have hret : ret = .ok := not_not.mp ‹_›
      subst hret
      split at h
      · cases h
        exact .refused child hl
      · split at h
        · cases h
          exact .stale child hl ‹_›
        · rename_i hactive
          simp only [not_or, Bool.not_eq_true, ne_eq, not_not] at hactive
          split at h
          · rename_i hbuild
            cases h
            exact .rung child true hl hactive.1 hactive.2 (.inr ⟨rfl, hbuild⟩)
          · cases h
            exact .rung child s.shadowPending hl hactive.1 hactive.2 (.inl rfl)

theorem launchStep_cover {x : Xfer} {k n : Nat} {s t : State} {env : Env} (inv : Cover x k n s)
    (h : launchStep env s = some t) : ∃ k n, Cover x k n t := by
  have holds {child : Chunk} {ret : Ret} (hl : s.launch = .ring child ret) :
      s.pendingLaunch = none ∧ s.rung = [] :=
    ⟨inv.base.slot (by rw [hl]; rfl), inv.base.staging (by simp [State.staging, hl, Launch.holding])⟩
  have hidle {child : Chunk} {ret : Ret} (hl : s.launch = .ring child ret) (err : Bool)
      (herr : s.hwErr = true → err = true) : Cover x k n {s with launch := .idle, hwErr := err} :=
    inv.launch_moved s.pendingLaunch .idle err herr (fun _ => (holds hl).2) (by rintro ⟨⟩)
  cases launchStep_cases h with
  | nothing hl hnone =>
    have hstaging : (s.pendingLaunch.isSome || Launch.holding .idle) = true → s.rung = [] := by
      simp [hnone, Launch.holding]
    exact ⟨k, n, inv.launch_moved s.pendingLaunch .idle s.hwErr id hstaging (by rintro ⟨⟩)⟩
  | dropped child hl hpend =>
    have hrung := inv.base.staging (by simp [State.staging, hpend])
    exact ⟨k, n, inv.launch_moved none .idle s.hwErr id (fun _ => hrung) (by rintro ⟨⟩)⟩
  | taken child hl hpend =>
    have hrung := inv.base.staging (by simp [State.staging, hpend])
    exact ⟨k, n, inv.launch_moved none (.prepare child) s.hwErr id (fun _ => hrung) fun _ => rfl⟩
  | prepared child hl =>
    have hslot := inv.base.slot (by rw [hl]; rfl)
    have hrung := inv.base.staging (by simp [State.staging, hl, Launch.holding])
    exact ⟨k, n, inv.launch_moved s.pendingLaunch (.ring child env.ret) _ (by simp_all)
      (fun _ => hrung) fun _ => hslot⟩
  | unprepared child ret hl hret => exact ⟨k, n, hidle hl _ (by simp_all)⟩
  | refused child hl => exact ⟨k, n, hidle hl s.hwErr id⟩
  | stale child hl _ => exact ⟨k, n, hidle hl true fun _ => rfl⟩
  | rung child pending hl hcompleted hchild hpending =>
    obtain ⟨hslot, hrung⟩ := holds hl
    have hunqueued := inv.unqueued hrung
    refine ⟨n, n, inv.launched pending hrung hchild hcompleted hslot fun hp => ?_⟩
    rcases hpending with hsame | ⟨-, -, hbuilding⟩
    · rw [hsame, hunqueued] at hp
      cases hp
    · exact hbuilding

/-! ### The lazy worker -/

/-- A refill plans the entries from where the cursor stands, and puts them into the table. -/
theorem lazyRefillChunkPrepare_holds {x : Xfer} {n : Nat} {supply : Supply} {d : Desc}
    {c child : Chunk} {plan : Plan} (hcur : d.cur = x.at n)
    (h : lazyRefillChunkPrepare x supply d child = (c, some plan)) :
    ∃ m, Holds x n m c ∧ plan.cur = x.at m := by
  simp only [lazyRefillChunkPrepare] at h
  split at h
  · cases h
  · split at h
    · cases h
    · split at h
      · rename_i m hret
        cases h
        rw [hcur] at hret ⊢
        exact ⟨_, holds_of_fill rfl hret⟩
      · cases h

/-- The lazy worker is at `l`, with nothing else changed but `lazy_refill_state` and what a
failure sets. -/
theorem Cover.lazy_moved {x : Xfer} {k n : Nat} {s : State} (inv : Cover x k n s)
    (hinit : s.desc.lazyWorkInitialized = true) (hrun : s.lazy ≠ .idle) (l : Refill) (r : RefillState)
    (err : Bool) (herr : s.hwErr = true → err = true)
    (hplace : RefillAt x n {s with lazy := l}) :
    Cover x k n {s with lazy := l, hwErr := err, desc := {s.desc with lazyRefillState := r}} where
  base := {inv.base with
    lazyOff := fun hoff => (inv.base.lazyOff hoff).imp_left herr
    completed := fun hc => (inv.base.completed hc).imp_left herr}
  fixed h := {inv.fixed h with
    running := fun _ => (inv.fixed h).running (.inr hrun)
    once := fun _ => (inv.fixed h).once hrun
    place := hplace}
  shadowed h := absurd hinit (by simp_all)

/-- The lazy worker gives up. -/
theorem Cover.lazy_failed {x : Xfer} {k n : Nat} {s : State} (inv : Cover x k n s)
    (hinit : s.desc.lazyWorkInitialized = true) (hrun : s.lazy ≠ .idle) :
    Cover x k n (lazyError {s with lazy := .idle, desc := {s.desc with lazyRefillState := .idle}}) where
  base := (inv.base.failed false (by rintro ⟨⟩)).same rfl
  fixed h := {inv.fixed h with
    running := fun _ => (inv.fixed h).running (.inr hrun)
    once := fun hne => absurd rfl hne
    place := trivial}
  shadowed h := absurd hinit (by simp_all [lazyError])

/-- The refill is claimed: its table leaves the list. -/
theorem Cover.lazy_claimed {x : Xfer} {k n : Nat} {s : State} {child : Chunk} {rest : List Chunk}
    (inv : Cover x k n s) (hinit : s.desc.lazyWorkInitialized = true) (hrun : s.lazy ≠ .idle)
    (hchunks : s.desc.chunks = child :: rest) :
    Cover x k n {s with
      desc := {s.desc with chunks := rest, lazyRefillState := .preparing}, lazy := .fill child} := by
  have fixed := inv.fixed hinit
  obtain ⟨hstarted, hrung⟩ := fixed.running (.inr hrun)
  have hrest : rest = [] := by
    have := inv.base.single
    rw [hchunks] at this
    simpa using this
  subst hrest
  refine ⟨?_, fun _ => ?_, fun h => absurd hinit (by simp_all)⟩
  · exact {inv.base with
      first := fun hnil => absurd hnil hrung
      single := Nat.zero_le _
      started := fun hst => absurd hst (by simp [hstarted])}
  · exact {fixed with
      running := fun _ => ⟨hstarted, hrung⟩, once := fun _ => fixed.once hrun, place := rfl}

/-- The refilled table is launched: the transfer has come to the end of it. -/
theorem Cover.refilled {x : Xfer} {k n m : Nat} {s : State} {child : Chunk} {plan : Plan}
    (inv : Cover x k n s) (hinit : s.desc.lazyWorkInitialized = true) (hrun : s.lazy ≠ .idle)
    (hchunks : s.desc.chunks = []) (holds : Holds x n m child) (hplan : plan.cur = x.at m)
    (hlazy : s.desc.lazyMode = true) (hcompleted : ¬s.completed) :
    Cover x m m (ring child {s with lazy := .idle, busy := true, desc := {s.desc with
      cur := plan.cur, allocSz := plan.allocSz, lazyRefillState := .idle,
      lazyMode := s.desc.lazyMode && decide (plan.cur.remaining ≠ 0),
      chunks := child :: s.desc.chunks}}) := by
  have fixed := inv.fixed hinit
  obtain ⟨hstarted, hrung⟩ := fixed.running (.inr hrun)
  have hkn := inv.base.later hrung
  refine ⟨?_, fun _ => ?_, fun h => absurd hinit (by simp_all [ring])⟩
  · refine inv.base.ring (by rw [hkn]; exact holds.bytes) holds.le_len holds.le_length rfl
      ?_ ?_ ?_ ?_ ?_
    · simp [Transfer.ring, hchunks]
    · exact inv.base.unstaged hrung
    · simp only [Transfer.ring, hlazy, Bool.true_and, decide_eq_true_eq]
      exact Nat.pos_of_ne_zero
    · simp only [Transfer.ring, hlazy, Bool.true_and, decide_eq_false_iff_not, not_not,
        hplan, Xfer.at_remaining]
      intro hzero
      exact .inr (.inr (by have := holds.le_len; omega))
    · simp [Transfer.ring, hcompleted]
  · refine ⟨hplan, fixed.idle, fun hr => ?_, fun hne => absurd rfl hne, trivial⟩
    have hpending := fixed.once hrun
    simp [Transfer.ring, hpending] at hr

/-- Everything a step of the lazy worker can do. -/
inductive Refilling (x : Xfer) (env : Env) (s : State) : State → Prop where
  | waited (ret : Ret) (hl : s.lazy = .wait) : Refilling x env s {s with lazy := .claim ret}
  | unclaimed (ret : Ret) (r : RefillState) (hl : s.lazy = .claim ret) :
    Refilling x env s {s with lazy := .idle, desc := {s.desc with lazyRefillState := r}}
  | gaveUp (ret : Ret) (hl : s.lazy = .claim ret) :
    Refilling x env s
      (lazyError {s with lazy := .idle, desc := {s.desc with lazyRefillState := .idle}})
  | claimed (ret : Ret) (child : Chunk) (rest : List Chunk) (hl : s.lazy = .claim ret)
      (hchunks : s.desc.chunks = child :: rest) :
    Refilling x env s {s with
      desc := {s.desc with chunks := rest, lazyRefillState := .preparing}, lazy := .fill child}
  | unfilled (child c : Chunk) (hl : s.lazy = .fill child) :
    Refilling x env s {s with lazy := .commit c none}
  | filled (child c : Chunk) (plan : Plan) (hl : s.lazy = .fill child)
      (h : lazyRefillChunkPrepare x env.supply s.desc (freeBurst child) = (c, some plan)) :
    Refilling x env s {s with lazy := .prepare c plan}
  | prepared (child : Chunk) (plan : Plan) (hl : s.lazy = .prepare child plan) :
    Refilling x env s {s with
      hwErr := s.hwErr || signalled env.ret,
      lazy := .commit child (if env.ret = .ok then some plan else none)}
  | dropped (child : Chunk) (plan : Option Plan) (r : RefillState)
      (hl : s.lazy = .commit child plan)
      (hquit : plan = none ∨ s.completed = true ∨ s.desc.lazyRefillState ≠ .preparing ∨
        ¬s.desc.lazyMode ∨ s.aborted ∨ s.hwErr) :
    Refilling x env s {s with lazy := .idle, desc := {s.desc with lazyRefillState := r}}
  | failed (child : Chunk) (hl : s.lazy = .commit child none) :
    Refilling x env s
      (lazyError {s with lazy := .idle, desc := {s.desc with lazyRefillState := .idle}})
  | refilled (child : Chunk) (plan : Plan) (hl : s.lazy = .commit child (some plan))
      (hgo : ¬(s.completed ∨ s.desc.lazyRefillState ≠ .preparing ∨ ¬s.desc.lazyMode ∨
        s.aborted ∨ s.hwErr)) :
    Refilling x env s (ring child {s with lazy := .idle, busy := true, desc := {s.desc with
      cur := plan.cur, allocSz := plan.allocSz, lazyRefillState := .idle,
      lazyMode := s.desc.lazyMode && decide (plan.cur.remaining ≠ 0),
      chunks := child :: s.desc.chunks}})

theorem lazyStep_cases {x : Xfer} {s t : State} {env : Env} (h : lazyStep x env s = some t) :
    Refilling x env s t := by
  cases hl : s.lazy with
  | idle => simp [lazyStep, hl] at h
  | wait =>
    simp only [lazyStep, hl] at h
    cases h
    exact .waited _ hl
  | claim ret =>
    simp only [lazyStep, hl] at h
    split at h
    · cases h
      exact .unclaimed ret s.desc.lazyRefillState hl
    · split at h
      · cases h
        exact .unclaimed ret .idle hl
      · split at h
        · cases h
          exact .gaveUp ret hl
        · rename_i child rest hchunks
          split at h
          · cases h
            exact .gaveUp ret hl
          · cases h
            exact .claimed ret child rest hl hchunks
  | fill child =>
    simp only [lazyStep, hl] at h
    split at h
    · cases h
      exact .unfilled child _ hl
    · cases h
      exact .filled child _ _ hl ‹_›
  | prepare child plan =>
    simp only [lazyStep, hl] at h
    cases h
    exact .prepared child plan hl
  | commit child plan =>
    simp only [lazyStep, hl] at h
    split at h
    · cases h
      exact .dropped child plan .idle hl (.inr (.inl ‹_›))
    · rename_i hcompleted
      split at h
      · cases h
        exact .dropped child plan s.desc.lazyRefillState hl (.inr (.inr (.inl ‹_›)))
      · rename_i hstate
        split at h
        · cases h
          exact .failed child hl
        · rename_i plan
          split at h
          · cases h
            exact .dropped child (some plan) .idle hl (.inr (.inr (.inr ‹_›)))
          · rename_i hgo
            cases h
            refine .refilled child plan hl ?_
            rintro (hc | hs | hq)
            · exact hcompleted hc
            · exact hstate hs
            · exact hgo hq

theorem lazyStep_cover {x : Xfer} {k n : Nat} {s t : State} {env : Env} (inv : Cover x k n s)
    (h : lazyStep x env s = some t) : ∃ k n, Cover x k n t := by
  cases hinit : s.desc.lazyWorkInitialized with
  | false => simp [lazyStep, ((inv.shadowed hinit).lazy).1] at h
  | true =>
    have hrun : s.lazy ≠ .idle := fun hl => by simp [lazyStep, hl] at h
    have fixed := inv.fixed hinit
    have place := fixed.place
    have moved (r : RefillState) : Cover x k n
        {s with lazy := .idle, desc := {s.desc with lazyRefillState := r}} :=
      inv.lazy_moved hinit hrun .idle r s.hwErr id trivial
    cases lazyStep_cases h with
    | waited ret hl =>
      exact ⟨k, n, inv.lazy_moved hinit hrun _ s.desc.lazyRefillState s.hwErr id trivial⟩
    | unclaimed ret r hl => exact ⟨k, n, moved r⟩
    | gaveUp ret hl => exact ⟨k, n, inv.lazy_failed hinit hrun⟩
    | claimed ret child rest hl hchunks => exact ⟨k, n, inv.lazy_claimed hinit hrun hchunks⟩
    | unfilled child c hl =>
      simp only [RefillAt, hl] at place
      exact ⟨k, n, inv.lazy_moved hinit hrun _ s.desc.lazyRefillState s.hwErr id place⟩
    | filled child c plan hl hprepare =>
      simp only [RefillAt, hl] at place
      exact ⟨k, n, inv.lazy_moved hinit hrun _ s.desc.lazyRefillState s.hwErr id
        ⟨place, lazyRefillChunkPrepare_holds fixed.cur hprepare⟩⟩
    | prepared child plan hl =>
      simp only [RefillAt, hl] at place
      refine ⟨k, n, inv.lazy_moved hinit hrun _ s.desc.lazyRefillState _ (by simp_all) ?_⟩
      split
      · exact place
      · exact place.1
    | dropped child plan r hl hquit => exact ⟨k, n, moved r⟩
    | failed child hl => exact ⟨k, n, inv.lazy_failed hinit hrun⟩
    | refilled child plan hl hgo =>
      simp only [RefillAt, hl] at place
      obtain ⟨hchunks, m, holds, hplan⟩ := place
      have hlazy : s.desc.lazyMode = true := by simp_all
      exact ⟨m, m, inv.refilled hinit hrun hchunks holds hplan hlazy fun hc => hgo (.inl hc)⟩

/-! ### The shadow worker -/

/-- A build that succeeds puts the entries from where `shadow_next` stands into the table. -/
theorem shadowFillChunk_built {x : Xfer} {n : Nat} {supply : Supply} {d d' : Desc} {c c' : Chunk}
    (unbuilt : Unbuilt x n d.pipe c) (h : shadowFillChunk x supply d c = (d', some c')) :
    Built x n (Desc.pipe {d' with shadowChunk := some c'}) c' := by
  simp only [shadowFillChunk] at h
  split at h
  · cases h
  · split at h
    · rename_i m hret
      cases h
      have hnext : d.shadowNext = x.at n := unbuilt.next
      rw [hnext] at hret ⊢
      have hempty : (allocHead c).bursts = [] := unbuilt.bursts
      obtain ⟨holds, hcur⟩ := holds_of_fill hempty hret
      have hexact := fillSgBursts_ok hret
      have hcounted : Counted (allocHead c) := by simp [Counted, allocHead, unbuilt.bursts]
      refine ⟨rfl, hexact.head, ?_, _, holds, hcur, ?_⟩
      · exact Nat.ne_of_gt ((hexact.counted hcounted).2 (Nat.succ_pos m))
      · simp only [Desc.pipe, hcur, Xfer.at_remaining, Nat.sub_pos_iff_lt]
    · cases h

/-- What a fill leaves alone. -/
theorem shadowFillChunk_same {x : Xfer} {supply : Supply} {d d' : Desc} {c : Chunk} {r : Option Chunk}
    (h : shadowFillChunk x supply d c = (d', r)) :
    d'.chunks = d.chunks ∧ d'.cur = d.cur ∧ d'.lazyMode = d.lazyMode ∧
    d'.shadowState = d.shadowState ∧ d'.shadowNextChunk = d.shadowNextChunk ∧
    d'.lazyWorkInitialized = d.lazyWorkInitialized := by
  simp only [shadowFillChunk] at h
  split at h
  · cases h
    simp
  · split at h <;> cases h <;> simp

/-- The shadow worker goes on, with nothing changed that `Base` looks at. -/
theorem Cover.shadow_moved {x : Xfer} {k n : Nat} {s t : State} (inv : Cover x k n s)
    (hinit : s.desc.lazyWorkInitialized = false) (hrun : s.shadow ≠ .idle)
    (hledger : t.ledger = s.ledger) (hinit' : t.desc.lazyWorkInitialized = false)
    (hlazy : t.lazy = s.lazy ∧ t.lazyPending = s.lazyPending)
    (hstate : t.desc.shadowState = s.desc.shadowState ∨ t.desc.shadowState = .ready ∨
      t.desc.shadowState = .isrPending ∧ s.xferStarted = false)
    (hspare : Spare t.desc.shadowNextChunk) (hplace : ShadowAt x n t) : Cover x k n t where
  base := inv.base.same hledger
  fixed h := absurd hinit' (by simp [h])
  shadowed _ := by
    have sh := inv.shadowed hinit
    have hrung := sh.launched (.inr hrun)
    simp only [State.ledger, Prod.mk.injEq] at hledger
    obtain ⟨hr, -, -, -, -, -, -, hstarted, -, -⟩ := hledger
    refine ⟨by rw [hlazy.1, hlazy.2]; exact sh.lazy, fun _ => by rw [hr]; exact hrung, ?_, ?_,
      hspare, hplace⟩
    · rcases hstate with h | h | ⟨h, -⟩
      · rw [h]; exact sh.live
      · rw [h]; rintro ⟨⟩
      · rw [h]; rintro ⟨⟩
    · intro hs
      refine ⟨?_, by rw [hr]; exact hrung⟩
      rw [hstarted]
      rcases hstate with h | h | ⟨-, h⟩
      · exact (sh.handed (by rw [← h]; exact hs)).1
      · rw [h] at hs; cases hs
      · exact h

/-- The shadow worker has given up: it has no table any more, and a flag is set. -/
theorem Cover.shadow_gone {x : Xfer} {k n : Nat} {s : State} (inv : Cover x k n s)
    (hinit : s.desc.lazyWorkInitialized = false) (hrun : s.shadow ≠ .idle) (next : Option Chunk)
    (hspare : Spare next) (lazyMode err : Bool)
    (hlazy : lazyMode = true → s.desc.lazyMode = true) (herr : s.hwErr = true → err = true)
    (hflag : lazyMode = s.desc.lazyMode ∨ err = true) :
    Cover x k n {s with hwErr := err, shadow := .idle, desc := {s.desc with
      shadowChunk := none, shadowNextChunk := next, shadowState := .idle, lazyMode := lazyMode}} where
  base := {inv.base with
    lazyOn := fun hon => inv.base.lazyOn (hlazy hon)
    lazyOff := fun hoff => by
      rcases hflag with hsame | hset
      · exact (inv.base.lazyOff (hsame ▸ hoff)).imp_left herr
      · exact .inl hset
    completed := fun hc => (inv.base.completed hc).imp_left herr}
  fixed h := absurd hinit (by simp_all)
  shadowed h := by
    have sh := inv.shadowed h
    exact ⟨sh.lazy, fun _ => sh.launched (.inr hrun), (by rintro ⟨⟩), (by rintro ⟨⟩), hspare, .inl ⟨rfl, rfl⟩⟩

/-- Only the place of the shadow worker changes. -/
theorem Cover.shadow_at {x : Xfer} {k n : Nat} {s : State} (inv : Cover x k n s)
    (hinit : s.desc.lazyWorkInitialized = false) (hrun : s.shadow ≠ .idle) (w : Shadow)
    (hplace : ShadowAt x n {s with shadow := w}) : Cover x k n {s with shadow := w} :=
  inv.shadow_moved hinit hrun rfl hinit ⟨rfl, rfl⟩ (.inl rfl) (inv.shadowed hinit).spare hplace

section Worker
variable {x : Xfer} {k n : Nat} {s t : State} {env : Env}

theorem entry_cover (inv : Cover x k n s) (hinit : s.desc.lazyWorkInitialized = false)
    (hs : s.shadow = .entry) (h : shadowStep x env s = some t) : Cover x k n t := by
  have hrun : s.shadow ≠ .idle := by simp [hs]
  have sh := inv.shadowed hinit
  have place := sh.place
  simp only [ShadowAt, hs] at place
  simp only [shadowStep, hs] at h
  split at h
  · rename_i hnone
    cases h
    refine inv.shadow_at hinit hrun .noChunk ?_
    rcases place with gone | ⟨-, c, ⟨unbuilt, -⟩ | ⟨built, -⟩⟩
    · exact gone
    · cases hnone.symm.trans unbuilt.chunk
    · cases hnone.symm.trans built.chunk
  · rename_i c hchunk
    split at h
    · rename_i hbuilt
      cases h
      refine inv.shadow_moved hinit hrun rfl hinit ⟨rfl, rfl⟩ (.inl rfl) (by rintro _ ⟨⟩) ?_
      rcases place with gone | ⟨hab, c', ⟨unbuilt, -⟩ | ⟨built, -⟩⟩
      · cases hchunk.symm.trans gone.1
      · cases hchunk.symm.trans unbuilt.chunk
        cases hbuilt.2.1.symm.trans unbuilt.head
      · cases hchunk.symm.trans built.chunk
        exact ⟨hab, built, hbuilt.1, sh.spare⟩
    · rename_i hbuilt
      cases h
      refine inv.shadow_at hinit hrun (.fill c) ?_
      rcases place with gone | ⟨hab, c', ⟨unbuilt, inBuild⟩ | ⟨built, hpend⟩⟩
      · cases hchunk.symm.trans gone.1
      · cases hchunk.symm.trans unbuilt.chunk
        exact ⟨hab, unbuilt, inBuild⟩
      · cases hchunk.symm.trans built.chunk
        exact absurd ⟨hpend, built.head, built.filled⟩ hbuilt

theorem fill_cover {c : Chunk} (inv : Cover x k n s) (hinit : s.desc.lazyWorkInitialized = false)
    (hs : s.shadow = .fill c) (h : shadowStep x env s = some t) : Cover x k n t := by
  have hrun : s.shadow ≠ .idle := by simp [hs]
  have sh := inv.shadowed hinit
  have place := sh.place
  simp only [ShadowAt, hs] at place
  obtain ⟨hab, unbuilt, inBuild⟩ := place
  simp only [shadowStep, hs] at h
  split at h
  · rename_i d c' hfill
    cases h
    obtain ⟨hchunks, hcur, hlazy, hstate, hnext, hwork⟩ := shadowFillChunk_same hfill
    refine inv.shadow_moved hinit hrun ?_ (hwork.trans hinit) ⟨rfl, rfl⟩ (.inl hstate) ?_ ?_
    · simp [State.ledger, hchunks, hcur, hlazy]
    · simp only [hnext]
      exact sh.spare
    · refine ⟨hab, shadowFillChunk_built unbuilt hfill, ?_⟩
      simpa only [InBuild, hstate] using inBuild
  · rename_i d hfill
    cases h
    obtain ⟨hchunks, hcur, hlazy, hstate, hnext, hwork⟩ := shadowFillChunk_same hfill
    refine inv.shadow_moved hinit hrun ?_ (hwork.trans hinit) ⟨rfl, rfl⟩ (.inl hstate) ?_ ?_
    · simp [State.ledger, hchunks, hcur, hlazy]
    · simp only [hnext]
      exact sh.spare
    · exact ⟨hab, by simpa only [InBuild, hstate] using inBuild⟩

/-- The `switch`: the build announces its table, or finds that Done was there before. -/
theorem turn_cover {c : Chunk} {next : Option Chunk} (inv : Cover x k n s)
    (hinit : s.desc.lazyWorkInitialized = false) (hs : s.shadow = .turn c next)
    (h : shadowStep x env s = some t) : Cover x k n t := by
  have hrun : s.shadow ≠ .idle := by simp [hs]
  have sh := inv.shadowed hinit
  have place := sh.place
  simp only [ShadowAt, hs] at place
  obtain ⟨hab, built, inBuild, hspare⟩ := place
  simp only [shadowStep, hs] at h
  rcases inBuild with ⟨hstate, hpending⟩ | hstate
  · simp only [hstate, Option.some.injEq] at h
    subst h
    exact inv.shadow_moved hinit hrun rfl hinit ⟨rfl, rfl⟩ (.inr (.inl rfl)) hspare
      ⟨hab, built, .inl ⟨rfl, hpending⟩⟩
  · simp only [hstate, Option.some.injEq] at h
    subst h
    exact inv.shadow_at hinit hrun (.precopy c next) ⟨hab, built, hstate, hspare⟩

theorem handoff_cover {c : Chunk} (inv : Cover x k n s)
    (hinit : s.desc.lazyWorkInitialized = false) (hs : s.shadow = .handoff c)
    (h : shadowStep x env s = some t) : Cover x k n t := by
  have hrun : s.shadow ≠ .idle := by simp [hs]
  have sh := inv.shadowed hinit
  have place := sh.place
  simp only [ShadowAt, hs] at place
  obtain ⟨hab, built, announced, hstarted⟩ := place
  simp only [shadowStep, hs] at h
  split at h
  · split at h
    · cases h
      exact inv.shadow_at hinit hrun (.recheck c) ⟨hab, built, announced⟩
    · cases h
      exact inv.shadow_moved hinit hrun rfl hinit ⟨rfl, rfl⟩ (.inr (.inr ⟨rfl, hstarted⟩)) (by rintro _ ⟨⟩)
        ⟨hab, built, rfl, sh.spare⟩
  · cases h
    exact inv.shadow_at hinit hrun (.recheck c) ⟨hab, built, announced⟩

theorem recheck_cover {c : Chunk} (inv : Cover x k n s)
    (hinit : s.desc.lazyWorkInitialized = false) (hs : s.shadow = .recheck c)
    (h : shadowStep x env s = some t) : Cover x k n t := by
  have hrun : s.shadow ≠ .idle := by simp [hs]
  have sh := inv.shadowed hinit
  have place := sh.place
  simp only [ShadowAt, hs] at place
  obtain ⟨hab, built, announced⟩ := place
  simp only [shadowStep, hs] at h
  split at h
  · rename_i hpend
    cases h
    exact inv.shadow_moved hinit hrun rfl hinit ⟨rfl, rfl⟩ (.inl rfl) (by rintro _ ⟨⟩)
      ⟨hab, built, hpend.2.1, sh.spare⟩
  · cases h
    exact inv.shadow_at hinit hrun .idle (.inr ⟨hab, c, .inr ⟨built, announced⟩⟩)

/-- The last section: the doorbell rings for the built table, and what follows it is an
empty one, or nothing. -/
theorem launch_cover {c : Chunk} {next : Option Chunk} (inv : Cover x k n s)
    (hinit : s.desc.lazyWorkInitialized = false) (hs : s.shadow = .launch c next)
    (allowed : Bool) : ∃ k n, Cover x k n (shadowLaunch allowed c next s) := by
  have sh := inv.shadowed hinit
  have place := sh.place
  simp only [ShadowAt, hs] at place
  obtain ⟨hab, built, hstate, hspare⟩ := place
  obtain ⟨hstarted, hrung⟩ := sh.handed hstate
  obtain ⟨m, holds, hnext, hmore⟩ := built.holds
  have hkn := inv.base.later hrung
  have hchunks : c :: s.desc.chunks.tail = [c] := by
    have := inv.base.single
    rw [List.cons_eq_cons, ← List.length_eq_zero_iff, List.length_tail]
    exact ⟨rfl, by omega⟩
  have hstaging := inv.base.unstaged hrung
  have hbytes : x.bytes m = x.bytes k ++ Fill.bytes x.dir c.bursts := by
    rw [hkn]
    exact holds.bytes
  -- a table is left only while entries are, so nothing can have completed before it
  have hend : n ≠ x.len := Nat.ne_of_lt (Nat.lt_of_lt_of_le holds.lt holds.le_len)
  have hcompleted : s.completed = true → s.hwErr = true ∨ s.aborted = true ∨ m = x.len :=
    fun hc => (inv.base.completed hc).imp_right (.imp_right fun hk => absurd (hkn ▸ hk) hend)
  have hlazyOff : s.desc.lazyMode = false → s.hwErr = true ∨ s.aborted = true ∨ m = x.len :=
    fun hoff => (inv.base.lazyOff hoff).imp_right (.imp_right fun hn => absurd hn hend)
  have hne : s.rung ++ [c] ≠ [] := by simp
  have hgo : ¬(s.desc.shadowState = .cancelled ∨ s.aborted = true) := by simp [hstate, hab]
  simp only [shadowLaunch, if_neg hgo]
  cases allowed with
  | false =>
    refine ⟨k, n, ?_, fun h => absurd hinit (by simp_all [swapChunks, lazyError]), fun _ => ?_⟩
    · exact {inv.base with
        first := fun hnil => absurd hnil hrung
        single := by simp [lazyError, swapChunks, hchunks]
        started := fun hst => absurd hst (by simp [lazyError, hstarted])
        lazyOn := by rintro ⟨⟩
        lazyOff := fun _ => .inl rfl
        completed := fun _ => .inl rfl}
    · exact ⟨sh.lazy, fun _ => hrung, (by rintro ⟨⟩), (by rintro ⟨⟩), sh.spare, .inl ⟨rfl, rfl⟩⟩
  | true =>
    have hmore' : (swapChunks c s.desc).shadowHasMore = decide (m < x.len) := hmore
    by_cases hm : m < x.len
    · simp only [hmore', hm, decide_true, not_true_eq_false, if_false, if_true]
      cases next with
      | some u =>
        obtain ⟨hhead, hbursts⟩ := hspare u rfl
        refine ⟨m, m, ?_, fun h => absurd hinit (by simp_all [swapChunks, ring]), fun _ => ?_⟩
        · exact inv.base.ring hbytes holds.le_len holds.le_length rfl hchunks hstaging
            inv.base.lazyOn hlazyOff hcompleted
        · exact ⟨sh.lazy, fun _ => hne, (by rintro ⟨⟩), (by rintro ⟨⟩), (by rintro _ ⟨⟩), hab, _,
            ⟨rfl, hhead, hbursts, hnext, rfl, hm⟩, .inl rfl⟩
      | none =>
        refine ⟨m, m, ?_, fun h => absurd hinit (by simp_all [swapChunks, ring]), fun _ => ?_⟩
        · exact inv.base.ring hbytes holds.le_len holds.le_length rfl hchunks hstaging
            inv.base.lazyOn hlazyOff hcompleted
        · exact ⟨sh.lazy, fun _ => hne, (by rintro ⟨⟩), (by rintro ⟨⟩), sh.spare, rfl, rfl⟩
    · have hlast : m = x.len := by
        have := holds.le_len
        omega
      simp only [hmore', hm, decide_false, not_true_eq_false, if_false, Bool.false_eq_true]
      refine ⟨m, m, ?_, fun h => absurd hinit (by simp_all [swapChunks, ring]), fun _ => ?_⟩
      · exact inv.base.ring hbytes holds.le_len holds.le_length rfl hchunks hstaging (by rintro ⟨⟩)
          (fun _ => .inr (.inr hlast)) fun _ => .inr (.inr hlast)
      · exact ⟨sh.lazy, fun _ => hne, (by rintro ⟨⟩), (by rintro ⟨⟩), sh.spare, .inl ⟨rfl, rfl⟩⟩

/-- No chunk for the build after the next: `aborted` is set before `lazy_mode` is cleared. -/
theorem setAborted_cover (inv : Cover x k n s) (hinit : s.desc.lazyWorkInitialized = false)
    (hs : s.shadow = .setAborted) : Cover x k n {s with aborted := true, shadow := .clearLazy} := by
  have sh := inv.shadowed hinit
  have place := sh.place
  simp only [ShadowAt, hs] at place
  refine ⟨?_, fun h => absurd hinit (by simp_all), fun _ => ?_⟩
  · exact {inv.base with
      lazyOff := fun _ => .inr (.inl rfl)
      completed := fun _ => .inr (.inl rfl)}
  · exact {sh with launched := fun _ => sh.launched (.inr (by simp [hs])), place := ⟨place, rfl⟩}

theorem clearLazy_cover (inv : Cover x k n s) (hinit : s.desc.lazyWorkInitialized = false)
    (hs : s.shadow = .clearLazy) :
    Cover x k n {s with shadow := .idle, desc := {s.desc with lazyMode := false}} := by
  have sh := inv.shadowed hinit
  have place := sh.place
  simp only [ShadowAt, hs] at place
  refine ⟨?_, fun h => absurd hinit (by simp_all), fun _ => ?_⟩
  · exact {inv.base with lazyOn := (by rintro ⟨⟩), lazyOff := fun _ => .inr (.inl place.2)}
  · exact {sh with launched := fun _ => sh.launched (.inr (by simp [hs])), place := .inl place.1}

theorem shadowStep_cover (inv : Cover x k n s) (h : shadowStep x env s = some t) :
    ∃ k n, Cover x k n t := by
  cases hinit : s.desc.lazyWorkInitialized with
  | true => simp [shadowStep, (inv.fixed hinit).idle.2.1] at h
  | false =>
    have hrun : s.shadow ≠ .idle := fun hs => by simp [shadowStep, hs] at h
    have sh := inv.shadowed hinit
    have place := sh.place
    cases hs : s.shadow with
    | idle => exact absurd hs hrun
    | entry => exact ⟨k, n, entry_cover inv hinit hs h⟩
    | fill c => exact ⟨k, n, fill_cover inv hinit hs h⟩
    | turn c next => exact ⟨k, n, turn_cover inv hinit hs h⟩
    | handoff c => exact ⟨k, n, handoff_cover inv hinit hs h⟩
    | recheck c => exact ⟨k, n, recheck_cover inv hinit hs h⟩
    | noChunk =>
      simp only [ShadowAt, hs] at place
      simp only [shadowStep, hs, Option.some.injEq] at h
      have gone := inv.shadow_gone hinit hrun s.desc.shadowNextChunk sh.spare s.desc.lazyMode true id
        (fun _ => rfl) (.inr rfl)
      rw [← place.1, ← place.2] at gone
      exact ⟨k, n, h ▸ gone⟩
    | prebuild c =>
      simp only [ShadowAt, hs] at place
      simp only [shadowStep, hs, Option.some.injEq] at h
      subst h
      refine ⟨k, n, inv.shadow_at hinit hrun _ ?_⟩
      split
      · exact place
      · exact ⟨place.1, place.2.2⟩
    | failed =>
      simp only [ShadowAt, hs] at place
      simp only [shadowStep, hs, Option.some.injEq] at h
      subst h
      exact ⟨k, n, inv.shadow_gone hinit hrun s.desc.shadowNextChunk sh.spare _ _ (by simp_all)
        (by simp_all) (.inr (by simp [place.1, sh.live]))⟩
    | prealloc c =>
      simp only [ShadowAt, hs] at place
      simp only [shadowStep, hs, Option.some.injEq] at h
      subst h
      refine ⟨k, n, inv.shadow_at hinit hrun _ ⟨place.1, place.2.1, place.2.2, fun u hu => ?_⟩⟩
      split at hu
      · cases hu
        exact ⟨rfl, rfl⟩
      · cases hu
    | readStarted c | readStatus c =>
      simp only [ShadowAt, hs] at place
      simp only [shadowStep, hs, Option.some.injEq] at h
      subst h
      refine ⟨k, n, inv.shadow_at hinit hrun _ ?_⟩
      split <;> exact place
    | clearStarted c =>
      simp only [ShadowAt, hs] at place
      simp only [shadowStep, hs, Option.some.injEq] at h
      subst h
      have stopped : Cover x k n (credit s.desc.xferSz s) := inv.credit
      exact ⟨k, n, stopped.shadow_at hinit hrun (.handoff c) ⟨place.1, place.2.1, place.2.2, rfl⟩⟩
    | precopy c next =>
      simp only [ShadowAt, hs] at place
      simp only [shadowStep, hs] at h
      split at h
      · cases h
        exact ⟨k, n, inv.shadow_at hinit hrun (.launch c next) place⟩
      · cases h
        exact ⟨k, n, inv.shadow_at hinit hrun _ (by simp [ShadowAt, place.1, place.2.2.1])⟩
    | precopyFailed cancelled =>
      simp only [ShadowAt, hs] at place
      simp only [shadowStep, hs, Option.some.injEq] at h
      subst h
      exact ⟨k, n, inv.shadow_gone hinit hrun none (by rintro _ ⟨⟩) false _ (by rintro ⟨⟩) (by simp_all)
        (.inr (by simp [place]))⟩
    | launch c next =>
      simp only [shadowStep, hs, Option.some.injEq] at h
      subst h
      exact launch_cover inv hinit hs env.yes
    | queueNext =>
      simp only [ShadowAt, hs] at place
      simp only [shadowStep, hs, Option.some.injEq] at h
      subst h
      obtain ⟨hab, c, unbuilt, asked⟩ := place
      exact ⟨k, n, inv.shadow_moved hinit hrun rfl hinit ⟨rfl, rfl⟩ (.inl rfl) sh.spare
        (.inr ⟨hab, c, .inl ⟨unbuilt, asked⟩⟩)⟩
    | setAborted =>
      simp only [shadowStep, hs, Option.some.injEq] at h
      subst h
      exact ⟨k, n, setAborted_cover inv hinit hs⟩
    | clearLazy =>
      simp only [shadowStep, hs, Option.some.injEq] at h
      subst h
      exact ⟨k, n, clearLazy_cover inv hinit hs⟩

end Worker

/-! ### Runs -/

theorem launchRun_cover {x : Xfer} {k n : Nat} {s : State} (inv : Cover x k n s)
    (hidle : s.launch = .idle) : Cover x k n {s with launchPending := false, launch := .entry} where
  base := {inv.base with
    staging := fun hst => inv.base.staging (by simpa [State.staging, hidle, Launch.holding] using hst)
    slot := (by rintro ⟨⟩)}
  fixed h := {inv.fixed h with}
  shadowed h := {inv.shadowed h with}

theorem lazyRun_cover {x : Xfer} {k n : Nat} {s : State} (inv : Cover x k n s)
    (hpending : s.lazyPending = true) : Cover x k n {s with lazyPending := false, lazy := .wait} where
  base := inv.base.same rfl
  fixed h := {inv.fixed h with
    running := fun _ => (inv.fixed h).running (.inl hpending)
    once := fun _ => rfl
    place := trivial}
  shadowed h := absurd hpending (by simp [(inv.shadowed h).lazy.2])

theorem shadowRun_cover {x : Xfer} {k n : Nat} {s : State} (inv : Cover x k n s)
    (hpending : s.shadowPending = true) (hidle : s.shadow = .idle) :
    Cover x k n {s with shadowPending := false, shadow := .entry} where
  base := inv.base.same rfl
  fixed h := absurd hpending (by simp [(inv.fixed h).idle.2.2])
  shadowed h := by
    have sh := inv.shadowed h
    refine {sh with launched := fun _ => sh.launched (.inl hpending), place := ?_}
    have place := sh.place
    simp only [ShadowAt, hidle, Announced, hpending] at place
    rcases place with gone | ⟨hab, c, ⟨unbuilt, asked⟩ | ⟨built, announced⟩⟩
    · exact .inl gone
    · exact .inr ⟨hab, c, .inl ⟨unbuilt, asked.imp_left fun hb => ⟨hb, rfl⟩⟩⟩
    · exact .inr ⟨hab, c, .inr ⟨built, announced.resolve_left (by simp)⟩⟩

theorem step_cover {x : Xfer} (s : State) (l : Label) (t : State) (inv : ∃ k n, Cover x k n s)
    (h : step x s l = some t) : ∃ k n, Cover x k n t := by
  obtain ⟨k, n, inv⟩ := inv
  cases l with
  | done =>
    cases h
    exact ⟨k, n, doneInterrupt_cover inv⟩
  | launchRun =>
    simp only [step] at h
    split at h
    · rename_i hready
      cases h
      exact ⟨k, n, launchRun_cover inv hready.2⟩
    · cases h
  | lazyRun =>
    simp only [step] at h
    split at h
    · rename_i hready
      cases h
      exact ⟨k, n, lazyRun_cover inv hready.1⟩
    · cases h
  | shadowRun =>
    simp only [step] at h
    split at h
    · rename_i hready
      cases h
      exact ⟨k, n, shadowRun_cover inv hready.1 hready.2⟩
    · cases h
  | launch env => exact launchStep_cover inv h
  | lazy env => exact lazyStep_cover inv h
  | shadow env => exact shadowStep_cover inv h

/-- A prepared descriptor is issued with its table staged. -/
theorem issue_staged {x : Xfer} {n : Nat} {c : Chunk} {d : Desc} (hfirst : First x n c)
    (hfilled : 0 < c.burstsAlloc) (hchunks : d.chunks = [c]) :
    issue d = ⟨d, false, true, false, false, false, false, some c, true, .idle, false, .idle,
      false, .idle, []⟩ := by
  have hcounted := hfirst.counted
  have hne : c.bursts ≠ [] := by
    rintro hnil
    simp [Counted, hnil] at hcounted
    omega
  simp [issue, startTransfer, hchunks, hfirst.head, hne]

theorem issue_cover {x : Xfer} {n : Nat} {c : Chunk} {d : Desc} (hfirst : First x n c)
    (hfilled : 0 < c.burstsAlloc) (hprep : Prepared x n c d) : Cover x 0 n (issue d) := by
  have hbase (hchunks : d.chunks = [c]) (hon : d.lazyMode = true → 0 < d.cur.remaining)
      (hoff : d.lazyMode = false → n = x.len) :
      Base x 0 n ⟨d, false, true, false, false, false, false, some c, true, .idle, false, .idle,
        false, .idle, []⟩ :=
    ⟨by simp [rungBytes], hfirst.le_len, hfirst.le_length,
      fun _ => ⟨rfl, c, hchunks, hfirst.bytes⟩, (fun hne => absurd rfl hne), fun _ => rfl, (by rintro ⟨⟩), by simp [hchunks],
      (by rintro ⟨⟩), hon, fun h => .inr (.inr (hoff h)), (by rintro ⟨⟩)⟩
  cases hprep with
  | whole h chunks lazyMode shadowState shadowChunk lazyWork spare =>
    rw [issue_staged hfirst hfilled chunks]
    refine ⟨hbase chunks (by simp [lazyMode]) fun _ => h, by simp [lazyWork], fun _ => ?_⟩
    exact ⟨⟨rfl, rfl⟩, by simp, by simp [shadowState], by simp [shadowState], by simp [Spare, spare],
      .inl ⟨shadowChunk, shadowState⟩⟩
  | fixed h chunks cur shadowState lazyWork lazyMode =>
    rw [issue_staged hfirst hfilled chunks]
    refine ⟨hbase chunks (fun _ => ?_) (by simp [lazyMode]), fun _ => ?_, by simp [lazyWork]⟩
    · rw [cur, Xfer.at_remaining]
      omega
    · exact ⟨cur, ⟨shadowState, rfl, rfl⟩, by simp, fun hne => absurd rfl hne, trivial⟩
  | shadow h chunks cur shadowState lazyWork lazyMode next more cb shadowChunk spare =>
    rw [issue_staged hfirst hfilled chunks]
    refine ⟨hbase chunks (fun _ => ?_) (by simp [lazyMode]), by simp [lazyWork], fun _ => ?_⟩
    · rw [cur, Xfer.at_remaining]
      omega
    · exact ⟨⟨rfl, rfl⟩, by simp, by simp [shadowState], by simp [shadowState], by simp [Spare, spare],
        .inr ⟨rfl, _, .inl ⟨⟨shadowChunk, rfl, rfl, next, more, h⟩, .inl shadowState⟩⟩⟩

/-- Four entries on a channel that refills its table; the first two touch. -/
def refillXfer : Xfer :=
  ⟨.read, 2, 4096, false, 0, false, [⟨0x1000, 16⟩, ⟨0x1010, 16⟩, ⟨0x3000, 8⟩, ⟨0x5000, 8⟩], 4, 0x100⟩

/-- Everything succeeds. -/
def good : Env := ⟨.ok, true, ⟨true, 2, 0⟩⟩

/-- The first table has room for three entries, the refill takes the last one. -/
def refillRun : List Label :=
  .launchRun :: List.replicate 3 (.launch good) ++
    .done :: .lazyRun :: List.replicate 5 (.lazy good) ++ [.done]

/-- The descriptor prepared, issued and run. -/
def transfer (x : Xfer) (supplies : List Supply) (ls : List Label) : Option State :=
  (deviceTransfer x supplies true).bind fun d => Machine.run (step x) (issue d) ls

end DxNpuDriver.Edma.Transfer
