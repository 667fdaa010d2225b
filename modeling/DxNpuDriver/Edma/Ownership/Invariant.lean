import DxNpuDriver.Edma.Ownership

/-! Why the chunks have one owner.

`Placed` and `Pointers` say how the places of the workers, the flags of the descriptor and its
pointers go together, `Known` what is known of the chunks behind them, and `Owned` that each
chunk has one owner or was freed once. What a step may do to one of them alone is proved here
once; the steps are put together from it. -/
namespace DxNpuDriver.Edma.Ownership
open Memory
open Transfer (ShadowState RefillState)

/-- How often a pointer is one to `c`. -/
def one (o : Option Nat) (c : Nat) : Nat := if o = some c then 1 else 0

@[simp] theorem one_none (c : Nat) : one none c = 0 := rfl

@[simp] theorem one_some (d c : Nat) : one (some d) c = if d = c then 1 else 0 := by
  simp only [one, Option.some.injEq]

theorem count_toList (o : Option Nat) (c : Nat) : o.toList.count c = one o c := by
  cases o with
  | none => rfl
  | some d => simp [List.count_singleton]

/-- `shadow_chunk`, as long as it owns what it points to. -/
def State.shadowPtr (s : State) : Option Nat := if s.shadow.dangling then none else s.shadowChunk

/-- How many owners have `c`. -/
def owners (s : State) (c : Nat) : Nat :=
  s.chunks.count c + one s.shadowPtr c + one s.shadowNextChunk c + one s.shadow.next c +
    one s.lazy.child c + s.cleanup.count c + s.draining.count c

/-- The chunk that `shadow` of the worker points to; `shadow_chunk` does too. -/
def Shadow.chunk : Shadow → Option Nat
  | .fill c | .discard c | .prebuild c | .prealloc c | .turn c _ | .announced c | .handoff c |
    .recheck c | .precopy c _ | .precopyFree c _ | .launch c _ | .queueNext c |
    .unqueued c => some c
  | .idle | .entry | .failed | .precopyFailed | .release _ => none

/-- The worker builds, and has not come to its `switch`. -/
def Shadow.inBuild : Shadow → Bool
  | .fill _ | .discard _ | .prebuild _ | .prealloc _ | .turn _ _ => true
  | _ => false

/-- The worker has taken `shadow_next_chunk`. -/
def Shadow.handed : Shadow → Bool
  | .precopy _ _ | .precopyFree _ _ | .precopyFailed | .launch _ _ => true
  | _ => false

/-- The worker will look at `shadow_state` from its first lines on. -/
def Shadow.due : Shadow → Bool
  | .entry | .queueNext _ => true
  | _ => false

/-- The table is written. -/
def Shadow.written : Shadow → Option Nat
  | .prealloc c | .turn c _ => some c
  | _ => none

/-- A build is asked for, announced or handed over. -/
def awaited (st : ShadowState) : Prop := st = .building ∨ st = .ready ∨ st = .isrPending

/-- Neither runs nor will. -/
def QuietShadow (s : State) : Prop := s.shadow = .idle ∧ s.shadowPending = false

def QuietLazy (s : State) : Prop := s.lazy = .idle ∧ s.lazyPending = false

/-- What `dw_edma_free_desc` has done. -/
def FreeAt (s : State) : Free → Prop
  | .check | .mark | .syncShadow => True
  | .freeShadow => QuietShadow s
  | .freeNext => QuietShadow s ∧ s.shadowChunk = none
  | .markLazy | .syncLazy => QuietShadow s ∧ s.shadowChunk = none ∧ s.shadowNextChunk = none
  | .freeChunk =>
    QuietShadow s ∧ s.shadowChunk = none ∧ s.shadowNextChunk = none ∧ QuietLazy s
  | .returned =>
    QuietShadow s ∧ s.shadowChunk = none ∧ s.shadowNextChunk = none ∧ QuietLazy s ∧ s.chunks = []

/-- `dw_edma_free_desc` has waited for the shadow worker. -/
def Stopped : Phase → Prop
  | .freeing .freeShadow | .freeing .freeNext | .freeing .markLazy | .freeing .syncLazy |
    .freeing .freeChunk | .freeing .returned => True
  | _ => False

def PhaseAt (s : State) : Prop :=
  match s.phase with
  | .preparing => QuietShadow s ∧ QuietLazy s ∧ s.staged = none ∧ ¬awaited s.shadowState ∧
      s.shadowChunk = none ∧ s.shadowNextChunk = none ∧ s.lazyWorkInitialized = false
  | .waiting => QuietShadow s ∧ QuietLazy s ∧ s.staged = none
  | .issued | .detached => True
  | .freeing f => FreeAt s f

/-- The place of the shadow worker against its words. `shadow_next_chunk` is overwritten where a
build is announced, cleared where the next one is queued, and where the copy failed: `fresh`,
`taken` and `rebuilt` say that it is null there. For that, a worker that starts again never
finds a build announced that it has not been asked to hand over (`queued`, `apart`). -/
structure Placed (s : State) : Prop where
  aliased : ∀ c, s.shadow.chunk = some c → s.shadowChunk = some c
  fresh : s.shadowState = .building → s.shadowNextChunk = none
  taken : s.shadow.handed = true → s.shadowNextChunk = none
  rebuilt : s.shadow.inBuild = true → awaited s.shadowState → s.shadowNextChunk = none
  queued : s.shadowPending = true ∨ s.shadow.due = true → s.shadowState ≠ .ready
  apart : s.shadow = .entry ∨ s.shadow.inBuild = true → s.shadowState = .building →
    s.shadowPending = false
  queue : ∀ c, s.shadow ≠ .unqueued c

/-- What the others rely on. A staged chunk queues a build only while none is queued or runs;
with a shadow there is one chunk at most; what is queued or runs was initialized, and has a
work queue. -/
structure Pointers (s : State) : Prop extends Placed s where
  staged : ∀ a, s.staged = some a → s.chunks.head? = some a → s.shadowState = .building →
    QuietShadow s
  fixed : s.lazyWorkInitialized = true →
    ¬awaited s.shadowState ∧ QuietShadow s ∧ s.shadowChunk = none ∧ s.shadowNextChunk = none
  single : s.shadowChunk ≠ none ∨ ¬QuietShadow s ∨ awaited s.shadowState → s.chunks.length ≤ 1
  initialized : ¬Stopped s.phase → awaited s.shadowState → s.shadowWorkInitialized = true
  shadowWork : s.shadowPending = true ∨ s.shadow ≠ .idle →
    s.shadowWorkInitialized = true ∧ s.shadowWq = true
  lazyWork : s.lazyPending = true ∨ s.lazy ≠ .idle →
    s.lazyWorkInitialized = true ∧ s.shadowWq = true
  phase : PhaseAt s

/-- What is known of the chunks in the store `m`. A staged chunk has been in the list, and does
not come back to the worker; a chunk behind a build that is announced or handed over is
filled. -/
structure Known (s : State) (m : Store) : Prop where
  old : ∀ a, s.staged = some a → a < m.fresh ∧ s.shadowChunk ≠ some a ∧
    s.shadowNextChunk ≠ some a ∧ s.shadow.next ≠ some a
  built : ¬Stopped s.phase → s.shadowNextChunk ≠ none →
    s.shadowState = .ready ∨ s.shadowState = .isrPending →
      ∃ c, s.shadowPtr = some c ∧ hasData m c = true
  written : ∀ c, s.shadow.written = some c → hasData m c = true
  reset : ∀ c, s.lazy = .prepare c → m.chunk c = none

/-- The bursts are where they should be, and each chunk that was allocated has been freed once or
has one owner, where `own` counts the owners of a chunk. -/
structure Owned (size : Nat) (own : Nat → Nat) (m : Store) : Prop where
  sound : Sound size m
  linear : ∀ c, own c + m.freed.count c = if c < m.fresh then 1 else 0

structure Inv (size : Nat) (s : State) : Prop
    extends Pointers s, Known s s.mem, Owned size (owners s) s.mem

theorem shadowPtr_of_written {s : State} {c : Nat} (inv : Pointers s)
    (h : s.shadow.written = some c) : s.shadowPtr = some c := by
  cases hs : s.shadow with
  | prealloc d | turn d next =>
    have hd : d = c := by simpa [hs, Shadow.written] using h
    rw [State.shadowPtr, hs, ← hd]
    exact inv.aliased d (by simp [hs, Shadow.chunk])
  | _ => simp [hs, Shadow.written] at h

theorem owners_shadowPtr {s : State} {c : Nat} (h : s.shadowPtr = some c) : 0 < owners s c := by
  simp only [owners, h, one_some, if_true]
  omega

theorem owners_child {s : State} {c : Nat} (h : s.lazy.child = some c) : 0 < owners s c := by
  simp only [owners, h, one_some, if_true]
  omega

theorem owners_mem {s : State} {c : Nat} (h : c ∈ s.chunks) : 0 < owners s c := by
  have := List.count_pos_iff.mpr h
  simp only [owners]
  omega

/-- What is known of a chunk stays true while its bursts stay, if somebody owns it. -/
theorem Known.keep {s : State} {m m' : Store} (h : Known s m) (pointers : Pointers s)
    (hfresh : m.fresh ≤ m'.fresh)
    (hkeep : ∀ c, 0 < owners s c → s.shadowPtr = some c ∨ s.lazy = .prepare c →
      m'.chunk c = m.chunk c) : Known s m' where
  old a ha := ⟨Nat.lt_of_lt_of_le (h.old a ha).1 hfresh, (h.old a ha).2⟩
  built hphase hnext hstate := by
    obtain ⟨c, hc, hdata⟩ := h.built hphase hnext hstate
    exact ⟨c, hc, by rw [hasData_congr (hkeep c (owners_shadowPtr hc) (.inl hc)), hdata]⟩
  written c hc := by
    have hptr := shadowPtr_of_written pointers hc
    rw [hasData_congr (hkeep c (owners_shadowPtr hptr) (.inl hptr)), h.written c hc]
  reset c hc := by
    rw [hkeep c (owners_child (by rw [hc]; rfl)) (.inr hc), h.reset c hc]

/-- What somebody owns is allocated and not freed, and nobody else has it. -/
theorem Owned.live {size c : Nat} {own : Nat → Nat} {m : Store} (h : Owned size own m)
    (hpos : 0 < own c) : c < m.fresh ∧ c ∉ m.freed ∧ own c = 1 := by
  have hlinear := h.linear c
  split at hlinear
  · next hlt =>
    exact ⟨hlt, List.count_eq_zero.mp (by omega), by omega⟩
  · omega

theorem Owned.congr {size : Nat} {own own' : Nat → Nat} {m : Store} (h : Owned size own m)
    (hown : ∀ c, own' c = own c) : Owned size own' m where
  sound := h.sound
  linear c := by rw [hown c, h.linear c]

/-- Bursts move to or from a chunk that somebody owns. -/
theorem Owned.moved {size c : Nat} {own : Nat → Nat} {m m' : Store} (h : Owned size own m)
    (hc : 0 < own c) (hm : Moves c m m') : Owned size own m' where
  sound := hm.sound h.sound (h.live hc).1 (h.live hc).2.1
  linear d := by
    rw [hm.fresh, hm.freed]
    exact h.linear d

section Kept
variable {size : Nat} {s : State} {c : Nat}

/-- A chunk in the list is not behind a pointer. -/
theorem Inv.listed (inv : Inv size s) (h : c ∈ s.chunks) :
    s.shadowPtr ≠ some c ∧ s.shadowNextChunk ≠ some c ∧ s.shadow.next ≠ some c ∧
      s.lazy.child ≠ some c := by
  have hone := (inv.live (owners_mem h)).2.2
  have hpos := List.count_pos_iff.mpr h
  simp only [owners] at hone
  refine ⟨?_, ?_, ?_, ?_⟩ <;>
  · intro heq
    simp only [heq, one_some, if_true] at hone
    omega

/-- The chunk of the lazy worker is not behind another pointer. -/
theorem Inv.refilled (inv : Inv size s) (h : s.lazy.child = some c) : s.shadowPtr ≠ some c := by
  intro heq
  have hone := (inv.live (owners_child h)).2.2
  simp only [owners, h, heq, one_some, if_true] at hone
  omega

theorem Inv.moved {m : Store} (inv : Inv size s) (hm : Moves c s.mem m) (hc : 0 < owners s c)
    (hshadow : s.shadowPtr = some c → hasData s.mem c = true → hasData m c = true)
    (hlazy : s.lazy ≠ .prepare c) : Inv size {s with mem := m} := by
  have keeps : ∀ d, s.shadowPtr = some d → hasData s.mem d = true → hasData m d = true := by
    intro d hd hdata
    by_cases hdc : d = c
    · exact hdc ▸ hshadow (hdc ▸ hd) (hdc ▸ hdata)
    · rw [hasData_congr (hm.frame d hdc)]
      exact hdata
  refine ⟨{inv.toPointers with}, ⟨?_, ?_, ?_, ?_⟩, inv.toOwned.moved hc hm⟩
  · rw [hm.fresh]
    exact inv.old
  · intro hphase hnext hstate
    obtain ⟨d, hd, hdata⟩ := inv.built hphase hnext hstate
    exact ⟨d, hd, keeps d hd hdata⟩
  · intro d hd
    exact keeps d (shadowPtr_of_written inv.toPointers hd) (inv.written d hd)
  · intro d hd
    rw [hm.frame d fun hdc => hlazy (hdc ▸ hd)]
    exact inv.reset d hd

end Kept

/-! ### Chunks that are freed -/

section Freed
variable {size : Nat} {m : Store} {s t : State}

theorem freeUnlinked_fresh (o : Option Nat) : (freeUnlinked size o m).fresh = m.fresh := by
  cases o with
  | none => rfl
  | some c =>
    simp only [freeUnlinked, freeUnlinkedChunk, kfree, freeBurst]
    split <;> rfl

theorem freeUnlinked_freed (o : Option Nat) (d : Nat) :
    (freeUnlinked size o m).freed.count d = m.freed.count d + one o d := by
  cases o with
  | none => rfl
  | some c =>
    have hfreed : (freeBurst size c m).freed = m.freed := by
      simp only [freeBurst]
      split <;> rfl
    simp only [freeUnlinked, freeUnlinkedChunk, kfree, hfreed, List.count_cons, one_some,
      beq_iff_eq]

theorem freeUnlinked_chunk {o : Option Nat} {d : Nat} (h : o ≠ some d) :
    (freeUnlinked size o m).chunk d = m.chunk d := by
  cases o with
  | none => rfl
  | some c =>
    have hdc : d ≠ c := fun hdc => h (by rw [hdc])
    simp only [freeUnlinked, freeUnlinkedChunk, kfree, freeBurst]
    split
    · rfl
    · exact set_chunk_of_ne _ _ hdc

theorem freeUnlinked_sound {o : Option Nat} (hm : Sound size m)
    (h : ∀ c, o = some c → c < m.fresh ∧ c ∉ m.freed) : Sound size (freeUnlinked size o m) := by
  cases o with
  | none => exact hm
  | some c => exact freeUnlinkedChunk_sound hm (h c rfl).1 (h c rfl).2

section
variable {own own' : Nat → Nat} {o : Option Nat} (h : Owned size own m)
  (hown : ∀ d, own' d + one o d = own d)
include h hown

/-- An owner gives up a chunk, which is freed. -/
theorem Owned.freed : Owned size own' (freeUnlinked size o m) where
  sound := by
    refine freeUnlinked_sound h.sound fun c hc => ?_
    have hpos : 0 < own c := by
      have := hown c
      rw [hc, one_some, if_pos rfl] at this
      omega
    exact ⟨(h.live hpos).1, (h.live hpos).2.1⟩
  linear d := by
    have := h.linear d
    have := hown d
    rw [freeUnlinked_fresh, freeUnlinked_freed]
    omega

/-- A chunk that somebody still owns was not the one. -/
theorem Owned.apart {d : Nat} (hd : 0 < own' d) : o ≠ some d := by
  intro ho
  have hsame := hown d
  rw [ho, one_some, if_pos rfl] at hsame
  have := (h.live (c := d) (by omega)).2.2
  omega

end

theorem Known.freed {o : Option Nat} (known : Known t m) (pointers : Pointers t)
    (h : ∀ d, 0 < owners t d → o ≠ some d) : Known t (freeUnlinked size o m) :=
  known.keep pointers (by rw [freeUnlinked_fresh]) fun d hd _ => freeUnlinked_chunk (h d hd)

theorem Inv.freed {o : Option Nat} (inv : Inv size s) (hmem : t.mem = freeUnlinked size o s.mem)
    (howners : ∀ d, owners t d + one o d = owners s d) (pointers : Pointers t)
    (known : Known t s.mem) : Inv size t where
  toPointers := pointers
  toKnown := by
    rw [hmem]
    exact known.freed pointers fun d => inv.toOwned.apart howners
  toOwned := by
    rw [hmem]
    exact inv.toOwned.freed howners

/-- The chunk that is allocated gets an owner. -/
theorem Owned.allocated {own own' : Nat → Nat} (h : Owned size own m)
    (hown : ∀ d, own' d = own d + one (some m.fresh) d) :
    Owned size own' (allocChunkForChan m) where
  sound := allocChunkForChan_sound h.sound
  linear d := by
    have hlinear := h.linear d
    rw [hown d, one_some]
    show own d + (if m.fresh = d then 1 else 0) + m.freed.count d = if d < m.fresh + 1 then 1 else 0
    split at hlinear <;> split <;> split <;> omega

theorem Known.allocated (known : Known t m) (pointers : Pointers t)
    (h : ∀ d, t.shadowPtr = some d ∨ t.lazy = .prepare d → d < m.fresh) :
    Known t (allocChunkForChan m) := by
  refine known.keep pointers (Nat.le_succ _) fun d _ hd => ?_
  exact set_chunk_of_ne _ _ (Nat.ne_of_lt (h d hd))

end Freed

/-! ### Phases -/

/-- The worker may still run. -/
def Loose : Phase → Prop
  | .issued | .detached | .freeing .check | .freeing .mark | .freeing .syncShadow => True
  | _ => False

theorem PhaseAt.of_loose {s : State} (h : Loose s.phase) : PhaseAt s := by
  simp only [PhaseAt]
  cases hp : s.phase with
  | preparing | waiting => simp [hp, Loose] at h
  | issued | detached => trivial
  | freeing f => cases f <;> simp_all [Loose, FreeAt]

theorem Pointers.active {s : State} (inv : Pointers s) (h : ¬QuietShadow s) : Loose s.phase := by
  have phase := inv.phase
  simp only [PhaseAt] at phase
  cases hp : s.phase with
  | preparing | waiting =>
    simp only [hp] at phase
    exact h phase.1
  | issued | detached => trivial
  | freeing f =>
    simp only [hp] at phase
    cases f with
    | check | mark | syncShadow => trivial
    | freeShadow => exact h phase
    | freeNext | markLazy | syncLazy | freeChunk | returned => exact h phase.1

theorem Pointers.loose {s : State} (inv : Pointers s) (h : s.shadow ≠ .idle) : Loose s.phase :=
  inv.active fun hquiet => h hquiet.1

theorem Loose.not_stopped {p : Phase} (h : Loose p) : ¬Stopped p := by
  cases p with
  | freeing f => cases f <;> simp_all [Loose, Stopped]
  | _ => exact id

/-- While the worker runs the descriptor is not in fixed-buffer mode. -/
theorem Pointers.unfixed {s : State} (inv : Pointers s) (h : s.shadow ≠ .idle) :
    s.lazyWorkInitialized = false :=
  Bool.eq_false_iff.mpr fun hfixed => h (inv.fixed hfixed).2.1.1

section Parts
variable {size : Nat} {s : State}

theorem Inv.phase_at (inv : Inv size s) {p : Phase} (h : PhaseAt {s with phase := p})
    (hstopped : Stopped s.phase → Stopped p) : Inv size {s with phase := p} :=
  {inv with
    initialized := fun hp => inv.initialized fun hs => hp (hstopped hs)
    phase := h
    built := fun hp => inv.built fun hs => hp (hstopped hs)}

theorem Inv.unstaged (inv : Inv size s) : Inv size {s with staged := none} :=
  {inv with
    staged := fun _ h => (by cases h)
    phase := by
      have phase := inv.phase
      simp only [PhaseAt] at phase ⊢
      cases hp : s.phase with
      | preparing =>
        simp only [hp] at phase ⊢
        exact ⟨phase.1, phase.2.1, trivial, phase.2.2.2⟩
      | waiting =>
        simp only [hp] at phase ⊢
        exact ⟨phase.1, phase.2.1, trivial⟩
      | issued | detached => trivial
      | freeing f =>
        simp only [hp] at phase ⊢
        cases f <;> exact phase
    old := fun _ h => (by cases h)}

/-- `shadow_state` is settled, wherever the worker is. -/
theorem Inv.state_at (inv : Inv size s) (st : ShadowState) (hst : ¬awaited st) :
    Inv size {s with shadowState := st} :=
  have hbuilding : st ≠ .building := fun heq => hst (.inl heq)
  have hready : st ≠ .ready := fun heq => hst (.inr (.inl heq))
  have hpending : st ≠ .isrPending := fun heq => hst (.inr (.inr heq))
  {inv with
    fresh := fun heq => absurd heq hbuilding
    rebuilt := fun _ ha => absurd ha hst
    queued := fun _ => hready
    apart := fun _ heq => absurd heq hbuilding
    staged := fun _ _ _ heq => absurd heq hbuilding
    fixed := fun hfixed => ⟨hst, (inv.fixed hfixed).2⟩
    single := fun h => inv.single (h.imp id fun h => .inl (h.resolve_right hst))
    initialized := fun _ ha => absurd ha hst
    phase := by
      have phase := inv.phase
      simp only [PhaseAt] at phase ⊢
      cases hp : s.phase with
      | preparing =>
        simp only [hp] at phase ⊢
        exact ⟨phase.1, phase.2.1, phase.2.2.1, hst, phase.2.2.2.2⟩
      | waiting =>
        simp only [hp] at phase ⊢
        exact phase
      | issued | detached => trivial
      | freeing f =>
        simp only [hp] at phase ⊢
        cases f <;> exact phase
    built := fun _ _ heq => (heq.elim hready hpending).elim}

theorem Inv.cancelBuild (inv : Inv size s) : Inv size (cancelBuild s) := by
  simp only [Ownership.cancelBuild]
  split
  · exact inv.state_at _ (by simp [awaited])
  · exact inv

/-- The first chunk goes to the cleanup list, without its bursts. -/
theorem Inv.retire (inv : Inv size s) (hloose : Loose s.phase) : Inv size (retire size s) := by
  simp only [Ownership.retire]
  split
  · exact inv
  · next child rest hchunks =>
    have hmem : child ∈ s.chunks := by simp [hchunks]
    obtain ⟨hshadow, -, -, hlazy⟩ := inv.listed hmem
    have hlive := inv.live (owners_mem hmem)
    have moved := inv.moved (freeBurst_moves inv.sound hlive.1) (owners_mem hmem)
      (fun h => absurd h hshadow) (fun h => hlazy (by rw [h]; rfl))
    refine {moved with
      staged := ?_
      single := fun h => ?_
      phase := .of_loose hloose
      linear := fun d => ?_}
    · -- where a build is on, there is one chunk at most
      intro a _ hhead hstate
      have hlength := inv.single (.inr (.inr (.inl hstate)))
      cases rest with
      | nil => cases hhead
      | cons d rest =>
        simp only [hchunks, List.length_cons] at hlength
        omega
    · have := inv.single h
      rw [hchunks, List.length_cons] at this
      exact Nat.le_of_succ_le this
    · rw [← moved.linear d]
      simp only [owners, State.shadowPtr, hchunks, List.count_cons, List.count_append,
        List.count_nil]
      omega

/-- A list of one chunk at most is empty after it. -/
theorem retire_chunks (size : Nat) {s : State} (h : s.chunks.length ≤ 1) :
    (retire size s).chunks = [] := by
  simp only [retire]
  split
  · next hnil => exact hnil
  · next child rest hcons =>
    rw [hcons, List.length_cons] at h
    exact List.eq_nil_of_length_eq_zero (Nat.le_zero.mp (Nat.le_of_succ_le_succ h))

/-- What `retire` leaves alone. -/
theorem retire_frame (size : Nat) (s : State) :
    ∃ chunks cleanup mem,
      retire size s = {s with chunks := chunks, cleanup := cleanup, mem := mem} := by
  simp only [retire]
  split <;> exact ⟨_, _, _, rfl⟩

end Parts

end DxNpuDriver.Edma.Ownership
