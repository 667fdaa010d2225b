import DxNpuDriver.Edma.Ownership.ShadowWorker
import DxNpuDriver.Lib.Machine

/-! Ownership is linear in every run (`dw-edma-core.c`, `dw-edma-mem.c`).

The other steps keep the invariant, too: the lazy worker, the interrupts, the cleanup work,
`dw_edma_free_desc` and the preparation. After the last of them nobody owns a chunk, so that
each was freed, and freed once. -/
namespace DxNpuDriver.Edma.Ownership
open Memory Machine
open Transfer (ShadowState RefillState)

/-! ### The lazy worker -/

section Lazy
variable {size : Nat} {s t : State} {env : Env} {c : Nat}

/-- The lazy worker runs until `dw_edma_free_desc` waits for it. -/
theorem PhaseAt.lazy_at (h : PhaseAt s) (hrun : ¬QuietLazy s) (p : Bool) (w : Refill)
    (st : RefillState) (chunks cleanup : List Nat) (m : Store) :
    PhaseAt {s with lazyPending := p, lazy := w, lazyRefillState := st, chunks := chunks,
                    cleanup := cleanup, mem := m} := by
  simp only [PhaseAt] at h ⊢
  cases hp : s.phase with
  | preparing | waiting =>
    simp only [hp] at h
    exact absurd h.2.1 hrun
  | issued | detached => trivial
  | freeing f =>
    simp only [hp] at h ⊢
    cases f with
    | freeChunk => exact absurd h.2.2.2 hrun
    | returned => exact absurd h.2.2.2.1 hrun
    | _ => exact h

/-- In fixed-buffer mode there is no shadow; what counts is who has the chunk. -/
theorem Inv.lazy_at (inv : Inv size s) (hrun : s.lazy ≠ .idle) {w : Refill} {st : RefillState}
    {chunks cleanup : List Nat} {m : Store} (hfresh : m.fresh = s.mem.fresh)
    (hreset : ∀ c, w = .prepare c → m.chunk c = none)
    (howned : Owned size (owners {s with
      lazy := w, lazyRefillState := st, chunks := chunks, cleanup := cleanup, mem := m}) m) :
    Inv size {s with
      lazy := w, lazyRefillState := st, chunks := chunks, cleanup := cleanup, mem := m} := by
  have hwork := inv.lazyWork (.inr hrun)
  obtain ⟨hstate, hquiet, hnone, hnext⟩ := inv.fixed hwork.1
  exact {inv with
    staged := fun _ _ _ h => absurd (.inl h) hstate
    single := fun h => by
      rcases h with h | h | h
      · exact absurd hnone h
      · exact absurd hquiet h
      · exact absurd h hstate
    lazyWork := fun _ => hwork
    phase := inv.phase.lazy_at (fun h => hrun h.1) s.lazyPending w st chunks cleanup m
    old := fun a ha => ⟨hfresh ▸ (inv.old a ha).1, (inv.old a ha).2⟩
    built := fun _ h => absurd hnext h
    written := fun d hd => by
      simp only [hquiet.1, Shadow.written] at hd
      cases hd
    reset := hreset
    toOwned := howned}

/-- The worker takes the chunk out of the list, or returns. -/
theorem Inv.lazy_claim (inv : Inv size s) (hs : s.lazy = .claim)
    (h : lazyStep size env s = some t) : Inv size t := by
  have hrun : s.lazy ≠ .idle := by simp [hs]
  have returned (st : RefillState) : Inv size {s with lazy := .idle, lazyRefillState := st} := by
    refine inv.lazy_at hrun rfl (by rintro _ ⟨⟩) (inv.toOwned.congr fun d => ?_)
    simp only [owners, State.shadowPtr, hs, Refill.child]
  simp only [lazyStep, hs] at h
  split at h
  · cases h
    exact returned _
  · split at h
    · cases h
      exact returned _
    · next hissued =>
      simp only [not_or, not_not] at hissued
      split at h
      · cases h
        exact returned _
      · next child rest hchunks =>
        split at h
        · cases h
          have retired := (returned .idle).retire (by rw [hissued.1]; trivial)
          obtain ⟨_, _, _, heq⟩ :=
            retire_frame size {s with lazy := .idle, lazyRefillState := .idle}
          refine retired.phase_at trivial fun hstopped => ?_
          rw [heq, hissued.1] at hstopped
          exact hstopped
        · split at h
          · cases h
            exact returned _
          · cases h
            refine inv.lazy_at hrun rfl (by rintro _ ⟨⟩) (inv.toOwned.congr fun d => ?_)
            simp only [owners, State.shadowPtr, hs, hchunks, Refill.child, one_none, one_some,
              List.count_cons, beq_iff_eq]
            omega

/-- The worker works on the bursts of the chunk that it has taken. -/
theorem Inv.lazy_worked (inv : Inv size s) (hc : s.lazy.child = some c) {w : Refill} {m : Store}
    (hw : w.child = some c) (hm : Moves c s.mem m)
    (hreset : ∀ c, w = .prepare c → m.chunk c = none) : Inv size {s with lazy := w, mem := m} := by
  have hrun : s.lazy ≠ .idle := by
    intro h
    rw [h] at hc
    cases hc
  refine inv.lazy_at hrun hm.fresh hreset ?_
  refine (inv.toOwned.moved (owners_child hc) hm).congr fun d => ?_
  simp only [owners, State.shadowPtr, hw, hc]

theorem set_none_of_none {m : Store} (h : m.chunk c = none) : m.set c none = m := by
  simp only [Store.set, ← h, Function.update_eq_self]

/-- The region is reset after the bursts were freed, so that none is forgotten. -/
theorem Inv.lazy_prepare (inv : Inv size s) (hs : s.lazy = .prepare c)
    (h : lazyStep size env s = some t) : Inv size t := by
  have hc : s.lazy.child = some c := by rw [hs]; rfl
  have hlive := inv.live (owners_child hc)
  have hmem : (if env.remaining then s.mem.set c none else s.mem) = s.mem := by
    rw [set_none_of_none (inv.reset c hs), ite_self]
  have hfill := fillChunk_moves env inv.sound hlive.1 hlive.2.1
  simp only [lazyStep, hs, hmem] at h
  split at h
  · cases h
    exact inv.lazy_worked hc (w := .start c) rfl hfill (by rintro _ ⟨⟩)
  · cases h
    have filled := inv.toOwned.moved (owners_child hc) hfill
    have hfree := freeBurst_moves (c := c) filled.sound (by rw [hfill.fresh]; exact hlive.1)
    exact inv.lazy_worked hc (w := .commit c false) rfl (hfill.trans hfree) (by rintro _ ⟨⟩)

theorem Inv.lazy_start (inv : Inv size s) (hs : s.lazy = .start c)
    (h : lazyStep size env s = some t) : Inv size t := by
  have hc : s.lazy.child = some c := by rw [hs]; rfl
  have hlive := inv.live (owners_child hc)
  simp only [lazyStep, hs] at h
  split at h
  · cases h
    exact inv.lazy_worked hc (w := .commit c false) rfl (Moves.refl c _) (by rintro _ ⟨⟩)
  · split at h
    · cases h
      exact inv.lazy_worked hc (w := .commit c false) rfl (Moves.refl c _) (by rintro _ ⟨⟩)
    · next m hm =>
      cases h
      exact inv.lazy_worked hc (w := .commit c env.ret) rfl
        (writeChunk_moves inv.sound hlive.1 hm) (by rintro _ ⟨⟩)

/-- The chunk goes back to the list, to the cleanup list, or stays with the worker that frees
it. -/
theorem Inv.lazy_commit {ok : Bool} (inv : Inv size s) (hs : s.lazy = .commit c ok)
    (h : lazyStep size env s = some t) : Inv size t := by
  have hrun : s.lazy ≠ .idle := by simp [hs]
  have kept (st : RefillState) : Inv size {s with lazy := .release c, lazyRefillState := st} := by
    refine inv.lazy_at hrun rfl (by rintro _ ⟨⟩) (inv.toOwned.congr fun d => ?_)
    simp only [owners, State.shadowPtr, hs, Refill.child]
  have deferred : Inv size {s with
      lazy := .idle, lazyRefillState := .idle, cleanup := s.cleanup ++ [c]} := by
    refine inv.lazy_at hrun rfl (by rintro _ ⟨⟩) (inv.toOwned.congr fun d => ?_)
    simp only [owners, State.shadowPtr, hs, Refill.child, one_none, one_some, List.count_append,
      List.count_cons, List.count_nil, beq_iff_eq]
    omega
  simp only [lazyStep, hs] at h
  split at h
  · cases h
    exact kept _
  · next hissued =>
    split at h
    · cases h
      exact kept _
    · split at h
      · cases h
        exact deferred
      · split at h
        · cases h
          refine deferred.phase_at trivial fun hstopped => ?_
          rw [show _ = Phase.issued from not_not.mp hissued] at hstopped
          exact hstopped
        · split at h
          · cases h
            exact deferred
          · cases h
            refine inv.lazy_at hrun rfl (by rintro _ ⟨⟩) (inv.toOwned.congr fun d => ?_)
            simp only [owners, State.shadowPtr, hs, Refill.child, one_none, one_some,
              List.count_cons, beq_iff_eq]
            omega

theorem lazyStep_inv (inv : Inv size s) (h : lazyStep size env s = some t) : Inv size t := by
  cases hs : s.lazy with
  | idle =>
    simp only [lazyStep, hs] at h
    cases h
  | claim => exact inv.lazy_claim hs h
  | refill c =>
    have hc : s.lazy.child = some c := by rw [hs]; rfl
    simp only [lazyStep, hs] at h
    cases h
    refine inv.lazy_worked hc (w := .prepare c) rfl
      (freeBurst_moves inv.sound (inv.live (owners_child hc)).1) ?_
    rintro d ⟨⟩
    exact freeBurst_chunk size c s.mem
  | prepare c => exact inv.lazy_prepare hs h
  | start c => exact inv.lazy_start hs h
  | commit c ok => exact inv.lazy_commit hs h
  | release c =>
    simp only [lazyStep, hs] at h
    cases h
    refine inv.lazy_at (by simp [hs]) (freeUnlinked_fresh (some c)) (by rintro _ ⟨⟩) ?_
    refine inv.toOwned.freed (o := some c) fun d => ?_
    simp only [owners, State.shadowPtr, hs, Refill.child, one_none]
    omega

end Lazy

/-! ### The channel -/

section Channel
variable {size : Nat} {s t : State} {env : Env} {c : Nat}

theorem Inv.detached (inv : Inv size s) (h : s.phase = .waiting ∨ s.phase = .issued) :
    Inv size {s with phase := .detached} := by
  refine inv.phase_at trivial fun hstopped => ?_
  rcases h with h | h <;>
  · rw [h] at hstopped
    exact hstopped

/-- The first chunk is staged while no worker runs. -/
theorem Inv.startTransfer (inv : Inv size s) (hissued : s.phase = .issued)
    (hquiet : QuietShadow s) : Inv size (startTransfer env s) := by
  simp only [Ownership.startTransfer]
  split
  · exact inv
  · split
    · exact inv.detached (.inr hissued)
    · next child rest hchunks =>
      have hmem : child ∈ s.chunks := by simp [hchunks]
      obtain ⟨hshadow, hnext, hlocal, -⟩ := inv.listed hmem
      have hptr : s.shadowChunk ≠ some child := by
        rw [State.shadowPtr, hquiet.1] at hshadow
        exact hshadow
      split
      · exact {inv with
          staged := fun _ _ _ _ => hquiet
          phase := .of_loose (by rw [show _ = Phase.issued from hissued]; trivial)
          old := fun a ha => by
            cases ha
            exact ⟨(inv.live (owners_mem hmem)).1, hptr, hnext, hlocal⟩}
      · exact inv.detached (.inr hissued)

/-- The launch worker asks for a build at most; a build is on, and the worker is not. -/
theorem launch_inv (inv : Inv size s) (h : launch size env s = some t) : Inv size t := by
  simp only [launch] at h
  split at h
  · cases h
  · next child hstaged =>
    have unstaged := inv.unstaged
    split at h
    · cases h
      exact unstaged
    · next hnot =>
      simp only [not_or, not_not] at hnot
      obtain ⟨-, hissued, hhead⟩ := hnot
      have hmem : child ∈ s.chunks := List.mem_of_head? hhead
      obtain ⟨hshadow, -, -, hlazy⟩ := inv.listed hmem
      split at h
      · cases h
        exact unstaged
      · next m hm =>
        have written := unstaged.moved
          (writeChunk_moves inv.sound (inv.live (owners_mem hmem)).1 hm) (owners_mem hmem)
          (fun _ _ => writeChunk_hasData hm) fun h => hlazy (by rw [show s.lazy = _ from h]; rfl)
        split at h
        · cases h
          exact written
        · split at h
          · next hbuilding =>
            have hquiet := inv.staged child hstaged hhead hbuilding.2
            split at h
            · next hwq =>
              cases h
              have hinit := inv.initialized (by simp [hissued, Stopped]) (.inl hbuilding.2)
              exact {written with
                queued := fun _ hready => by cases hready.symm.trans hbuilding.2
                apart := fun h => by
                  simp [hquiet.1, Shadow.inBuild] at h
                staged := by rintro _ ⟨⟩
                fixed := fun h => absurd (.inl hbuilding.2) (inv.fixed h).1
                single := fun _ => inv.single (.inr (.inr (.inl hbuilding.2)))
                shadowWork := fun _ => ⟨hinit, hwq⟩
                phase := .of_loose (by rw [show _ = Phase.issued from hissued]; trivial)}
            · cases h
              exact written.state_at _ (by simp [awaited])
          · cases h
            exact written

/-- What Done does to the build. -/
theorem Inv.deferLazyDone (inv : Inv size s) (env : Env) (hissued : s.phase = .issued) :
    Inv size (deferLazyDone env s).1 ∧ (deferLazyDone env s).1.phase = .issued := by
  have hloose : Loose s.phase := by rw [hissued]; trivial
  simp only [Ownership.deferLazyDone]
  split
  · exact ⟨inv, hissued⟩
  · split
    · split
      · exact ⟨inv.state_at _ (by simp [awaited]), hissued⟩
      · refine ⟨inv.cancelBuild, ?_⟩
        simp only [Ownership.cancelBuild]
        split <;> exact hissued
    · have handed (hstate : s.shadowState = .ready ∨ s.shadowState = .building) :=
        inv.handover hloose hstate (p := s.shadowPending || s.shadowWq) fun hp => by
          have hinit := inv.initialized (by simp [hissued, Stopped])
            (hstate.elim (fun h => .inr (.inl h)) .inl)
          exact (Bool.or_eq_true .. ▸ hp).imp id fun hwq => ⟨hinit, hwq⟩
      split
      · next hstate => exact ⟨handed (.inl hstate), hissued⟩
      · next hstate => exact ⟨handed (.inr hstate), hissued⟩
      · split
        · refine ⟨{inv with lazyWork := fun h => ?_, phase := .of_loose hloose}, hissued⟩
          rcases h with h | h
          · rcases (Bool.or_eq_true .. ▸ h) with h | h
            · exact inv.lazyWork (.inl h)
            · exact (Bool.and_eq_true .. ▸ h)
          · exact inv.lazyWork (.inr h)
        · exact ⟨inv, hissued⟩
      · exact ⟨inv, hissued⟩
      · exact ⟨inv, hissued⟩

theorem Inv.finishDone (inv : Inv size s) (hissued : s.phase = .issued)
    (hmore : s.chunks ≠ [] → QuietShadow s) :
    Inv size (finishDone env s) := by
  simp only [Ownership.finishDone]
  split
  · split
    · next hchunks => exact inv.startTransfer hissued (hmore hchunks)
    · exact inv.detached (.inr hissued)
  · split
    · exact (inv.state_at .idle (by simp [awaited])).detached (.inr hissued)
    · refine inv.cancelBuild.detached (.inr ?_)
      simp only [Ownership.cancelBuild]
      split <;> exact hissued
  · exact inv

theorem doneInterrupt_inv (inv : Inv size s) (hissued : s.phase = .issued) :
    Inv size (doneInterrupt size env s) := by
  simp only [doneInterrupt]
  split
  · next hnil => exact inv.finishDone hissued fun h => absurd hnil h
  · obtain ⟨deferred, hphase⟩ := inv.deferLazyDone env hissued
    split
    · next u heq =>
      rw [heq] at deferred
      exact deferred
    · next u heq =>
      rw [heq] at deferred hphase
      have retired := deferred.retire (by rw [hphase]; trivial)
      obtain ⟨chunks, cleanup, mem, hframe⟩ := retire_frame size u
      refine retired.finishDone (by rw [hframe]; exact hphase) fun hmore => ?_
      -- with a shadow there is one chunk at most, so that none is left
      by_contra hnot
      rw [hframe] at hnot
      exact hmore (retire_chunks size (deferred.single (.inr (.inl hnot))))

theorem Inv.abortInterrupt (inv : Inv size s) (hissued : s.phase = .issued) :
    Inv size (abortInterrupt s) := by
  refine inv.cancelBuild.detached (.inr ?_)
  simp only [Ownership.cancelBuild]
  split <;> exact hissued

theorem Inv.terminateAll (inv : Inv size s) (drain : Bool) : Inv size (terminateAll drain s) := by
  simp only [Ownership.terminateAll]
  split
  · next h => exact inv.unstaged.detached h.2
  · exact inv.unstaged

/-- A queued build starts, and does not find one that is announced only. -/
theorem Inv.shadowRun (inv : Inv size s) (hpending : s.shadowPending = true)
    (hidle : s.shadow = .idle) : Inv size {s with shadowPending := false, shadow := .entry} := by
  have hactive : ¬QuietShadow s := fun h => by simp [h.2] at hpending
  have hloose := inv.active hactive
  exact {inv with
    aliased := by rintro _ ⟨⟩
    taken := by rintro ⟨⟩
    rebuilt := by rintro ⟨⟩
    queued := fun _ => inv.queued (.inl hpending)
    apart := fun _ _ => rfl
    staged := fun a ha hhead hstate => absurd (inv.staged a ha hhead hstate) hactive
    fixed := fun h => absurd (inv.fixed h).2.1 hactive
    single := fun _ => inv.single (.inr (.inl hactive))
    shadowWork := fun _ => inv.shadowWork (.inl hpending)
    queue := by rintro _ ⟨⟩
    phase := .of_loose hloose
    old := fun a ha => ⟨(inv.old a ha).1, (inv.old a ha).2.1, (inv.old a ha).2.2.1, (by rintro ⟨⟩)⟩
    built := fun hphase hsome hstate => by
      obtain ⟨d, hd, hdata⟩ := inv.built hphase hsome hstate
      rw [State.shadowPtr, hidle] at hd
      exact ⟨d, hd, hdata⟩
    written := by rintro _ ⟨⟩
    toOwned := inv.toOwned.congr fun d => by
      simp only [owners, State.shadowPtr, hidle, Shadow.dangling, Shadow.next, Bool.false_eq_true,
        if_false]}

theorem Inv.lazyRun (inv : Inv size s) (hpending : s.lazyPending = true) (hidle : s.lazy = .idle) :
    Inv size {s with lazyPending := false, lazy := .claim} :=
  have hactive : ¬QuietLazy s := fun h => by simp [h.2] at hpending
  {inv with
    lazyWork := fun _ => inv.lazyWork (.inl hpending)
    phase := inv.phase.lazy_at hactive false .claim s.lazyRefillState s.chunks s.cleanup s.mem
    reset := by rintro _ ⟨⟩
    toOwned := inv.toOwned.congr fun d => by
      simp only [owners, State.shadowPtr, hidle, Refill.child]}

end Channel

/-! ### Cleanup, and the pool -/

section Device
variable {size : Nat} {s t : State} {c : Nat}

theorem Inv.cleanupRun (inv : Inv size s) (h : s.draining = []) :
    Inv size {s with draining := s.cleanup, cleanup := []} :=
  {inv with
    toOwned := inv.toOwned.congr fun d => by
      simp only [owners, State.shadowPtr, h, List.count_nil]
      omega}

theorem Inv.cleanupStep {rest : List Nat} (inv : Inv size s) (h : s.draining = c :: rest) :
    Inv size {s with draining := rest, mem := freeUnlinkedChunk size c s.mem} := by
  refine inv.freed (o := some c) rfl ?_ {inv.toPointers with} {inv.toKnown with}
  intro d
  simp only [owners, State.shadowPtr, h, one_some, List.count_cons, beq_iff_eq]
  omega

/-- What others do with the pool does not touch the chunks. -/
theorem Inv.pool_at (inv : Inv size s) {pool others : List Nat}
    (h : ∀ b, pool.count b + others.count b = s.mem.pool.count b + s.mem.others.count b) :
    Inv size {s with mem := {s.mem with pool := pool, others := others}} :=
  {inv with
    sound := ⟨fun b => by rw [← inv.sound.bursts b, h b], inv.sound.clean⟩}

theorem Inv.take {b : Nat} {rest : List Nat} (inv : Inv size s) (h : s.mem.pool = b :: rest) :
    Inv size {s with mem := {s.mem with pool := rest, others := b :: s.mem.others}} := by
  refine inv.pool_at fun x => ?_
  rw [h, List.count_cons, List.count_cons]
  omega

/-- A burst that comes back finds room. -/
theorem Inv.give {b : Nat} (inv : Inv size s) (h : b ∈ s.mem.others) :
    Inv size {s with mem := {s.mem with
      pool := push size s.mem.pool (.pool b), others := s.mem.others.erase b}} := by
  have herase (x : Nat) :
      s.mem.others.count x = (s.mem.others.erase b).count x + one (some b) x := by
    rw [(List.perm_cons_erase h).count_eq, List.count_cons, one_some]
    simp only [beq_iff_eq]
  have hroom : s.mem.pool.length < size := by
    have hlength : (b :: s.mem.pool).length ≤ size := by
      refine Custody.length_le_of_count fun x => ?_
      have hbursts := inv.sound.bursts x
      have := herase x
      simp only [one_some] at this
      simp only [List.count_cons, beq_iff_eq]
      omega
    exact hlength
  refine inv.pool_at fun x => ?_
  have := herase x
  simp only [one_some] at this
  simp only [push, if_pos hroom, List.count_cons, beq_iff_eq]
  omega

theorem Inv.destroyWq (inv : Inv size s) (h : drained s = true) :
    Inv size {s with shadowWq := false} := by
  simp only [drained, Bool.and_eq_true, Bool.not_eq_true', decide_eq_true_eq] at h
  obtain ⟨⟨⟨⟨-, hpending⟩, hshadow⟩, hlazyPending⟩, hlazy⟩ := h
  exact {inv with
    shadowWork := fun h => by simp [hpending, hshadow] at h
    lazyWork := fun h => by simp [hlazyPending, hlazy] at h}

end Device

/-! ### `dw_edma_free_desc` -/

section FreeDesc
variable {size : Nat} {s t : State}

theorem Inv.free_at (inv : Inv size s) {f : Free} (hp : s.phase = .freeing f) : FreeAt s f := by
  have phase := inv.phase
  simp only [PhaseAt, hp] at phase
  exact phase

theorem Inv.free_check (inv : Inv size s) (hp : s.phase = .freeing .check)
    (h : freeStep size s = some t) : Inv size t := by
  simp only [freeStep, hp] at h
  split at h
  · next hinit =>
    cases h
    -- a work item that was never initialized is not queued
    have hquiet : QuietShadow s := by
      by_contra hactive
      refine hinit (inv.shadowWork ?_).1
      by_cases hidle : s.shadow = .idle
      · exact .inl (Bool.eq_true_of_not_eq_false fun h => hactive ⟨hidle, h⟩)
      · exact .inr hidle
    exact inv.phase_at hquiet fun _ => trivial
  · split at h
    · cases h
      exact inv.phase_at trivial (by rw [hp]; exact False.elim)
    · cases h
      exact inv.phase_at trivial (by rw [hp]; exact False.elim)

theorem Inv.free_syncShadow (inv : Inv size s) (hp : s.phase = .freeing .syncShadow)
    (h : freeStep size s = some t) : Inv size t := by
  simp only [freeStep, hp] at h
  split at h
  · next hidle =>
    cases h
    have hquiet : QuietShadow {s with
        shadowPending := false, shadowWorkInitialized := false, phase := .freeing .freeShadow} :=
      ⟨hidle, rfl⟩
    exact {inv with
      queued := fun h => inv.queued (h.imp (by rintro ⟨⟩) id)
      apart := fun _ _ => rfl
      staged := fun _ _ _ _ => hquiet
      fixed := fun h => ⟨(inv.fixed h).1, hquiet, (inv.fixed h).2.2⟩
      single := fun h => inv.single (h.imp id (Or.imp (absurd hquiet) id))
      initialized := fun h => absurd trivial h
      shadowWork := fun h => h.elim (by rintro ⟨⟩) (absurd hidle)
      phase := hquiet
      built := fun h => absurd trivial h}
  · cases h

/-- The shadow is freed once no worker can come back to it. -/
theorem Inv.free_freeShadow (inv : Inv size s) (hp : s.phase = .freeing .freeShadow)
    (h : freeStep size s = some t) : Inv size t := by
  have hquiet : QuietShadow s := inv.free_at hp
  simp only [freeStep, hp] at h
  cases h
  refine inv.freed (o := s.shadowChunk) rfl ?_ ?_ ?_
  · intro d
    simp only [owners, State.shadowPtr, hquiet.1, Shadow.dangling, one_none, Bool.false_eq_true,
      if_false]
    omega
  · exact {inv.toPointers with
      aliased := fun d hd => by
        simp only [hquiet.1, Shadow.chunk] at hd
        cases hd
      fixed := fun h => ⟨(inv.fixed h).1, hquiet, rfl, (inv.fixed h).2.2.2⟩
      single := fun h => inv.single (.inr (h.resolve_left (absurd rfl)))
      initialized := fun h => absurd trivial h
      phase := ⟨hquiet, rfl⟩}
  · exact {inv.toKnown with
      old := fun a ha => ⟨(inv.old a ha).1, (by rintro ⟨⟩), (inv.old a ha).2.2⟩
      built := fun h => absurd trivial h}

theorem Inv.free_freeNext (inv : Inv size s) (hp : s.phase = .freeing .freeNext)
    (h : freeStep size s = some t) : Inv size t := by
  obtain ⟨hquiet, hnone⟩ : QuietShadow s ∧ s.shadowChunk = none := inv.free_at hp
  simp only [freeStep, hp] at h
  cases h
  refine inv.freed (o := s.shadowNextChunk) rfl ?_ ?_ ?_
  · intro d
    simp only [owners, State.shadowPtr, one_none]
    omega
  · exact {inv.toPointers with
      fresh := fun _ => rfl
      taken := fun _ => rfl
      rebuilt := fun _ _ => rfl
      fixed := fun h => ⟨(inv.fixed h).1, hquiet, hnone, rfl⟩
      initialized := fun h => absurd trivial h
      phase := ⟨hquiet, hnone, rfl⟩}
  · exact {inv.toKnown with
      old := fun a ha => ⟨(inv.old a ha).1, (inv.old a ha).2.1, (by rintro ⟨⟩), (inv.old a ha).2.2.2⟩
      built := fun h => absurd trivial h}

theorem Inv.free_markLazy (inv : Inv size s) (hp : s.phase = .freeing .markLazy)
    (h : freeStep size s = some t) : Inv size t := by
  obtain ⟨hquiet, hnone, hnext⟩ :
    QuietShadow s ∧ s.shadowChunk = none ∧ s.shadowNextChunk = none := inv.free_at hp
  simp only [freeStep, hp] at h
  split at h
  · next hinit =>
    cases h
    have hlazy : QuietLazy s := by
      by_contra hactive
      refine hinit (inv.lazyWork ?_).1
      by_cases hidle : s.lazy = .idle
      · exact .inl (Bool.eq_true_of_not_eq_false fun h => hactive ⟨hidle, h⟩)
      · exact .inr hidle
    exact inv.phase_at ⟨hquiet, hnone, hnext, hlazy⟩ fun _ => trivial
  · cases h
    have marked : Inv size {s with lazyRefillState := .idle} := {inv with}
    exact marked.phase_at ⟨hquiet, hnone, hnext⟩ fun _ => trivial

theorem Inv.free_syncLazy (inv : Inv size s) (hp : s.phase = .freeing .syncLazy)
    (h : freeStep size s = some t) : Inv size t := by
  obtain ⟨hquiet, hnone, hnext⟩ :
    QuietShadow s ∧ s.shadowChunk = none ∧ s.shadowNextChunk = none := inv.free_at hp
  simp only [freeStep, hp] at h
  split at h
  · next hidle =>
    cases h
    exact {inv with
      fixed := by rintro ⟨⟩
      initialized := fun h => absurd trivial h
      lazyWork := fun h => h.elim (by rintro ⟨⟩) (absurd hidle)
      phase := ⟨hquiet, hnone, hnext, hidle, rfl⟩
      built := fun h => absurd trivial h}
  · cases h

/-- `dw_edma_free_chunk`. -/
theorem Inv.free_freeChunk (inv : Inv size s) (hp : s.phase = .freeing .freeChunk)
    (h : freeStep size s = some t) : Inv size t := by
  obtain ⟨hquiet, hnone, hnext, hlazy⟩ :
    QuietShadow s ∧ s.shadowChunk = none ∧ s.shadowNextChunk = none ∧ QuietLazy s := inv.free_at hp
  simp only [freeStep, hp] at h
  split at h
  · next hnil =>
    cases h
    exact inv.phase_at ⟨hquiet, hnone, hnext, hlazy, hnil⟩ fun _ => trivial
  · next c rest hcons =>
    cases h
    refine inv.freed (o := some c) rfl ?_ ?_ {inv.toKnown with built := fun h => absurd trivial h}
    · intro d
      simp only [owners, State.shadowPtr, hcons, one_some, List.count_cons, beq_iff_eq]
      omega
    · exact {inv.toPointers with
        staged := fun _ _ _ _ => hquiet
        single := fun h => by
          have := inv.single h
          rw [hcons, List.length_cons] at this
          exact Nat.le_of_succ_le this
        initialized := fun h => absurd trivial h
        phase := ⟨hquiet, hnone, hnext, hlazy⟩}

theorem freeStep_inv (inv : Inv size s) (h : freeStep size s = some t) : Inv size t := by
  cases hp : s.phase with
  | preparing | waiting | issued =>
    simp only [freeStep, hp] at h
    cases h
  | detached =>
    simp only [freeStep, hp] at h
    cases h
    exact inv.phase_at trivial (by rw [hp]; exact False.elim)
  | freeing f =>
    cases f with
    | check => exact inv.free_check hp h
    | mark =>
      simp only [freeStep, hp] at h
      cases h
      exact (inv.state_at .cancelled (by simp [awaited])).phase_at trivial (by
        rw [show _ = Phase.freeing .mark from hp]
        exact False.elim)
    | syncShadow => exact inv.free_syncShadow hp h
    | freeShadow => exact inv.free_freeShadow hp h
    | freeNext => exact inv.free_freeNext hp h
    | markLazy => exact inv.free_markLazy hp h
    | syncLazy => exact inv.free_syncLazy hp h
    | freeChunk => exact inv.free_freeChunk hp h
    | returned =>
      simp only [freeStep, hp] at h
      cases h

end FreeDesc

/-! ### Preparation -/

section Prep
variable {size : Nat} {s t : State} {env : Env} {c : Nat}

/-- Nothing of the descriptor is in use yet. -/
structure Idle (s : State) : Prop where
  shadow : QuietShadow s
  lazy : QuietLazy s
  staged : s.staged = none
  state : ¬awaited s.shadowState
  chunk : s.shadowChunk = none
  next : s.shadowNextChunk = none
  fixed : s.lazyWorkInitialized = false

theorem Inv.idle (inv : Inv size s) (hp : s.phase = .preparing) : Idle s := by
  have phase := inv.phase
  simp only [PhaseAt, hp] at phase
  obtain ⟨hshadow, hlazy, hstaged, hstate, hchunk, hnext, hfixed⟩ := phase
  exact ⟨hshadow, hlazy, hstaged, hstate, hchunk, hnext, hfixed⟩

/-- While nothing is in use, what counts is who has the chunks. -/
theorem Inv.prepared (inv : Inv size s) (hp : s.phase = .preparing) {p : Phase} {chunks : List Nat}
    {m : Store} (hphase : p = .preparing ∨ p = .waiting ∨ p = .freeing .check)
    (howned : Owned size (owners {s with chunks := chunks, mem := m, phase := p}) m) :
    Inv size {s with chunks := chunks, mem := m, phase := p} := by
  have idle := inv.idle hp
  exact {inv with
    staged := fun _ ha => by cases idle.staged.symm.trans ha
    single := fun h => by
      rcases h with h | h | h
      · exact absurd idle.chunk h
      · exact absurd idle.shadow h
      · exact absurd h idle.state
    initialized := fun _ h => absurd h idle.state
    phase := by
      rcases hphase with rfl | rfl | rfl
      · exact ⟨idle.shadow, idle.lazy, idle.staged, idle.state, idle.chunk, idle.next, idle.fixed⟩
      · exact ⟨idle.shadow, idle.lazy, idle.staged⟩
      · trivial
    old := fun _ ha => by cases idle.staged.symm.trans ha
    built := fun _ h => absurd idle.next h
    written := fun d hd => by
      simp only [idle.shadow.1, Shadow.written] at hd
      cases hd
    reset := fun d hd => by cases idle.lazy.1.symm.trans hd
    toOwned := howned}

theorem prepChunk_inv (inv : Inv size s) (hp : s.phase = .preparing) :
    Inv size (prepChunk env s) := by
  simp only [prepChunk]
  split
  · exact inv.prepared hp (.inr (.inr rfl)) inv.toOwned
  · -- the new chunk has an owner for a moment, or for good
    have allocated : Owned size (fun d => owners s d + one (some s.mem.fresh) d)
        (allocChunkForChan s.mem) := inv.toOwned.allocated fun _ => rfl
    have hnew : (allocChunkForChan s.mem).chunk s.mem.fresh = none := set_chunk_self ..
    split
    · refine inv.prepared hp (.inr (.inr rfl)) ?_
      have freed : Owned size (owners s)
          (freeUnlinked size (some s.mem.fresh) (allocChunkForChan s.mem)) :=
        allocated.freed fun _ => rfl
      simp only [freeUnlinked, freeUnlinkedChunk, freeBurst, hnew] at freed
      exact freed
    · next m hm =>
      refine inv.prepared hp (.inl hp) ?_
      refine (allocated.moved (c := s.mem.fresh) ?_ (allocBurst_moves hm)).congr fun d => ?_
      · simp only [one_some, if_true]
        omega
      · simp only [owners, State.shadowPtr, List.count_append, List.count_cons, List.count_nil,
          one_some, beq_iff_eq]
        omega

theorem prepFill_inv (inv : Inv size s) (hp : s.phase = .preparing) :
    Inv size (prepFill size env s) := by
  simp only [prepFill]
  split
  · exact inv
  · next c hlast =>
    have hpos := owners_mem (List.mem_of_getLast? hlast)
    have hlive := inv.live hpos
    have hmoves : Moves c s.mem (fillSgBursts size env.need env.entries c s.mem).1 :=
      fillSgBursts_moves inv.sound hlive.1 hlive.2.1
    have filled := inv.toOwned.moved hpos hmoves
    split
    · exact inv.prepared hp (.inl hp) filled
    · exact inv.prepared hp (.inr (.inr rfl)) filled

theorem prepFixed_inv (inv : Inv size s) (hp : s.phase = .preparing) {b : Bool} {m : Store}
    (howned : Owned size (owners s) m) :
    Inv size (prepFixed {s with shadowWorkInitialized := b, mem := m}) := by
  have idle := inv.idle hp
  have waiting : Inv size {s with mem := m, phase := .waiting} :=
    inv.prepared hp (.inr (.inl rfl)) howned
  exact {waiting with
    fixed := fun _ => ⟨idle.state, idle.shadow, idle.chunk, idle.next⟩
    initialized := fun _ h => absurd h idle.state
    shadowWork := fun h => by simp [prepFixed, idle.shadow.1, idle.shadow.2] at h
    lazyWork := fun h => by simp [prepFixed, idle.lazy.1, idle.lazy.2] at h
    phase := waiting.phase}

theorem prepShadow_inv (inv : Inv size s) (hp : s.phase = .preparing) (hone : s.chunks.length = 1) :
    Inv size (prepShadow size env s) := by
  have idle := inv.idle hp
  have allocated : Owned size (fun d => owners s d + one (some s.mem.fresh) d)
      (allocChunkForChan s.mem) := inv.toOwned.allocated fun _ => rfl
  simp only [prepShadow]
  split
  · exact prepFixed_inv inv hp inv.toOwned
  · split
    · exact prepFixed_inv inv hp (allocated.freed (o := some s.mem.fresh) fun _ => rfl)
    · exact {inv with
        aliased := fun d hd => by
          simp only [idle.shadow.1, Shadow.chunk] at hd
          cases hd
        fresh := fun _ => idle.next
        taken := fun _ => idle.next
        rebuilt := fun _ _ => idle.next
        queued := fun _ => (by rintro ⟨⟩)
        apart := fun _ _ => idle.shadow.2
        staged := fun _ _ _ _ => idle.shadow
        fixed := fun h => by cases idle.fixed.symm.trans h
        single := fun _ => Nat.le_of_eq hone
        initialized := fun _ _ => rfl
        shadowWork := fun h => by simp [idle.shadow.1, idle.shadow.2] at h
        phase := ⟨idle.shadow, idle.lazy, idle.staged⟩
        old := fun _ ha => by cases idle.staged.symm.trans ha
        built := fun _ h => absurd idle.next h
        written := fun d hd => by
          simp only [idle.shadow.1, Shadow.written] at hd
          cases hd
        reset := fun d hd => by cases idle.lazy.1.symm.trans hd
        toOwned := allocated.congr fun d => by
          simp only [owners, State.shadowPtr, idle.shadow.1, idle.chunk, Shadow.dangling, one_none,
            Bool.false_eq_true, if_false]
          omega}

theorem Inv.issue (inv : Inv size s) (hp : s.phase = .waiting) :
    Inv size (Ownership.startTransfer env {s with phase := .issued}) := by
  have phase := inv.phase
  simp only [PhaseAt, hp] at phase
  have issued := inv.phase_at (p := .issued) trivial (by rw [hp]; exact id)
  exact issued.startTransfer rfl phase.1

end Prep

/-! ### Runs -/

theorem step_inv {size : Nat} {s t : State} {l : Label} (inv : Inv size s)
    (h : step size s l = some t) : Inv size t := by
  cases l with
  | prepChunk env =>
    obtain ⟨hp, rfl⟩ : s.phase = .preparing ∧ prepChunk env s = t := by simpa [step] using h
    exact prepChunk_inv inv hp
  | prepFill env =>
    obtain ⟨hp, rfl⟩ : s.phase = .preparing ∧ prepFill size env s = t := by simpa [step] using h
    exact prepFill_inv inv hp
  | prepShadow env =>
    obtain ⟨⟨hp, hone⟩, rfl⟩ : (s.phase = .preparing ∧ s.chunks.length = 1) ∧
      prepShadow size env s = t := by simpa [step] using h
    exact prepShadow_inv inv hp hone
  | prepFixed =>
    obtain ⟨⟨hp, -⟩, rfl⟩ : (s.phase = .preparing ∧ s.chunks.length = 1) ∧ prepFixed s = t := by
      simpa [step] using h
    exact prepFixed_inv inv hp inv.toOwned
  | prepDone =>
    obtain ⟨hp, rfl⟩ : s.phase = .preparing ∧ {s with phase := .waiting} = t := by
      simpa [step] using h
    exact inv.prepared hp (.inr (.inl rfl)) inv.toOwned
  | issue env =>
    obtain ⟨hp, rfl⟩ : s.phase = .waiting ∧ startTransfer env {s with phase := .issued} = t := by
      simpa [step] using h
    exact inv.issue hp
  | launch env => exact launch_inv inv h
  | done env =>
    obtain ⟨hp, rfl⟩ : s.phase = .issued ∧ doneInterrupt size env s = t := by simpa [step] using h
    exact doneInterrupt_inv inv hp
  | abort =>
    obtain ⟨hp, rfl⟩ : s.phase = .issued ∧ abortInterrupt s = t := by simpa [step] using h
    exact inv.abortInterrupt hp
  | terminate drain =>
    cases h
    exact inv.terminateAll drain
  | shadowRun =>
    obtain ⟨⟨hpending, hidle⟩, rfl⟩ : (s.shadowPending = true ∧ s.shadow = .idle) ∧
      {s with shadowPending := false, shadow := .entry} = t := by simpa [step] using h
    exact inv.shadowRun hpending hidle
  | lazyRun =>
    obtain ⟨⟨hpending, hidle⟩, rfl⟩ : (s.lazyPending = true ∧ s.lazy = .idle) ∧
      {s with lazyPending := false, lazy := .claim} = t := by simpa [step] using h
    exact inv.lazyRun hpending hidle
  | cleanupRun =>
    obtain ⟨hnil, rfl⟩ : s.draining = [] ∧ {s with draining := s.cleanup, cleanup := []} = t := by
      simpa [step] using h
    exact inv.cleanupRun hnil
  | shadow env => exact shadowStep_inv inv h
  | lazy env => exact lazyStep_inv inv h
  | cleanup =>
    simp only [step] at h
    split at h
    · cases h
    · next c rest hcons =>
      cases h
      exact inv.cleanupStep hcons
  | free => exact freeStep_inv inv h
  | take =>
    simp only [step] at h
    split at h
    · cases h
    · next b rest hcons =>
      cases h
      exact inv.take hcons
  | give b =>
    simp only [step] at h
    split at h
    · next hmem =>
      cases h
      exact inv.give hmem
    · cases h
  | destroyWq =>
    simp only [step] at h
    split at h
    · next hdrained =>
      cases h
      exact inv.destroyWq hdrained
    · cases h

theorem start_inv (size : Nat) : Inv size (start size) where
  aliased := by rintro _ ⟨⟩
  fresh := by rintro ⟨⟩
  taken := by rintro ⟨⟩
  rebuilt := by rintro ⟨⟩
  queued h := h.elim (by rintro ⟨⟩) (by rintro ⟨⟩)
  apart h := h.elim (by rintro ⟨⟩) (by rintro ⟨⟩)
  staged := by rintro _ ⟨⟩
  fixed := by rintro ⟨⟩
  single _ := Nat.zero_le _
  initialized _ h := absurd h (by simp [start, awaited])
  shadowWork h := h.elim (by rintro ⟨⟩) (absurd rfl)
  lazyWork h := h.elim (by rintro ⟨⟩) (absurd rfl)
  queue := by rintro _ ⟨⟩
  phase := ⟨⟨rfl, rfl⟩, ⟨rfl, rfl⟩, rfl, by simp [start, awaited], rfl, rfl, rfl⟩
  old := by rintro _ ⟨⟩
  built _ h := absurd rfl h
  written := by rintro _ ⟨⟩
  reset := by rintro _ ⟨⟩
  sound := memInit_sound size
  linear _ := rfl

theorem run_inv {size : Nat} {s : State} {ls : List Label}
    (h : run (step size) (start size) ls = some s) : Inv size s :=
  invariant (step size) (fun _ _ _ inv hstep => step_inv inv hstep) (start_inv size) h

/-- The owners, and `kfree`, share what was allocated. -/
theorem owners_eq_holds (s : State) (c : Nat) :
    owners s c + s.mem.freed.count c = (holds s .chunkList).count c +
      (holds s .shadowChunk).count c + (holds s .shadowNextChunk).count c +
      (holds s .shadowWorker).count c + (holds s .lazyWorker).count c +
      (holds s .cleanupList).count c + (holds s .freed).count c := by
  have hshadow : (holds s .shadowChunk).count c = one s.shadowPtr c := by
    simp only [holds, State.shadowPtr]
    split
    · rfl
    · exact count_toList s.shadowChunk c
  rw [hshadow]
  simp only [holds, owners, count_toList, List.count_append]
  omega

theorem OwnedOnce.of_linear {s : State} {c : Nat} (h : owners s c + s.mem.freed.count c = 1) :
    OwnedOnce s c := by
  rw [owners_eq_holds] at h
  have hpair : ∀ o o', o' ≠ o → (holds s o).count c + (holds s o').count c ≤ 1 := by
    intro o o' hne
    cases o <;> cases o' <;> first | exact absurd rfl hne | omega
  have hsome : ∃ o, 0 < (holds s o).count c := by
    by_contra hnone
    simp only [not_exists, Nat.not_lt, Nat.le_zero] at hnone
    simp only [hnone] at h
    cases h
  obtain ⟨o, ho⟩ := hsome
  refine ⟨o, ?_, fun o' hne => ?_⟩
  · cases o <;> omega
  · have := hpair o o' hne
    exact List.count_eq_zero.mp (by omega)

/-- An environment in which nothing fails. -/
def smooth : Env :=
  ⟨true, false, false, true, false, true, true, true, false, .none, true, true, true, 2,
    [⟨false, true⟩, ⟨false, true⟩], [true]⟩

/-- The first shadow is built and takes over; the second build is cancelled by an abort while
the descriptor is being freed. -/
def abortedRun : List Label :=
  List.flatten [
    [.prepChunk smooth, .prepFill smooth, .prepShadow smooth, .issue smooth, .launch smooth],
    .shadowRun :: List.replicate 7 (.shadow smooth), [.done smooth, .shadowRun],
    List.replicate 4 (.shadow smooth), [.shadowRun, .shadow smooth, .abort],
    List.replicate 3 .free, List.replicate 3 (.shadow {smooth with remaining := false}),
    List.replicate 6 .free, [.cleanupRun, .cleanup]]

def aborted : State := ((run (step 6) (start 6) abortedRun).get (by decide +kernel))

end DxNpuDriver.Edma.Ownership
