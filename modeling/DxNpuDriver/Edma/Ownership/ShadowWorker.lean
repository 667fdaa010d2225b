import DxNpuDriver.Edma.Ownership.Invariant

/-! `dw_edma_shadow_build_work` and the chunks (`dw-edma-core.c`).

The worker moves chunks at a dozen places. While it runs it has `shadow_chunk` to itself, and
nobody else touches `shadow_next_chunk`; each lemma is one place of the worker. -/
namespace DxNpuDriver.Edma.Ownership
open Memory
open Transfer (ShadowState RefillState)

section Worker
variable {size : Nat} {s t : State} {env : Env} {c : Nat} {next : Option Nat}

/-- What the worker does to its words while it runs. -/
theorem Pointers.worker_at (inv : Pointers s) (hrun : s.shadow ≠ .idle) {st : ShadowState}
    {a b : Option Nat} {w : Shadow} {m : Store}
    (placed : Placed {s with
      shadowState := st, shadowChunk := a, shadowNextChunk := b, shadow := w, mem := m})
    (hbuilding : st = .building → s.shadowState = .building) :
    Pointers {s with
      shadowState := st, shadowChunk := a, shadowNextChunk := b, shadow := w, mem := m} :=
  {placed with
    staged := fun a ha hhead hstate => absurd (inv.staged a ha hhead (hbuilding hstate)).1 hrun
    fixed := fun h => absurd h (by simp [inv.unfixed hrun])
    single := fun _ => inv.single (.inr (.inl fun h => hrun h.1))
    initialized := fun _ _ => (inv.shadowWork (.inr hrun)).1
    shadowWork := fun _ => inv.shadowWork (.inr hrun)
    lazyWork := inv.lazyWork
    phase := .of_loose (inv.loose hrun)}

/-- Only the place of the worker changes, and its variables stay. -/
theorem Inv.shadow_at (inv : Inv size s) (hrun : s.shadow ≠ .idle) (w : Shadow)
    (hdangling : w.dangling = s.shadow.dangling) (hnext : w.next = s.shadow.next)
    (haliased : ∀ c, w.chunk = some c → s.shadowChunk = some c)
    (htaken : w.handed = true → s.shadowNextChunk = none)
    (hbuild : w.inBuild = true → s.shadow = .entry ∨ s.shadow.inBuild = true)
    (hrebuilt : w.inBuild = true → awaited s.shadowState → s.shadowNextChunk = none)
    (hdue : w.due = false) (hqueue : ∀ c, w ≠ .unqueued c)
    (hwritten : ∀ c, w.written = some c → hasData s.mem c = true) :
    Inv size {s with shadow := w} := by
  have hentry : w ≠ .entry := fun h => by simp [h, Shadow.due] at hdue
  refine ⟨inv.worker_at hrun ?_ id, ?_, ?_⟩
  · exact {inv.toPlaced with
      aliased := haliased
      taken := htaken
      rebuilt := hrebuilt
      queued := fun h => inv.queued (.inl (h.resolve_right (by simp [hdue])))
      apart := fun h => inv.apart (hbuild (h.resolve_left hentry))
      queue := hqueue}
  · refine {inv.toKnown with old := ?_, built := ?_, written := hwritten}
    · intro a ha
      rw [hnext]
      exact inv.old a ha
    · intro hphase h hstate
      obtain ⟨d, hd, hdata⟩ := inv.built hphase h hstate
      refine ⟨d, ?_, hdata⟩
      simpa only [State.shadowPtr, hdangling] using hd
  · refine inv.toOwned.congr fun d => ?_
    simp only [owners, State.shadowPtr, hdangling, hnext]

/-- The worker returns, and has no chunk of its own. -/
theorem Inv.shadow_idle (inv : Inv size s) (hrun : s.shadow ≠ .idle)
    (hdangling : s.shadow.dangling = false) (hnext : s.shadow.next = none) :
    Inv size {s with shadow := .idle} := by
  refine inv.shadow_at hrun .idle hdangling.symm hnext.symm ?_ ?_ ?_ ?_ ?_ ?_ ?_ <;>
    simp [Shadow.chunk, Shadow.handed, Shadow.inBuild, Shadow.due, Shadow.written]

theorem fillChunk_moves (env : Env) {m : Store} (hm : Sound size m) (hc : c < m.fresh)
    (hlive : c ∉ m.freed) : Moves c m (fillChunk size env c m).1 := by
  simp only [fillChunk]
  split
  · exact Moves.refl c m
  · split
    · exact Moves.refl c m
    · next m' halloc =>
      have hmoved := allocBurst_moves halloc
      have hsound := hmoved.sound hm hc hlive
      rw [← hmoved.fresh] at hc
      rw [← hmoved.freed] at hlive
      exact hmoved.trans (fillSgBursts_moves hsound hc hlive)

theorem fillChunk_hasData (env : Env) {m : Store} (h : hasData m c = true) :
    hasData (fillChunk size env c m).1 c = true := by
  simp only [fillChunk]
  split
  · exact h
  · split
    · exact h
    · next m' halloc =>
      have hdata := hasData_allocBurst (isSome_of_hasData h) halloc
      exact fillLoop_hasData (m := {m' with pool := m'.pool.drop env.need}) hdata

theorem Shadow.not_dangling {w : Shadow} (h : w.chunk = some c) : w.dangling = false := by
  cases w <;> simp_all [Shadow.chunk, Shadow.dangling]

theorem Shadow.not_idle {w : Shadow} (h : w.chunk = some c) : w ≠ .idle := by
  rintro rfl
  cases h

theorem Pointers.shadowPtr (inv : Pointers s) (h : s.shadow.chunk = some c) :
    s.shadowPtr = some c := by
  rw [State.shadowPtr, Shadow.not_dangling h]
  exact inv.aliased c h

/-- The worker works on the bursts of its chunk. -/
theorem Inv.worked {m : Store} (inv : Inv size s) (h : s.shadow.chunk = some c)
    (hm : Moves c s.mem m) (hdata : hasData s.mem c = true → hasData m c = true) :
    Inv size {s with mem := m} := by
  have hptr := inv.shadowPtr h
  refine inv.moved hm (owners_shadowPtr hptr) (fun _ => hdata) fun hlazy => ?_
  exact inv.refilled (by rw [hlazy]; rfl) hptr

/-- The worker takes over what it has announced before. -/
theorem Inv.consumeHandoff (inv : Inv size s) (hrun : s.shadow ≠ .idle)
    (hdangling : s.shadow.dangling = false) (hnext : s.shadow.next = none)
    (hc : s.shadowChunk = some c) : Inv size (consumeHandoff c s) := by
  refine ⟨inv.worker_at hrun ?_ id, ?_, ?_⟩
  · exact {
      aliased := fun d hd => by
        rw [← hd]
        exact hc
      fresh := fun _ => rfl
      taken := fun _ => rfl
      rebuilt := by rintro ⟨⟩
      queued := fun h => inv.queued (.inl (h.resolve_right (by rintro ⟨⟩)))
      apart := fun h => h.elim (by rintro ⟨⟩) (by rintro ⟨⟩)
      queue := (by rintro _ ⟨⟩)}
  · exact {inv.toKnown with
      old := fun a ha => ⟨(inv.old a ha).1, (inv.old a ha).2.1, (by rintro ⟨⟩), (inv.old a ha).2.2.1⟩
      built := fun _ h => absurd rfl h
      written := (by rintro _ ⟨⟩)}
  · refine inv.toOwned.congr fun d => ?_
    simp only [owners, State.shadowPtr, Ownership.consumeHandoff, hdangling, hnext, one_none]
    simp only [Shadow.dangling, Shadow.next, Bool.false_eq_true, if_false]
    omega

theorem Inv.shadow_entry (inv : Inv size s) (hs : s.shadow = .entry)
    (h : shadowStep size env s = some t) : Inv size t := by
  have hrun : s.shadow ≠ .idle := by simp [hs]
  simp only [shadowStep, hs] at h
  split at h
  · cases h
    exact inv.shadow_idle hrun (by simp [hs, Shadow.dangling]) (by simp [hs, Shadow.next])
  · next c hc =>
    split at h
    · cases h
      exact inv.consumeHandoff hrun (by simp [hs, Shadow.dangling]) (by simp [hs, Shadow.next]) hc
    · next hnot =>
      cases h
      refine inv.shadow_at hrun (.fill c) ?_ ?_ ?_ ?_ ?_ ?_ ?_ ?_ ?_ <;>
        try simp [hs, hc, Shadow.dangling, Shadow.next, Shadow.chunk, Shadow.handed, Shadow.due,
          Shadow.written]
      -- a build that was handed over with the next chunk would be filled
      intro _ hawaited
      by_contra hsome
      rcases hawaited with hstate | hstate | hstate
      · exact hsome (inv.fresh hstate)
      · exact inv.queued (.inr (by simp [hs, Shadow.due])) hstate
      · obtain ⟨d, hd, hdata⟩ := inv.built (inv.loose hrun).not_stopped hsome (.inr hstate)
        simp only [State.shadowPtr, hs, Shadow.dangling, hc] at hd
        cases hd
        exact hnot ⟨hstate, hdata⟩

/-- The worker goes on with the build. -/
theorem Inv.build_at (inv : Inv size s) (hchunk : s.shadow.chunk = some c)
    (hbuild : s.shadow.inBuild = true) (w : Shadow) (hw : w.chunk = some c)
    (hwbuild : w.inBuild = true) (hnext : w.next = s.shadow.next)
    (hwritten : w.written = some c → hasData s.mem c = true) : Inv size {s with shadow := w} := by
  refine inv.shadow_at (Shadow.not_idle hchunk) w ?_ hnext ?_ ?_ (fun _ => .inr hbuild)
    (fun _ => inv.rebuilt hbuild) ?_ ?_ ?_
  · rw [Shadow.not_dangling hw, Shadow.not_dangling hchunk]
  · intro d hd
    rw [inv.aliased c hchunk, ← hw, hd]
  · intro h
    cases w <;> simp [Shadow.handed, Shadow.inBuild] at h hwbuild
  · cases w <;> simp [Shadow.due, Shadow.inBuild] at hwbuild ⊢
  · rintro d rfl
    cases hwbuild
  · intro d hd
    cases w with
    | prealloc e | turn e n =>
      cases hd
      cases hw
      exact hwritten rfl
    | _ => cases hd

theorem Inv.shadow_fill (inv : Inv size s) (hs : s.shadow = .fill c)
    (h : shadowStep size env s = some t) : Inv size t := by
  have hchunk : s.shadow.chunk = some c := by rw [hs]; rfl
  have hbuild : s.shadow.inBuild = true := by rw [hs]; rfl
  have hnext : s.shadow.next = none := by rw [hs]; rfl
  have hlive := inv.live (owners_shadowPtr (inv.shadowPtr hchunk))
  have worked := inv.worked hchunk (fillChunk_moves env inv.sound hlive.1 hlive.2.1)
    (fillChunk_hasData env)
  simp only [shadowStep, hs] at h
  cases h
  split
  · exact worked.build_at hchunk hbuild (.prebuild c) rfl rfl hnext.symm (by rintro ⟨⟩)
  · exact worked.build_at hchunk hbuild (.discard c) rfl rfl hnext.symm (by rintro ⟨⟩)

theorem Inv.shadow_prebuild (inv : Inv size s) (hs : s.shadow = .prebuild c)
    (h : shadowStep size env s = some t) : Inv size t := by
  have hchunk : s.shadow.chunk = some c := by rw [hs]; rfl
  have hbuild : s.shadow.inBuild = true := by rw [hs]; rfl
  have hnext : s.shadow.next = none := by rw [hs]; rfl
  have hlive := inv.live (owners_shadowPtr (inv.shadowPtr hchunk))
  simp only [shadowStep, hs] at h
  split at h
  · cases h
    exact inv.build_at hchunk hbuild (.discard c) rfl rfl hnext.symm (by rintro ⟨⟩)
  · split at h
    · cases h
      exact inv.build_at hchunk hbuild (.discard c) rfl rfl hnext.symm (by rintro ⟨⟩)
    · next m hm =>
      cases h
      have worked := inv.worked hchunk (writeChunk_moves inv.sound hlive.1 hm)
        fun _ => writeChunk_hasData hm
      exact worked.build_at hchunk hbuild (.prealloc c) rfl rfl hnext.symm
        fun _ => writeChunk_hasData hm

/-- `next_shadow` is allocated. -/
theorem Inv.shadow_prealloc (inv : Inv size s) (hs : s.shadow = .prealloc c)
    (h : shadowStep size env s = some t) : Inv size t := by
  have hchunk : s.shadow.chunk = some c := by rw [hs]; rfl
  have hbuild : s.shadow.inBuild = true := by rw [hs]; rfl
  have hwritten : hasData s.mem c = true := inv.written c (by rw [hs]; rfl)
  have turned := inv.build_at hchunk hbuild (.turn c none) rfl rfl (by rw [hs]; rfl)
    fun _ => hwritten
  simp only [shadowStep, hs] at h
  split at h
  · cases h
    have pointers : Pointers {s with
        mem := allocChunkForChan s.mem, shadow := .turn c (some s.mem.fresh)} := by
      refine turned.worker_at (by rintro ⟨⟩) ?_ id
      exact {turned.toPlaced with
        apart := fun _ => turned.apart (.inr rfl)
        queue := (by rintro _ ⟨⟩)}
    refine ⟨pointers, ?_, ?_⟩
    · refine Known.allocated (m := s.mem) ?_ pointers ?_
      · exact {turned.toKnown with
          old := fun a ha => ⟨(turned.old a ha).1, (turned.old a ha).2.1, (turned.old a ha).2.2.1,
            fun heq => Nat.ne_of_gt (turned.old a ha).1 (Option.some.inj heq)⟩
          built := turned.built
          written := turned.written}
      · intro d hd
        refine (turned.live (c := d) ?_).1
        rcases hd with hd | hd
        · exact owners_shadowPtr hd
        · exact owners_child (s := {s with shadow := .turn c none}) (by
            rw [show s.lazy = .prepare d from hd]
            rfl)
    · refine turned.toOwned.allocated fun d => ?_
      simp only [owners, State.shadowPtr, Shadow.dangling, Shadow.next, one_none,
        Bool.false_eq_true, if_false]
      omega
  · cases h
    exact turned

/-- The worker comes to a place at which it has no shadow. -/
theorem Placed.away (h : Placed s) {w : Shadow} {m : Store} (hchunk : w.chunk = none)
    (hbuild : w.inBuild = false) (hdue : w.due = false)
    (htaken : w.handed = true → s.shadowNextChunk = none) :
    Placed {s with shadow := w, mem := m} :=
  {h with
    aliased := fun _ hc => by cases hchunk.symm.trans hc
    taken := htaken
    rebuilt := fun hb => by cases hbuild.symm.trans hb
    queued := fun hq => h.queued (.inl (hq.resolve_right (by simp [hdue])))
    apart := fun ha => by
      rcases ha with ha | ha
      · rw [show w = .entry from ha] at hdue
        cases hdue
      · cases hbuild.symm.trans ha
    queue := fun c hc => by
      rw [show w = .unqueued c from hc] at hchunk
      cases hchunk}

/-- The worker has freed its chunks; `shadow_chunk` still points there. -/
theorem Pointers.dangled (inv : Pointers s) (hrun : s.shadow ≠ .idle) (m : Store) {w : Shadow}
    (hw : w = .failed ∨ (w = .precopyFailed ∧ s.shadowNextChunk = none)) :
    Pointers {s with mem := m, shadow := w} := by
  refine inv.worker_at hrun ?_ id
  rcases hw with rfl | ⟨rfl, hnone⟩
  · exact inv.toPlaced.away rfl rfl rfl (by rintro ⟨⟩)
  · exact inv.toPlaced.away rfl rfl rfl fun _ => hnone

theorem Inv.shadow_discard (inv : Inv size s) (hs : s.shadow = .discard c)
    (h : shadowStep size env s = some t) : Inv size t := by
  have hchunk : s.shadow.chunk = some c := by rw [hs]; rfl
  have hptr := inv.aliased c hchunk
  simp only [shadowStep, hs] at h
  cases h
  refine inv.freed (o := some c) rfl ?_ (inv.toPointers.dangled (by simp [hs]) _ (.inl rfl)) ?_
  · intro d
    simp only [owners, State.shadowPtr, hs, hptr, Shadow.dangling, Shadow.next, if_true, one_none,
      Bool.false_eq_true, if_false]
    omega
  · refine {inv.toKnown with old := ?_, built := ?_, written := (by rintro _ ⟨⟩)}
    · intro a ha
      exact ⟨(inv.old a ha).1, (inv.old a ha).2.1, (inv.old a ha).2.2.1, (by rintro ⟨⟩)⟩
    · intro _ hsome hstate
      exact absurd (inv.rebuilt (by rw [hs]; rfl) (.inr hstate)) hsome

theorem Inv.shadow_precopyFree (inv : Inv size s) (hs : s.shadow = .precopyFree c next)
    (h : shadowStep size env s = some t) : Inv size t := by
  have hchunk : s.shadow.chunk = some c := by rw [hs]; rfl
  have hptr := inv.aliased c hchunk
  have hnone := inv.taken (by rw [hs]; rfl)
  simp only [shadowStep, hs] at h
  cases h
  have pointers := inv.toPointers.dangled (by simp [hs])
    (freeUnlinked size next (freeUnlinkedChunk size c s.mem)) (.inr ⟨rfl, hnone⟩)
  have hown (d : Nat) : owners {s with
      mem := freeUnlinked size next (freeUnlinkedChunk size c s.mem), shadow := .precopyFailed} d +
        one next d + one (some c) d = owners s d := by
    simp only [owners, State.shadowPtr, hs, hptr, Shadow.dangling, Shadow.next, if_true, one_none,
      Bool.false_eq_true, if_false]
    omega
  have first := inv.toOwned.freed hown
  refine ⟨pointers, ?_, first.freed fun _ => rfl⟩
  refine Known.freed (Known.freed (o := some c) (m := s.mem) ?_ pointers ?_) pointers ?_
  · refine {inv.toKnown with old := ?_, built := ?_, written := (by rintro _ ⟨⟩)}
    · intro a ha
      exact ⟨(inv.old a ha).1, (inv.old a ha).2.1, (inv.old a ha).2.2.1, (by rintro ⟨⟩)⟩
    · exact fun _ hsome => absurd hnone hsome
  · exact fun d hd => inv.toOwned.apart hown (Nat.lt_of_lt_of_le hd (Nat.le_add_right _ _))
  · exact fun d hd => first.apart (fun _ => rfl) hd

/-- The pointer to what was freed is cleared. -/
theorem Inv.cleared (inv : Inv size s) (hdangling : s.shadow.dangling = true) {n : Option Nat}
    (hn : n = s.shadowNextChunk) :
    Inv size {s with shadowChunk := none, shadowNextChunk := n, shadowState := .idle,
                     shadow := .idle} := by
  have hrun : s.shadow ≠ .idle := fun h => by simp [h, Shadow.dangling] at hdangling
  have hnext : s.shadow.next = none := by
    cases hw : s.shadow <;> simp [hw, Shadow.dangling] at hdangling <;> rfl
  subst hn
  refine ⟨inv.worker_at hrun ?_ (by rintro ⟨⟩), ?_, ?_⟩
  · exact {
      aliased := by rintro _ ⟨⟩
      fresh := by rintro ⟨⟩
      taken := by rintro ⟨⟩
      rebuilt := by rintro ⟨⟩
      queued := fun _ => (by rintro ⟨⟩)
      apart := fun _ => (by rintro ⟨⟩)
      queue := (by rintro _ ⟨⟩)}
  · exact {inv.toKnown with
      old := fun a ha => ⟨(inv.old a ha).1, (by rintro ⟨⟩), (inv.old a ha).2.2.1, (by rintro ⟨⟩)⟩
      built := fun _ _ h => h.elim (by rintro ⟨⟩) (by rintro ⟨⟩)
      written := (by rintro _ ⟨⟩)}
  · refine inv.toOwned.congr fun d => ?_
    simp only [owners, State.shadowPtr, hdangling, hnext, if_true]
    simp only [Shadow.dangling, Shadow.next, Bool.false_eq_true, if_false]

/-- The build is given up. Its chunk stays behind `shadow_chunk`. -/
theorem Inv.abandoned (inv : Inv size s) (hchunk : s.shadow.chunk = some c)
    (hnext : s.shadow.next = next) :
    Inv size {s with shadowState := .idle, shadow := .release next} :=
  have settled := inv.state_at .idle (by simp [awaited])
  settled.shadow_at (Shadow.not_idle hchunk) (.release next) (Shadow.not_dangling hchunk).symm
    hnext.symm (by rintro _ ⟨⟩) (by rintro ⟨⟩) (by rintro ⟨⟩) (by rintro ⟨⟩) rfl (by rintro _ ⟨⟩) (by rintro _ ⟨⟩)

/-- The build is announced, and `next_shadow` handed over with it. -/
theorem Inv.shadow_turn (inv : Inv size s) (hs : s.shadow = .turn c next)
    (h : shadowStep size env s = some t) : Inv size t := by
  have hchunk : s.shadow.chunk = some c := by rw [hs]; rfl
  have hbuild : s.shadow.inBuild = true := by rw [hs]; rfl
  have hrun := Shadow.not_idle hchunk
  have hptr := inv.aliased c hchunk
  simp only [shadowStep, hs] at h
  split at h
  · next hstate =>
    cases h
    have hnone := inv.fresh hstate
    refine ⟨inv.worker_at hrun ?_ (by rintro ⟨⟩), ?_, ?_⟩
    · exact {
        aliased := fun d hd => inv.aliased d (by rw [hs]; exact hd)
        fresh := by rintro ⟨⟩
        taken := by rintro ⟨⟩
        rebuilt := by rintro ⟨⟩
        queued := fun h => by
          rcases h with h | h
          · have := inv.apart (.inr hbuild) hstate
            simp [this] at h
          · cases h
        apart := fun h => h.elim (by rintro ⟨⟩) (by rintro ⟨⟩)
        queue := (by rintro _ ⟨⟩)}
    · refine {inv.toKnown with old := ?_, built := ?_, written := (by rintro _ ⟨⟩)}
      · intro a ha
        have hold := inv.old a ha
        rw [hs] at hold
        exact ⟨hold.1, hold.2.1, hold.2.2.2, (by rintro ⟨⟩)⟩
      · exact fun _ _ _ => ⟨c, hptr, inv.written c (by rw [hs]; rfl)⟩
    · refine inv.toOwned.congr fun d => ?_
      simp only [owners, State.shadowPtr, hs, hnone, one_none, Shadow.dangling, Shadow.next,
        Bool.false_eq_true, if_false]
      omega
  · next hstate =>
    cases h
    refine inv.shadow_at hrun (.precopy c next) (by simp [hs, Shadow.dangling])
      (by simp [hs, Shadow.next]) ?_ ?_ (by rintro ⟨⟩) (by rintro ⟨⟩) rfl (by rintro _ ⟨⟩) (by rintro _ ⟨⟩)
    · intro d hd
      rw [hptr]
      exact hd
    · exact fun _ => inv.rebuilt hbuild (.inr (.inr hstate))
  all_goals
    cases h
    exact inv.abandoned hchunk (by rw [hs]; rfl)

/-- The safe point for the next table is reached, and the worker is asked to go on. -/
theorem Inv.handover (inv : Inv size s) (hloose : Loose s.phase)
    (h : s.shadowState = .ready ∨ s.shadowState = .building) {p : Bool}
    (hp : p = true → s.shadowPending = true ∨
      (s.shadowWorkInitialized = true ∧ s.shadowWq = true)) :
    Inv size {s with shadowState := .isrPending, shadowPending := p} :=
  have hawaited : awaited s.shadowState := h.elim (fun h => .inr (.inl h)) .inl
  {inv with
    fresh := by rintro ⟨⟩
    rebuilt := fun hbuild _ => inv.rebuilt hbuild hawaited
    queued := fun _ => (by rintro ⟨⟩)
    apart := fun _ => (by rintro ⟨⟩)
    staged := fun _ _ _ => (by rintro ⟨⟩)
    fixed := fun hfixed => absurd hawaited (inv.fixed hfixed).1
    single := fun _ => inv.single (.inr (.inr hawaited))
    initialized := fun hphase _ => inv.initialized hphase hawaited
    shadowWork := fun hrun => by
      rcases hrun with hrun | hrun
      · exact (hp hrun).elim (fun hp => inv.shadowWork (.inl hp)) id
      · exact inv.shadowWork (.inr hrun)
    phase := .of_loose hloose
    built := fun hphase hsome _ => by
      rcases h with h | h
      · exact inv.built hphase hsome (.inl h)
      · exact absurd (inv.fresh h) hsome}

/-- The worker stays with a chunk that it has announced, or has been handed. -/
theorem Inv.after_at (inv : Inv size s) (hchunk : s.shadow.chunk = some c) (w : Shadow)
    (hw : w.chunk = some c) (hnext : w.next = s.shadow.next)
    (hplace : w.handed = true ∧ s.shadow.handed = true ∨
      w.handed = false ∧ w.inBuild = false ∧ w.due = false) (hqueue : ∀ c, w ≠ .unqueued c) :
    Inv size {s with shadow := w} := by
  have hbuild : w.inBuild = false := by
    rcases hplace with ⟨h, -⟩ | ⟨-, h, -⟩
    · cases w <;> simp [Shadow.handed] at h <;> rfl
    · exact h
  have hdue : w.due = false := by
    rcases hplace with ⟨h, -⟩ | ⟨-, -, h⟩
    · cases w <;> simp [Shadow.handed] at h <;> rfl
    · exact h
  refine inv.shadow_at (Shadow.not_idle hchunk) w ?_ hnext ?_ ?_ (by simp [hbuild])
    (by simp [hbuild]) hdue hqueue ?_
  · rw [Shadow.not_dangling hw, Shadow.not_dangling hchunk]
  · intro d hd
    rw [inv.aliased c hchunk, ← hw, hd]
  · intro h
    rcases hplace with ⟨-, hs⟩ | ⟨hno, -⟩
    · exact inv.taken hs
    · simp [hno] at h
  · intro d hd
    cases w <;> simp [Shadow.inBuild, Shadow.written] at hbuild hd

theorem Inv.shadow_handoff (inv : Inv size s) (hs : s.shadow = .handoff c)
    (h : shadowStep size env s = some t) : Inv size t := by
  have hchunk : s.shadow.chunk = some c := by rw [hs]; rfl
  have hrun := Shadow.not_idle hchunk
  simp only [shadowStep, hs] at h
  split at h
  · next hready =>
    cases h
    have handed := inv.handover (inv.loose hrun) (.inl hready.2.1) (p := s.shadowPending) .inl
    exact handed.consumeHandoff hrun (Shadow.not_dangling hchunk) (by simp [hs, Shadow.next])
      hready.2.2.1
  · cases h
    exact inv.after_at hchunk (.recheck c) rfl (by rw [hs]; rfl) (.inr ⟨rfl, rfl, rfl⟩) (by rintro _ ⟨⟩)

theorem Inv.shadow_recheck (inv : Inv size s) (hs : s.shadow = .recheck c)
    (h : shadowStep size env s = some t) : Inv size t := by
  have hchunk : s.shadow.chunk = some c := by rw [hs]; rfl
  have hrun := Shadow.not_idle hchunk
  have hnext : s.shadow.next = none := by rw [hs]; rfl
  simp only [shadowStep, hs] at h
  split at h
  · cases h
    exact inv.consumeHandoff hrun (Shadow.not_dangling hchunk) hnext (inv.aliased c hchunk)
  · cases h
    exact inv.shadow_idle hrun (Shadow.not_dangling hchunk) hnext

/-- The unused chunk is freed on the way out. -/
theorem Inv.shadow_release (inv : Inv size s) (hs : s.shadow = .release next)
    (h : shadowStep size env s = some t) : Inv size t := by
  have hrun : s.shadow ≠ .idle := by simp [hs]
  simp only [shadowStep, hs] at h
  cases h
  refine inv.freed (o := next) rfl ?_ ?_ ?_
  · intro d
    simp only [owners, State.shadowPtr, hs, Shadow.dangling, Shadow.next, one_none,
      Bool.false_eq_true, if_false]
    omega
  · exact inv.worker_at hrun (inv.toPlaced.away rfl rfl rfl (by rintro ⟨⟩)) id
  · refine {inv.toKnown with old := ?_, built := ?_, written := (by rintro _ ⟨⟩)}
    · intro a ha
      exact ⟨(inv.old a ha).1, (inv.old a ha).2.1, (inv.old a ha).2.2.1, (by rintro ⟨⟩)⟩
    · intro hphase hsome hstate
      obtain ⟨d, hd, hdata⟩ := inv.built hphase hsome hstate
      rw [State.shadowPtr, hs] at hd
      exact ⟨d, hd, hdata⟩

/-- The next build is queued; the work queue is there as long as the worker runs on it. -/
theorem Inv.shadow_queueNext (inv : Inv size s) (hs : s.shadow = .queueNext c)
    (h : shadowStep size env s = some t) : Inv size t := by
  have hchunk : s.shadow.chunk = some c := by rw [hs]; rfl
  have hrun := Shadow.not_idle hchunk
  have hwork := inv.shadowWork (.inr hrun)
  have hready := inv.queued (.inr (by rw [hs]; rfl))
  simp only [shadowStep, hs, if_pos hwork.2] at h
  cases h
  have idle := inv.shadow_idle hrun (Shadow.not_dangling hchunk) (by rw [hs]; rfl)
  exact {idle with
    queued := fun _ => hready
    apart := fun h => h.elim (by rintro ⟨⟩) (by rintro ⟨⟩)
    staged := fun a ha hhead hstate => absurd (inv.staged a ha hhead hstate).1 hrun
    fixed := fun h => absurd h (by simp [inv.unfixed hrun])
    single := fun _ => inv.single (.inr (.inl fun h => hrun h.1))
    shadowWork := fun _ => hwork
    phase := .of_loose (inv.loose hrun)}

/-- The shadow becomes the only chunk of the list. -/
theorem Inv.swapped (inv : Inv size s) (hs : s.shadow = .launch c next) (hchunks : s.chunks = []) :
    Inv size {s with shadowChunk := none, chunks := c :: s.chunks, shadowState := .idle,
                     shadow := .release next} := by
  have hchunk : s.shadow.chunk = some c := by rw [hs]; rfl
  have hrun := Shadow.not_idle hchunk
  have hptr := inv.aliased c hchunk
  exact {inv with
    aliased := by rintro _ ⟨⟩
    fresh := by rintro ⟨⟩
    taken := by rintro ⟨⟩
    rebuilt := by rintro ⟨⟩
    queued := fun _ => (by rintro ⟨⟩)
    apart := fun _ => (by rintro ⟨⟩)
    staged := fun _ _ _ => (by rintro ⟨⟩)
    fixed := fun h => absurd h (by simp [inv.unfixed hrun])
    single := fun _ => by simp [hchunks]
    initialized := fun _ h => absurd h (by simp [awaited])
    shadowWork := fun _ => inv.shadowWork (.inr hrun)
    queue := by rintro _ ⟨⟩
    phase := .of_loose (inv.loose hrun)
    old := fun a ha => by
      have hold := inv.old a ha
      rw [hs] at hold
      exact ⟨hold.1, (by rintro ⟨⟩), hold.2.2⟩
    built := fun _ _ h => h.elim (by rintro ⟨⟩) (by rintro ⟨⟩)
    written := by rintro _ ⟨⟩
    toOwned := inv.toOwned.congr fun d => by
      simp only [owners, State.shadowPtr, hs, hptr, Shadow.dangling, Shadow.next, one_none, one_some,
        Bool.false_eq_true, if_false, List.count_cons, beq_iff_eq]
      omega}

/-- `next_shadow` becomes the shadow. -/
theorem Inv.requeued {n : Nat} (inv : Inv size s) (hs : s.shadow = .release (some n))
    (hnone : s.shadowChunk = none) (hnext : s.shadowNextChunk = none)
    (hstaged : ∀ a, s.staged = some a → s.chunks.head? ≠ some a) :
    Inv size {s with shadowChunk := some n, shadowNextChunk := none, shadowState := .building,
                     shadow := .queueNext n} := by
  have hrun : s.shadow ≠ .idle := by simp [hs]
  exact {inv with
    aliased := fun _ h => h
    fresh := fun _ => rfl
    taken := by rintro ⟨⟩
    rebuilt := by rintro ⟨⟩
    queued := fun _ => (by rintro ⟨⟩)
    apart := fun h => h.elim (by rintro ⟨⟩) (by rintro ⟨⟩)
    staged := fun a ha hhead => absurd hhead (hstaged a ha)
    fixed := fun h => absurd h (by simp [inv.unfixed hrun])
    single := fun _ => inv.single (.inr (.inl fun h => hrun h.1))
    initialized := fun _ _ => (inv.shadowWork (.inr hrun)).1
    shadowWork := fun _ => inv.shadowWork (.inr hrun)
    queue := by rintro _ ⟨⟩
    phase := .of_loose (inv.loose hrun)
    old := fun a ha => by
      have hold := inv.old a ha
      rw [hs] at hold
      exact ⟨hold.1, hold.2.2.2, (by rintro ⟨⟩), (by rintro ⟨⟩)⟩
    built := fun _ h => absurd rfl h
    written := by rintro _ ⟨⟩
    toOwned := inv.toOwned.congr fun d => by
      simp only [owners, State.shadowPtr, hs, hnone, hnext, Shadow.dangling, Shadow.next, one_none,
        Bool.false_eq_true, if_false]
      omega}

theorem Inv.shadow_launch (inv : Inv size s) (hs : s.shadow = .launch c next) :
    Inv size (shadowLaunch size env c next s) := by
  have hchunk : s.shadow.chunk = some c := by rw [hs]; rfl
  have hrun := Shadow.not_idle hchunk
  have hnone := inv.taken (by rw [hs]; rfl)
  simp only [shadowLaunch]
  split
  · exact inv.abandoned hchunk (by rw [hs]; rfl)
  · have retired := inv.retire (inv.loose hrun)
    have hchunks := retire_chunks size (inv.single (.inr (.inl fun h => hrun h.1)))
    obtain ⟨chunks, cleanup, mem, heq⟩ := retire_frame size s
    simp only [swapChunks]
    rw [heq] at retired hchunks ⊢
    have swapped := retired.swapped hs hchunks
    split
    · exact swapped
    · split
      · split
        · -- a staged chunk is not the shadow that has come into the list
          refine swapped.requeued rfl rfl hnone fun a ha hhead => ?_
          exact (inv.old a ha).2.1 ((inv.aliased c hchunk).trans hhead)
        · exact swapped
      · exact swapped

theorem shadowStep_inv (inv : Inv size s) (h : shadowStep size env s = some t) : Inv size t := by
  cases hs : s.shadow with
  | idle =>
    simp only [shadowStep, hs] at h
    cases h
  | entry => exact inv.shadow_entry hs h
  | fill c => exact inv.shadow_fill hs h
  | discard c => exact inv.shadow_discard hs h
  | failed =>
    simp only [shadowStep, hs] at h
    cases h
    exact inv.cleared (by rw [hs]; rfl) rfl
  | prebuild c => exact inv.shadow_prebuild hs h
  | prealloc c => exact inv.shadow_prealloc hs h
  | turn c next => exact inv.shadow_turn hs h
  | announced c =>
    have hchunk : s.shadow.chunk = some c := by rw [hs]; rfl
    simp only [shadowStep, hs] at h
    cases h
    split
    · exact inv.after_at hchunk (.handoff c) rfl (by rw [hs]; rfl) (.inr ⟨rfl, rfl, rfl⟩) (by rintro _ ⟨⟩)
    · exact inv.after_at hchunk (.recheck c) rfl (by rw [hs]; rfl) (.inr ⟨rfl, rfl, rfl⟩) (by rintro _ ⟨⟩)
  | handoff c => exact inv.shadow_handoff hs h
  | recheck c => exact inv.shadow_recheck hs h
  | precopy c next =>
    have hchunk : s.shadow.chunk = some c := by rw [hs]; rfl
    have hhanded : s.shadow.handed = true := by rw [hs]; rfl
    simp only [shadowStep, hs] at h
    cases h
    split
    · exact inv.after_at hchunk (.launch c next) rfl (by rw [hs]; rfl) (.inl ⟨rfl, hhanded⟩) (by rintro _ ⟨⟩)
    · exact inv.after_at hchunk (.precopyFree c next) rfl (by rw [hs]; rfl) (.inl ⟨rfl, hhanded⟩)
        (by rintro _ ⟨⟩)
  | precopyFree c next => exact inv.shadow_precopyFree hs h
  | precopyFailed =>
    have hnone := inv.taken (by rw [hs]; rfl)
    simp only [shadowStep, hs] at h
    cases h
    exact inv.cleared (by rw [hs]; rfl) hnone.symm
  | launch c next =>
    simp only [shadowStep, hs] at h
    cases h
    exact inv.shadow_launch hs
  | queueNext c => exact inv.shadow_queueNext hs h
  | unqueued c => exact absurd hs (inv.queue c)
  | release next => exact inv.shadow_release hs h

end Worker

end DxNpuDriver.Edma.Ownership
