import DxNpuDriver.Edma.Coverage

/-! When the shadow protocol lets a healthy transfer through.

A Done that finds the worker at its build leaves two things behind: ISR_PENDING, which
the running worker consumes at its `switch` or at its last look, and a further run of
the work item. That run is the next build if there is one to make. After the last table
there is none: the run finds `shadow_chunk` null and sets `hw_err` on a transfer in
which nothing went wrong (`last_build_interrupted`). The code takes it that a running
item cannot be queued.

`timely_run_healthy` says that this is the only way: if no Done falls into the build of
the last table, no flag is set and no default branch is taken. -/
namespace DxNpuDriver.Edma.Transfer
open Fill

/-- The request is sound: a table holds an entry, the list is as long as it says, and no
address wraps. -/
structure Sane (x : Xfer) : Prop where
  llMax : 1 ≤ x.llMax
  length : x.len ≤ x.sgl.length
  range : InRange x.addr x.sgl

/-- There are bursts for a whole table. -/
def Enough (x : Xfer) (supply : Supply) : Prop :=
  supply.head = true ∧ x.llMax ≤ supply.batch + supply.single

instance (x : Xfer) (supply : Supply) : Decidable (Enough x supply) :=
  inferInstanceAs (Decidable (_ ∧ _))

/-- The worker reads CS, and either answer is a healthy one. -/
def Shadow.readsStatus : Shadow → Bool
  | .readStatus _ => true
  | _ => false

/-- Nothing fails: allocations, copies and preparations succeed, launches are allowed. -/
def Fortunate (x : Xfer) (s : State) : Label → Prop
  | .launch env | .lazy env => env.ret = .ok ∧ env.yes = true
  | .shadow env => env.ret = .ok ∧ Enough x env.supply ∧
      (env.yes = true ∨ s.shadow.readsStatus = true)
  | .done | .launchRun | .lazyRun | .shadowRun => True

instance (x : Xfer) (s : State) (l : Label) : Decidable (Fortunate x s l) :=
  match l with
  | .launch _ | .lazy _ => inferInstanceAs (Decidable (_ ∧ _))
  | .shadow _ => inferInstanceAs (Decidable (_ ∧ _ ∧ (_ ∨ _)))
  | .done | .launchRun | .lazyRun | .shadowRun => isTrue trivial

/-- Entries are left beyond the table that the worker is at. -/
def leftBeyond (x : Xfer) (s : State) : Bool :=
  match s.shadow with
  | .entry | .fill _ => x.llMax < s.desc.shadowNext.remaining
  | .prebuild _ | .prealloc _ | .turn _ _ | .readStarted _ | .readStatus _ | .clearStarted _
  | .recheck _ => s.desc.shadowHasMore
  | .idle | .noChunk | .failed | .handoff _ | .precopy _ _ | .precopyFailed _ | .launch _ _
  | .queueNext | .setAborted | .clearLazy => true

/-- A Done of a lazy table does not fall into the build of the last one. -/
def Timely (x : Xfer) (s : State) : Label → Prop
  | .done => s.xferStarted = true → s.desc.lazyMode = true → leftBeyond x s = true
  | _ => True

instance (x : Xfer) (s : State) (l : Label) : Decidable (Timely x s l) :=
  match l with
  | .done => inferInstanceAs (Decidable (_ → _ → _))
  | .launch _ | .lazy _ | .shadow _ | .launchRun | .lazyRun | .shadowRun => isTrue trivial

/-! ### The invariant -/

/-- A further run of the worker, should one be queued, will have a table to build; and the
chunk for the build after the next is there when it is needed. -/
def HealthyAt (x : Xfer) (s : State) : Prop :=
  let further := s.shadowPending = true → s.desc.shadowHasMore = true
  let prepared := s.desc.shadowHasMore = true → s.desc.shadowNextChunk ≠ none
  let built := ∀ c, s.desc.shadowChunk = some c → c.head = true
  match s.shadow with
  | .idle => (s.shadowPending = true → s.desc.shadowChunk ≠ none) ∧ (built → prepared)
  | .entry => s.desc.shadowChunk ≠ none ∧ (built → prepared ∧ s.shadowPending = false) ∧
      (s.shadowPending = true → x.llMax < s.desc.shadowNext.remaining)
  | .fill _ => s.shadowPending = true → x.llMax < s.desc.shadowNext.remaining
  | .prebuild _ | .prealloc _ => further
  | .turn _ next | .precopy _ next | .launch _ next =>
    further ∧ (s.desc.shadowHasMore = true → next ≠ none)
  | .readStarted _ | .readStatus _ | .clearStarted _ | .handoff _ | .recheck _ =>
    further ∧ prepared
  | .queueNext => True
  | .noChunk | .failed | .precopyFailed _ | .setAborted | .clearLazy => False

structure Healthy (x : Xfer) (s : State) : Prop where
  flags : s.hwErr = false ∧ s.aborted = false ∧ s.unexpected = false
  mode : s.desc.lazyWorkInitialized = false
  staged : ∀ c, s.pendingLaunch = some c ∨ s.launch = .prepare c ∨ s.launch = .ring c .ok →
    s.desc.chunks.head? = some c
  prepared : ∀ c ret, s.launch = .ring c ret → ret = .ok
  lazyOn : s.desc.lazyMode = true → s.desc.shadowState ≠ .idle ∧ s.desc.shadowChunk ≠ none
  place : HealthyAt x s

/-- Once a doorbell was rung the launch worker has no table of the descriptor. -/
theorem Base.not_staged {x : Xfer} {k n : Nat} {s : State} {c : Chunk} (h : Base x k n s)
    (hrung : s.rung ≠ []) :
    ¬(s.pendingLaunch = some c ∨ s.launch = .prepare c ∨ s.launch = .ring c .ok) := by
  intro hc
  have hstaging := h.unstaged hrung
  rcases hc with hc | hc | hc <;> simp [State.staging, hc, Launch.holding] at hstaging

/-! ### Done -/

/-- A Done that counts while the worker is at a table with entries left beyond it. -/
theorem HealthyAt.handed {x : Xfer} {n xferSz : Nat} {s : State} (h : HealthyAt x s)
    (place : ShadowAt x n s) (hstarted : s.xferStarted = true) (hchunk : s.desc.shadowChunk ≠ none)
    (hstate : s.desc.shadowState ≠ .isrPending) (hleft : leftBeyond x s = true) :
    HealthyAt x {s with
      xferStarted := false, shadowPending := true,
      desc := {s.desc with xferSz := xferSz, shadowState := .isrPending}} := by
  cases hs : s.shadow with
  | idle =>
    simp only [HealthyAt, hs] at h ⊢
    exact ⟨fun _ => hchunk, h.2⟩
  | entry =>
    simp only [HealthyAt, ShadowAt, leftBeyond, hs, decide_eq_true_eq] at h place hleft ⊢
    refine ⟨hchunk, fun hbuilt => ?_, fun _ => hleft⟩
    rcases place with gone | ⟨-, c, ⟨unbuilt, -⟩ | ⟨-, hpend⟩⟩
    · exact absurd gone.1 hchunk
    · cases unbuilt.head.symm.trans (hbuilt c unbuilt.chunk)
    · exact absurd hpend hstate
  | fill c =>
    simp only [leftBeyond, hs, decide_eq_true_eq] at hleft
    exact fun _ => hleft
  | prebuild c | prealloc c =>
    simp only [leftBeyond, hs] at hleft
    exact fun _ => hleft
  | turn c next | readStarted c | readStatus c | clearStarted c | recheck c =>
    simp only [HealthyAt, leftBeyond, hs] at h hleft ⊢
    exact ⟨fun _ => hleft, h.2⟩
  | handoff c =>
    simp only [ShadowAt, hs] at place
    cases hstarted.symm.trans place.2.2.2
  | precopy c next | launch c next =>
    simp only [ShadowAt, hs] at place
    exact absurd place.2.2.1 hstate
  | queueNext => trivial
  | noChunk | failed | precopyFailed _ | setAborted | clearLazy =>
    simp only [HealthyAt, hs] at h

theorem doneInterrupt_healthy {x : Xfer} {k n : Nat} {s : State} (inv : Cover x k n s)
    (hh : Healthy x s) (rule : Timely x s .done) : Healthy x (doneInterrupt s) := by
  rcases doneInterrupt_cases inv.base.single (fun h => (inv.base.started h).2) with
    hsame | ⟨hstarted, xferSz, hsame | hout⟩
  · rw [hsame]
    exact hh
  · rw [hsame]
    exact {hh with}
  · have hrung := (inv.base.started hstarted).1
    have sh := inv.shadowed hh.mode
    have credited : Healthy x (credit xferSz s) := {hh with}
    generalize doneInterrupt s = t at hout ⊢
    cases hout with
    | finished h =>
      exact {credited with staged := fun c hc => absurd hc (inv.base.not_staged hrung)}
    | handed hlazy h =>
      have hstate : s.desc.shadowState ≠ .isrPending := fun hp => by
        cases hstarted.symm.trans (sh.handed hp).1
      have hchunk := (hh.lazyOn hlazy).2
      exact {credited with
        lazyOn := fun _ => ⟨(by rintro ⟨⟩), hchunk⟩
        place := hh.place.handed sh.place hstarted hchunk hstate (rule hstarted hlazy)}
    | refill hlazy h hinit => cases hh.mode.symm.trans hinit
    | stuck hlazy h hinit => exact absurd h (hh.lazyOn hlazy).1
    | unexpected hlazy h =>
      rcases h with h | h
      · cases hstarted.symm.trans (sh.handed h).1
      · exact absurd h sh.live

/-! ### The launch worker -/

/-- A cookie that is complete without a flag has had a doorbell. -/
theorem Healthy.uncompleted {x : Xfer} {k n : Nat} {s : State} (hh : Healthy x s) (hlen : 0 < x.len)
    (inv : Cover x k n s) (hrung : s.rung = []) : s.completed = false := by
  refine Bool.eq_false_iff.mpr fun hc => ?_
  have hk := (inv.base.first hrung).1
  have hend := inv.base.completed hc
  simp only [hh.flags.1, hh.flags.2.1, Bool.false_eq_true, false_or] at hend
  omega

theorem launchStep_healthy {x : Xfer} {k n : Nat} {s t : State} {env : Env} (hlen : 0 < x.len)
    (inv : Cover x k n s) (hh : Healthy x s) (rule : Fortunate x s (.launch env))
    (h : launchStep env s = some t) : Healthy x t := by
  obtain ⟨hret, -⟩ := rule
  have hunstaged {child : Chunk} (hl : s.launch = .ring child .ok) : ∀ c,
      s.pendingLaunch = some c ∨ Launch.idle = .prepare c ∨ Launch.idle = .ring c .ok →
        s.desc.chunks.head? = some c := by
    have hslot := inv.base.slot (by rw [hl]; rfl)
    simp [hslot]
  cases launchStep_cases h with
  | nothing hl hnone =>
    exact {hh with
      staged := fun c hc => hh.staged c (.inl (by simpa using hc)), prepared := (by rintro _ _ ⟨⟩)}
  | dropped child hl hpend =>
    exact {hh with staged := fun c hc => by simp at hc, prepared := (by rintro _ _ ⟨⟩)}
  | taken child hl hpend =>
    refine {hh with staged := fun c hc => hh.staged c (.inl ?_), prepared := (by rintro _ _ ⟨⟩)}
    simpa [hpend] using hc
  | prepared child hl =>
    refine {hh with flags := ?_, staged := fun c hc => hh.staged c ?_, prepared := fun c r hr => ?_}
    · simpa [signalled, hret] using hh.flags
    · simpa [hl, hret] using hc
    · cases hr
      exact hret
  | unprepared child ret hl hfailed => exact absurd (hh.prepared child ret hl) hfailed
  | refused child hl => exact {hh with staged := hunstaged hl, prepared := (by rintro _ _ ⟨⟩)}
  | stale child hl hstale =>
    have hrung := inv.base.staging (by simp [State.staging, hl, Launch.holding])
    rcases hstale with hcompleted | hchild
    · cases hcompleted.symm.trans (hh.uncompleted hlen inv hrung)
    · exact absurd (hh.staged child (.inr (.inr hl))) hchild
  | rung child pending hl hcompleted hchild hpending =>
    have hrung := inv.base.staging (by simp [State.staging, hl, Launch.holding])
    refine {hh with staged := hunstaged hl, prepared := (by rintro _ _ ⟨⟩), place := ?_}
    have place := hh.place
    rcases hpending with rfl | ⟨rfl, hlazy, -⟩
    · exact place
    · have hidle : s.shadow = .idle := by
        by_contra hne
        exact (inv.shadowed hh.mode).launched (.inr hne) hrung
      simp only [HealthyAt, ring, hidle] at place ⊢
      exact ⟨fun _ => (hh.lazyOn hlazy).2, place.2⟩

/-! ### The shadow worker -/

/-- With bursts for a whole table a build succeeds, and takes `ll_max` entries or all that
are left. -/
theorem shadowFillChunk_full {x : Xfer} {n : Nat} {supply : Supply} {d : Desc} {c : Chunk}
    (hx : Sane x) (unbuilt : Unbuilt x n d.pipe c) (henough : Enough x supply) :
    ∃ d' c', shadowFillChunk x supply d c = (d', some c') ∧
      d'.shadowHasMore = decide (x.llMax < d.shadowNext.remaining) := by
  have hnext : d.shadowNext = x.at n := unbuilt.next
  have hlt := unbuilt.lt
  have hlength := hx.length
  have hremaining : d.shadowNext.remaining = x.len - n := by rw [hnext, Xfer.at_remaining]
  have hsg : d.shadowNext.remaining ≤ d.shadowNext.sg.length := by
    rw [hremaining, hnext]
    simp only [Xfer.at, cursorAt, List.length_drop]
    omega
  have hrange : InRange d.shadowNext.addr d.shadowNext.sg := by
    rw [hnext]
    obtain ⟨htotal, hentries⟩ := hx.range
    refine ⟨?_, fun e he => hentries e (List.mem_of_mem_drop he)⟩
    have hsplit := Extent.total_append SgEntry.len (x.sgl.take n) (x.sgl.drop n)
    rw [List.take_append_drop] at hsplit
    simp only [Xfer.at, cursorAt]
    omega
  have hfull : (fillSgBursts x.dir x.llMax x.llMax supply (allocHead c) d.shadowNext
      d.shadowAllocSz).ret = .ok (min d.shadowNext.remaining x.llMax) :=
    fillSgBursts_full rfl hx.llMax (by omega) hsg hrange henough.2
  obtain ⟨j, hj⟩ : ∃ j, min d.shadowNext.remaining x.llMax = j + 1 :=
    Nat.exists_eq_succ_of_ne_zero (by have := hx.llMax; omega)
  rw [hj] at hfull
  have hmoved := (fillSgBursts_ok hfull).moved
  have hgo : ¬(d.shadowNext.sg = [] ∨ d.shadowNext.remaining = 0 ∨ ¬supply.head = true) := by
    rintro (hnil | hzero | hhead)
    · rw [hnil, List.length_nil] at hsg
      omega
    · omega
    · exact hhead henough.1
  simp only [shadowFillChunk, if_neg hgo, hfull]
  refine ⟨_, _, rfl, ?_⟩
  simp only [hmoved, decide_eq_decide]
  omega

section Worker
variable {x : Xfer} {k n : Nat} {s t : State} {env : Env}

/-- Only the place of the worker changes. -/
theorem Healthy.shadow_at (hh : Healthy x s) (w : Shadow) (hplace : HealthyAt x {s with shadow := w}) :
    Healthy x {s with shadow := w} := {hh with place := hplace}

theorem entry_healthy (inv : Cover x k n s) (hh : Healthy x s) (hs : s.shadow = .entry)
    (h : shadowStep x env s = some t) : Healthy x t := by
  have hat := (inv.shadowed hh.mode).place
  have place := hh.place
  simp only [ShadowAt, hs] at hat
  simp only [HealthyAt, hs] at place
  obtain ⟨hchunk, hbuilt, hleft⟩ := place
  simp only [shadowStep, hs] at h
  split at h
  · exact absurd ‹_› hchunk
  · rename_i c hc
    have hone : ∀ c', s.desc.shadowChunk = some c' → c' = c := fun c' hc' => by
      simpa [hc] using hc'.symm
    split at h
    · rename_i hready
      cases h
      obtain ⟨hnext, hpending⟩ := hbuilt fun c' hc' => by rw [hone c' hc']; exact hready.2.1
      exact {hh with place := ⟨fun hp => (by cases hpending.symm.trans hp), hnext⟩}
    · cases h
      exact hh.shadow_at (.fill c) hleft

theorem fill_healthy {c : Chunk} (hx : Sane x) (inv : Cover x k n s) (hh : Healthy x s)
    (henough : Enough x env.supply) (hs : s.shadow = .fill c) (h : shadowStep x env s = some t) :
    Healthy x t := by
  have hat := (inv.shadowed hh.mode).place
  have place := hh.place
  simp only [ShadowAt, hs] at hat
  simp only [HealthyAt, hs] at place
  obtain ⟨d', c', hfill, hmore⟩ := shadowFillChunk_full hx hat.2.1 henough
  obtain ⟨hchunks, -, hlazy, hstate, -, hwork⟩ := shadowFillChunk_same hfill
  simp only [shadowStep, hs, hfill, Option.some.injEq] at h
  subst h
  refine {hh with mode := hwork.trans hh.mode, staged := ?_, lazyOn := ?_, place := ?_}
  · simp only [hchunks]
    exact hh.staged
  · simp only [hlazy, hstate]
    exact fun hon => ⟨(hh.lazyOn hon).1, (by rintro ⟨⟩)⟩
  · intro hp
    simpa [hmore] using place hp

theorem turn_healthy {c : Chunk} {next : Option Chunk} (inv : Cover x k n s) (hh : Healthy x s)
    (hs : s.shadow = .turn c next) (h : shadowStep x env s = some t) : Healthy x t := by
  have hat := (inv.shadowed hh.mode).place
  have place := hh.place
  simp only [ShadowAt, hs] at hat
  simp only [HealthyAt, hs] at place
  simp only [shadowStep, hs] at h
  rcases hat.2.2.1 with ⟨hstate, -⟩ | hstate
  · simp only [hstate, Option.some.injEq] at h
    subst h
    exact {hh with lazyOn := fun hon => ⟨(by rintro ⟨⟩), (hh.lazyOn hon).2⟩, place := place}
  · simp only [hstate, Option.some.injEq] at h
    subst h
    exact hh.shadow_at (.precopy c next) place

theorem handoff_healthy {c : Chunk} (hh : Healthy x s) (hs : s.shadow = .handoff c)
    (h : shadowStep x env s = some t) : Healthy x t := by
  have place := hh.place
  simp only [HealthyAt, hs] at place
  simp only [shadowStep, hs] at h
  split at h
  · split at h
    · cases h
      exact hh.shadow_at (.recheck c) place
    · cases h
      exact {hh with lazyOn := fun hon => ⟨(by rintro ⟨⟩), (hh.lazyOn hon).2⟩, place := place}
  · cases h
    exact hh.shadow_at (.recheck c) place

theorem recheck_healthy {c : Chunk} (inv : Cover x k n s) (hh : Healthy x s)
    (hs : s.shadow = .recheck c) (h : shadowStep x env s = some t) : Healthy x t := by
  have hat := (inv.shadowed hh.mode).place
  have place := hh.place
  simp only [ShadowAt, hs] at hat
  simp only [HealthyAt, hs] at place
  have hchunk : s.desc.shadowChunk = some c := hat.2.1.chunk
  simp only [shadowStep, hs] at h
  split at h
  · cases h
    exact {hh with place := place}
  · cases h
    exact hh.shadow_at .idle ⟨fun _ => (by simp [hchunk]), fun _ => place.2⟩

/-- The last section. With nothing left beyond its table no further run is queued. -/
theorem launch_healthy {c : Chunk} {next : Option Chunk} (inv : Cover x k n s) (hh : Healthy x s)
    (hs : s.shadow = .launch c next) : Healthy x (shadowLaunch true c next s) := by
  have sh := inv.shadowed hh.mode
  have hrung := sh.launched (.inr (by simp [hs]))
  have place := hh.place
  simp only [HealthyAt, hs] at place
  obtain ⟨hfurther, hnext⟩ := place
  have hunstaged : ∀ c', s.pendingLaunch = some c' ∨ s.launch = .prepare c' ∨
      s.launch = .ring c' .ok → (c :: s.desc.chunks.tail).head? = some c' :=
    fun c' hc => absurd hc (inv.base.not_staged hrung)
  have hgo : ¬(s.desc.shadowState = .cancelled ∨ s.aborted = true) := by
    simp [sh.live, hh.flags.2.1]
  have hmore' : (swapChunks c s.desc).shadowHasMore = s.desc.shadowHasMore := rfl
  simp only [shadowLaunch, if_neg hgo, not_true_eq_false, if_false, hmore']
  cases hmore : s.desc.shadowHasMore with
  | true =>
    cases next with
    | none => exact absurd rfl (hnext hmore)
    | some u =>
      exact {hh with staged := hunstaged, lazyOn := fun _ => ⟨(by rintro ⟨⟩), (by rintro ⟨⟩)⟩, place := trivial}
  | false =>
    refine {hh with staged := hunstaged, lazyOn := (by rintro ⟨⟩), place := ?_}
    refine ⟨fun hp => ?_, fun _ hm => ?_⟩
    · cases hmore.symm.trans (hfurther hp)
    · cases hm

theorem shadowStep_healthy (hx : Sane x) (inv : Cover x k n s) (hh : Healthy x s)
    (rule : Fortunate x s (.shadow env)) (h : shadowStep x env s = some t) : Healthy x t := by
  obtain ⟨hret, henough, hyes⟩ := rule
  have place := hh.place
  cases hs : s.shadow with
  | idle => simp [shadowStep, hs] at h
  | entry => exact entry_healthy inv hh hs h
  | fill c => exact fill_healthy hx inv hh henough hs h
  | turn c next => exact turn_healthy inv hh hs h
  | handoff c => exact handoff_healthy hh hs h
  | recheck c => exact recheck_healthy inv hh hs h
  | prebuild c =>
    simp only [HealthyAt, hs] at place
    simp only [shadowStep, hs, hret, if_true, Option.some.injEq] at h
    subst h
    exact hh.shadow_at (.prealloc c) place
  | prealloc c =>
    simp only [HealthyAt, hs] at place
    have hyes : env.yes = true := by simpa [hs, Shadow.readsStatus] using hyes
    simp only [shadowStep, hs, hyes, and_true, Option.some.injEq] at h
    subst h
    refine hh.shadow_at _ ⟨place, fun hmore => ?_⟩
    rw [if_pos hmore]
    rintro ⟨⟩
  | readStarted c =>
    simp only [HealthyAt, hs] at place
    simp only [shadowStep, hs, Option.some.injEq] at h
    subst h
    refine hh.shadow_at _ ?_
    split <;> exact place
  | readStatus c =>
    simp only [HealthyAt, hs] at place
    simp only [shadowStep, hs, Option.some.injEq] at h
    subst h
    refine hh.shadow_at _ ?_
    split <;> exact place
  | clearStarted c =>
    simp only [HealthyAt, hs] at place
    simp only [shadowStep, hs, Option.some.injEq] at h
    subst h
    exact {hh with place := place}
  | precopy c next =>
    simp only [HealthyAt, hs] at place
    simp only [shadowStep, hs, hret, Option.some.injEq] at h
    subst h
    exact hh.shadow_at (.launch c next) place
  | launch c next =>
    have hyes : env.yes = true := by simpa [hs, Shadow.readsStatus] using hyes
    simp only [shadowStep, hs, hyes, Option.some.injEq] at h
    subst h
    exact launch_healthy inv hh hs
  | queueNext =>
    have hat := (inv.shadowed hh.mode).place
    simp only [ShadowAt, hs] at hat
    obtain ⟨-, c, unbuilt, -⟩ := hat
    have hchunk : s.desc.shadowChunk = some c := unbuilt.chunk
    simp only [shadowStep, hs, Option.some.injEq] at h
    subst h
    refine {hh with place := ⟨fun _ => (by simp [hchunk]), fun hbuilt => ?_⟩}
    cases unbuilt.head.symm.trans (hbuilt c hchunk)
  | noChunk | failed | precopyFailed _ | setAborted | clearLazy =>
    simp only [HealthyAt, hs] at place

end Worker

/-! ### Runs -/

theorem shadowRun_healthy {x : Xfer} {s : State} (hh : Healthy x s)
    (hpending : s.shadowPending = true) (hidle : s.shadow = .idle) :
    Healthy x {s with shadowPending := false, shadow := .entry} := by
  have place := hh.place
  simp only [HealthyAt, hidle] at place
  exact {hh with place := ⟨place.1 hpending, fun hbuilt => ⟨place.2 hbuilt, rfl⟩, (by rintro ⟨⟩)⟩}

theorem step_healthy {x : Xfer} (hx : Sane x) (hlen : 0 < x.len) (s : State) (l : Label) (t : State)
    (inv : (∃ k n, Cover x k n s) ∧ Healthy x s) (rule : Fortunate x s l ∧ Timely x s l)
    (h : step x s l = some t) : (∃ k n, Cover x k n t) ∧ Healthy x t := by
  refine ⟨step_cover s l t inv.1 h, ?_⟩
  obtain ⟨⟨k, n, inv⟩, hh⟩ := inv
  cases l with
  | done =>
    cases h
    exact doneInterrupt_healthy inv hh rule.2
  | launchRun =>
    simp only [step] at h
    split at h
    · rename_i hready
      cases h
      refine {hh with staged := fun c hc => hh.staged c (.inl ?_), prepared := (by rintro _ _ ⟨⟩)}
      simpa using hc
    · cases h
  | lazyRun => simp [step, ((inv.shadowed hh.mode).lazy).2] at h
  | shadowRun =>
    simp only [step] at h
    split at h
    · rename_i hready
      cases h
      exact shadowRun_healthy hh hready.1 hready.2
    · cases h
  | launch env => exact launchStep_healthy hlen inv hh rule.1 h
  | lazy env => simp [step, lazyStep, ((inv.shadowed hh.mode).lazy).1] at h
  | shadow env => exact shadowStep_healthy hx inv hh rule.1 h

theorem issue_healthy {x : Xfer} {n : Nat} {c : Chunk} {d : Desc} (hfirst : First x n c)
    (hfilled : 0 < c.burstsAlloc) (hprep : Prepared x n c d) (hshadow : d.shadowState = .building) :
    Healthy x (issue d) := by
  cases hprep with
  | whole _ _ _ shadowState => cases shadowState.symm.trans hshadow
  | fixed _ _ _ shadowState => cases shadowState.symm.trans hshadow
  | shadow _ chunks _ _ lazyWork _ _ _ _ shadowChunk =>
    rw [issue_staged hfirst hfilled chunks]
    refine ⟨⟨rfl, rfl, rfl⟩, lazyWork, ?_, (by rintro _ _ ⟨⟩), fun _ => ⟨by simp [hshadow], by simp [shadowChunk]⟩,
      (by rintro ⟨⟩), fun hbuilt => ?_⟩
    · rintro c' (hc | hc | hc)
      · simpa [chunks] using hc
      · cases hc
      · cases hc
    · cases hbuilt _ shadowChunk

/-- **A healthy transfer is let through.** In every fortunate run of a shadow-mode
descriptor in which no Done falls into the build of the last table, neither flag is set
and no default branch is taken. -/
theorem timely_run_healthy {x : Xfer} {supplies : List Supply} {ok : Bool} {d : Desc}
    {ls : List Label} {s : State} (hx : Sane x) (hprep : deviceTransfer x supplies ok = some d)
    (hshadow : d.shadowState = .building)
    (rule : Machine.Admissible (step x) (fun s l => Fortunate x s l ∧ Timely x s l) (issue d) ls)
    (h : Machine.run (step x) (issue d) ls = some s) :
    s.hwErr = false ∧ s.aborted = false ∧ s.unexpected = false := by
  have hlen : 0 < x.len := by
    by_contra hzero
    simp [deviceTransfer, Nat.lt_one_iff.mpr (Nat.eq_zero_of_not_pos hzero)] at hprep
  obtain ⟨n, c, hfirst, hprepared, hfilled⟩ := deviceTransfer_prepared hx.llMax hprep
  have hstart : (∃ k n, Cover x k n (issue d)) ∧ Healthy x (issue d) :=
    ⟨⟨0, n, issue_cover hfirst hfilled hprepared⟩, issue_healthy hfirst hfilled hprepared hshadow⟩
  exact (Machine.invariant_of_admissible (step x) (step_healthy hx hlen) hstart rule h).2.flags

/-- Three entries that do not touch, one for each table. -/
def shadowXfer : Xfer :=
  ⟨.write, 1, 4096, true, 0, true, [⟨0x1000, 16⟩, ⟨0x3000, 16⟩, ⟨0x5000, 16⟩], 3, 0x100⟩

theorem shadowXfer_sane : Sane shadowXfer := ⟨by decide, by decide, by decide, by decide⟩

def supplies : List Supply := List.replicate 3 ⟨true, 1, 0⟩

/-- The first doorbell, and the worker's first run up to its `switch`. -/
def firstBuild : List Label :=
  .launchRun :: List.replicate 3 (.launch good) ++ .shadowRun :: List.replicate 4 (.shadow good)

/-- A Done before the `switch`; the worker launches the second table, and its further run
builds the third. -/
def secondBuild : List Label :=
  .done :: List.replicate 4 (.shadow good) ++ .shadowRun :: List.replicate 4 (.shadow good)

/-- The second table stops after the `switch`: the worker sees it and launches the third. -/
def timelyRun : List Label :=
  firstBuild ++ secondBuild ++ List.replicate 7 (.shadow good) ++ [.done]

theorem interrupted_build_healthy :
    ∃ s, transfer shadowXfer supplies timelyRun = some s ∧
      (s.completed, s.rung.length) = (true, 3) ∧
      s.hwErr = false ∧ s.aborted = false ∧ s.unexpected = false := by
  have hend : (transfer shadowXfer supplies timelyRun).map
      (fun s => (s.completed, s.rung.length)) = some (true, 3) := by decide
  have hrule : ∀ d ∈ deviceTransfer shadowXfer supplies true, d.shadowState = .building ∧
      Machine.Admissible (step shadowXfer)
        (fun s l => Fortunate shadowXfer s l ∧ Timely shadowXfer s l) (issue d) timelyRun := by
    decide
  obtain ⟨s, hs, hcompleted⟩ := Option.map_eq_some_iff.mp hend
  obtain ⟨d, hprep, hrun⟩ := Option.bind_eq_some_iff.mp hs
  obtain ⟨hshadow, rule⟩ := hrule d hprep
  exact ⟨s, hs, hcompleted, timely_run_healthy shadowXfer_sane hprep hshadow rule hrun⟩

/-- The same with a Done before the third table's `switch`: its further run has nothing to
build. -/
def lateRun : List Label :=
  firstBuild ++ secondBuild ++ .done :: List.replicate 3 (.shadow good) ++
    .shadowRun :: List.replicate 2 (.shadow good)

/-- A fortunate transfer of three tables that ends with `hw_err`. -/
theorem last_build_interrupted :
    ¬ ∀ (x : Xfer) (supplies : List Supply) (ok : Bool) (d : Desc) (ls : List Label) (s : State),
      Sane x → deviceTransfer x supplies ok = some d → d.shadowState = .building →
      Machine.Admissible (step x) (Fortunate x) (issue d) ls →
      Machine.run (step x) (issue d) ls = some s →
      s.hwErr = false ∧ s.aborted = false ∧ s.unexpected = false := by
  intro hall
  have hend : (transfer shadowXfer supplies lateRun).map (·.hwErr) = some true := by decide
  have hrule : ∀ d ∈ deviceTransfer shadowXfer supplies true, d.shadowState = .building ∧
      Machine.Admissible (step shadowXfer) (Fortunate shadowXfer) (issue d) lateRun := by
    decide
  obtain ⟨s, hs, herr⟩ := Option.map_eq_some_iff.mp hend
  obtain ⟨d, hprep, hrun⟩ := Option.bind_eq_some_iff.mp hs
  obtain ⟨hshadow, rule⟩ := hrule d hprep
  have := hall shadowXfer supplies true d lateRun s shadowXfer_sane hprep hshadow rule hrun
  cases herr.symm.trans this.1

end DxNpuDriver.Edma.Transfer
