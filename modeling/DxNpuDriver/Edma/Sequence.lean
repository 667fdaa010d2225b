import DxNpuDriver.Edma.Coverage
import DxNpuDriver.Edma.Lli

/-! What the tables of a transfer are made of (`dw-edma-core.c`).

`Lli` says of one table that it moves what its bursts were to move if these go through the
device without a gap. Here that is shown of every table that any worker of `Transfer` has in
its hands, linked, staged, built or planned (`Sound`), and so of those that are rung for
(`run_sequenced`). -/
namespace DxNpuDriver.Edma.Transfer
open Fill
open Lli (Sequential)

/-! ### One table -/

/-- The table is filled without a gap, up to `addr` in the device. -/
structure Sequenced (dir : Dir) (c : Chunk) (addr : Nat) : Prop where
  head : c.head = true
  counted : Counted c
  sequential : Sequential dir c.bursts addr

/-- The chunk with its bursts in some place. -/
def placed (c : Chunk) : Batch.Chunk :=
  ⟨c.bursts.map (Prod.mk (.pool 0)), c.burstsAlloc, c.llRegionSz, c.cb⟩

theorem placed_bursts (c : Chunk) : (placed c).bursts.map Prod.snd = c.bursts := by
  rw [placed, List.map_map]
  exact List.map_id _

theorem ordered_placed {dir : Dir} {c : Chunk} {addr : Nat} :
    Lli.Ordered dir (placed c) addr ↔ Counted c ∧ Sequential dir c.bursts addr := by
  unfold Lli.Ordered
  rw [placed_bursts, placed]
  dsimp only
  rw [List.length_map]
  exact Iff.rfl

theorem placed_extendSgBurst (c : Chunk) (last : Burst) (len : Nat) :
    Batch.extendSgBurst (placed c) (.pool 0, last) len = placed (extendSgBurst c last len) := by
  simp only [Batch.extendSgBurst, placed, extendSgBurst, List.map_append, List.map_dropLast,
    List.map_cons, List.map_nil]

theorem placed_initSgBurst (dir : Dir) (c : Chunk) (host dev len : Nat) :
    Batch.initSgBurst dir (placed c) (.pool 0) host dev len =
      placed (initSgBurst dir c host dev len) := by
  cases dir <;>
    simp only [Batch.initSgBurst, placed, initSgBurst, List.map_append, List.map_cons, List.map_nil]

section Fill
variable {dir : Dir} {addr : Nat} {e : SgEntry}

theorem Sequenced.extend {c : Chunk} {last : Burst} (h : Sequenced dir c addr)
    (hlast : lastDataBurst c = some last)
    (hmerge : canMergeSgBurst dir last e.addr addr e.len = true) (hhost : e.addr + e.len ≤ u64Max)
    (hdev : addr + e.len ≤ u64Max) : Sequenced dir (extendSgBurst c last e.len) (addr + e.len) := by
  have hget : Batch.lastDataBurst (placed c) = some (.pool 0, last) := by
    rw [lastDataBurst, if_pos h.head] at hlast
    rw [Batch.lastDataBurst, placed]
    dsimp only
    rw [List.getLast?_map, hlast]
    rfl
  have hordered := Lli.extendSgBurst_ordered (ordered_placed.mpr ⟨h.counted, h.sequential⟩) hget
    hmerge hhost hdev
  rw [placed_extendSgBurst, ordered_placed] at hordered
  exact ⟨h.head, hordered.1, hordered.2⟩

theorem Sequenced.init {c : Chunk} (h : Sequenced dir c addr) (hhost : e.addr + e.len ≤ u64Max)
    (hdev : addr + e.len ≤ u64Max) :
    Sequenced dir (initSgBurst dir c e.addr addr e.len) (addr + e.len) := by
  have hordered : Lli.Ordered dir (Batch.initSgBurst dir (placed c) (.pool 0) e.addr addr e.len)
      (addr + e.len) :=
    Lli.initSgBurst_ordered (ordered_placed.mpr ⟨h.counted, h.sequential⟩) hhost hdev
  rw [placed_initSgBurst, ordered_placed] at hordered
  exact ⟨h.head, hordered.1, hordered.2⟩

theorem placeEntry_sequenced {allocated : Nat} {p : Progress} {r : Chunk × Nat × Nat}
    (hplace : placeEntry dir allocated e p = some r) (h : Sequenced dir p.chunk p.addr)
    (hhost : e.addr + e.len ≤ u64Max) (hdev : p.addr + e.len ≤ u64Max) :
    Sequenced dir r.1 (p.addr + e.len) ∧ r.1.burstsAlloc ≤ p.chunk.burstsAlloc + 1 := by
  simp only [placeEntry] at hplace
  split at hplace
  · rename_i last hlast
    obtain ⟨hget, hmerge⟩ := Option.filter_eq_some_iff.mp hlast
    cases hplace
    exact ⟨h.extend hget hmerge hhost hdev, Nat.le_succ _⟩
  · split at hplace
    · cases hplace
      exact ⟨h.init hhost hdev, Nat.le_refl _⟩
    · split at hplace
      · cases hplace
        exact ⟨h.init hhost hdev, Nat.le_refl _⟩
      · cases hplace

/-- The loop goes on in sequence, and takes at most one burst for an entry. -/
theorem fillLoop_sequenced {need allocated : Nat} {sg : List SgEntry} {p : Progress}
    (h : Sequenced dir p.chunk p.addr) (hneed : p.consumed ≤ need) :
    let r := fillLoop dir need allocated sg p
    Sequenced dir r.1.chunk r.1.addr ∧
      r.1.chunk.burstsAlloc + r.1.remaining ≤ p.chunk.burstsAlloc + p.remaining ∧
      r.1.chunk.burstsAlloc + p.consumed ≤ p.chunk.burstsAlloc + need := by
  induction sg generalizing p with
  | nil => exact ⟨h, Nat.le_refl _, Nat.add_le_add_left hneed _⟩
  | cons e sg ih =>
    have stop : Sequenced dir p.chunk p.addr ∧
        p.chunk.burstsAlloc + p.remaining ≤ p.chunk.burstsAlloc + p.remaining ∧
        p.chunk.burstsAlloc + p.consumed ≤ p.chunk.burstsAlloc + need :=
      ⟨h, Nat.le_refl _, Nat.add_le_add_left hneed _⟩
    simp only [fillLoop]
    split
    · rename_i hgo
      split
      · exact stop
      · rename_i hin
        have hlen := Batch.len_le e
        cases hplace : placeEntry dir allocated e p with
        | none => exact stop
        | some r =>
          obtain ⟨hr, hone⟩ := placeEntry_sequenced hplace h (by omega) (by omega)
          obtain ⟨hseq, hleft, hused⟩ := @ih
            {p with chunk := r.1, used := r.2.1, single := r.2.2, addr := p.addr + e.len,
                    remaining := p.remaining - 1,
                    allocAccum := (p.allocAccum + e.len) % 2 ^ 32, consumed := p.consumed + 1}
            hr hgo.1
          refine ⟨hseq, ?_, ?_⟩
          · have hpassed :
                r.1.burstsAlloc + (p.remaining - 1) ≤ p.chunk.burstsAlloc + p.remaining := by
              omega
            exact hleft.trans hpassed
          · have hroom : r.1.burstsAlloc + need ≤ p.chunk.burstsAlloc + need + 1 := by omega
            exact Nat.le_of_succ_le_succ (hused.trans hroom)
    · exact stop

/-- A fill that succeeds leaves the table in sequence up to the cursor that it leaves. It has
no more bursts than the channel has elements, and than entries were passed. -/
theorem fillSgBursts_sequenced {llMax batchMax accum n : Nat} {supply : Supply} {c : Chunk}
    {cur : Cursor} (h : Sequenced dir c cur.addr) (hmax : c.burstsAlloc ≤ llMax)
    (hret : (fillSgBursts dir llMax batchMax supply c cur accum).ret = .ok n) :
    let f := fillSgBursts dir llMax batchMax supply c cur accum
    Sequenced dir f.chunk f.cur.addr ∧ f.chunk.burstsAlloc ≤ llMax ∧
      f.chunk.burstsAlloc + f.cur.remaining ≤ c.burstsAlloc + cur.remaining := by
  simp only [fillSgBursts] at hret ⊢
  split
  · exact ⟨h, hmax, Nat.le_refl _⟩
  · rename_i hsome
    rw [if_neg hsome] at hret
    have hloop := @fillLoop_sequenced dir (min cur.remaining (min (llMax - c.burstsAlloc) batchMax))
      (min (min cur.remaining (min (llMax - c.burstsAlloc) batchMax)) supply.batch) cur.sg
      ⟨c, cur.remaining, cur.addr, accum, 0, supply.single, 0, false⟩ h (Nat.zero_le _)
    generalize fillLoop dir _ _ cur.sg _ = r at hret hloop ⊢
    obtain ⟨hseq, hleft, hused⟩ := hloop
    dsimp only at hseq hleft hused
    split at hret
    · cases hret
    · rename_i hfailed
      rw [if_neg hfailed]
      split at hret
      · cases hret
      · rename_i hend
        rw [if_neg hend]
        exact ⟨hseq, by dsimp only; omega, hleft⟩

end Fill

/-! ### The tables of a state -/

/-- What a table of the transfer is like. -/
structure Fit (x : Xfer) (c : Chunk) : Prop where
  sequenced : ∃ addr, Sequenced x.dir c addr
  filled : c.bursts ≠ []
  le_max : c.burstsAlloc ≤ x.llMax
  le_len : c.burstsAlloc ≤ x.len

/-- A table that is filled from the start, at a position of the list. -/
theorem fit_of_fill {x : Xfer} {batchMax accum n m : Nat} {supply : Supply} {c : Chunk}
    (hempty : c.bursts = [])
    (hret :
      (fillSgBursts x.dir x.llMax batchMax supply (allocHead c) (x.at n) accum).ret = .ok (m + 1)) :
    Fit x (fillSgBursts x.dir x.llMax batchMax supply (allocHead c) (x.at n) accum).chunk := by
  have hcounted : Counted (allocHead c) := by
    rw [Counted, allocHead, hempty]
    rfl
  have hstart : Sequenced x.dir (allocHead c) (x.at n).addr := by
    refine ⟨rfl, hcounted, ?_⟩
    rw [allocHead, hempty]
    exact Lli.sequential_nil
  obtain ⟨hseq, hmax, hlen⟩ := fillSgBursts_sequenced hstart (Nat.zero_le _) hret
  have hat := x.at_remaining n
  have hzero : (allocHead c).burstsAlloc = 0 := rfl
  have hpos := ((fillSgBursts_ok hret).counted hcounted).2 (Nat.succ_pos m)
  rw [hseq.counted] at hpos
  exact ⟨⟨_, hseq⟩, List.ne_nil_of_length_pos hpos, hmax, by omega⟩

def Launch.tables : Launch → List Chunk
  | .prepare child | .ring child _ => [child]
  | .idle | .entry => []

def Refill.tables : Refill → List Chunk
  | .prepare child _ | .commit child (some _) => [child]
  | .idle | .wait | .claim _ | .fill _ | .commit _ none => []

def Shadow.tables : Shadow → List Chunk
  | .prebuild c | .prealloc c | .turn c _ | .readStarted c | .readStatus c | .clearStarted c
  | .handoff c | .recheck c | .precopy c _ | .launch c _ => [c]
  | .idle | .entry | .noChunk | .fill _ | .failed | .precopyFailed _ | .queueNext | .setAborted
  | .clearLazy => []

/-- Every table that is rung for, or may come to be, is fit. A chunk without its anchor is
no table yet. -/
structure Sound (x : Xfer) (s : State) : Prop where
  rung : ∀ c ∈ s.rung, Fit x c
  chunks : ∀ c ∈ s.desc.chunks, Fit x c
  staged : ∀ c, s.pendingLaunch = some c → Fit x c
  launch : ∀ c ∈ s.launch.tables, Fit x c
  lazy : ∀ c ∈ s.lazy.tables, Fit x c
  shadow : ∀ c ∈ s.shadow.tables, Fit x c
  built : ∀ c, s.desc.shadowChunk = some c → c.head = true → Fit x c

theorem absent {p : Chunk → Prop} (c : Chunk) (h : none = some c) : p c := nomatch h

/-! ### Done -/

theorem Sound.credit {x : Xfer} {s : State} (inv : Sound x s) (xferSz : Nat) :
    Sound x (credit xferSz s) := {inv with}

theorem doneInterrupt_sound {x : Xfer} {k n : Nat} {s : State} (cover : Cover x k n s)
    (inv : Sound x s) : Sound x (doneInterrupt s) := by
  obtain h | ⟨-, xferSz, h | h⟩ :=
    doneInterrupt_cases cover.base.single fun hs => (cover.base.started hs).2
  · rw [h]
    exact inv
  · rw [h]
    exact inv.credit xferSz
  · generalize doneInterrupt s = t at h ⊢
    cases h with
    | finished => exact {inv with chunks := List.forall_mem_nil _}
    | handed => exact {inv with}
    | refill => exact {inv with}
    | stuck => exact {inv with}
    | unexpected => exact {inv with chunks := List.forall_mem_nil _}

/-! ### The workers -/

theorem launchStep_sound {x : Xfer} {s t : State} {env : Env} (inv : Sound x s)
    (h : launchStep env s = some t) : Sound x t := by
  cases launchStep_cases h with
  | nothing => exact {inv with launch := List.forall_mem_nil _}
  | dropped => exact {inv with launch := List.forall_mem_nil _, staged := absent}
  | taken child hl hpend =>
    exact {inv with
      launch := List.forall_mem_singleton.mpr (inv.staged child hpend)
      staged := absent}
  | prepared child hl =>
    have htables := inv.launch
    rw [hl] at htables
    exact {inv with launch := htables}
  | unprepared | refused | stale => exact {inv with launch := List.forall_mem_nil _}
  | rung child pending hl =>
    have htables := inv.launch
    rw [hl] at htables
    exact {inv with launch := List.forall_mem_nil _, rung := List.forall_mem_append.mpr ⟨inv.rung, htables⟩}

/-- A refill fills its table from where the cursor stands. -/
theorem lazyRefillChunkPrepare_fit {x : Xfer} {n : Nat} {supply : Supply} {d : Desc}
    {child c : Chunk} {plan : Plan} (hcur : d.cur = x.at n)
    (h : lazyRefillChunkPrepare x supply d child = (c, some plan)) : Fit x c := by
  simp only [lazyRefillChunkPrepare] at h
  split at h
  · cases h
  · split at h
    · cases h
    · split at h
      · rename_i m hret
        cases h
        rw [hcur] at hret ⊢
        exact fit_of_fill rfl hret
      · cases h

theorem lazyStep_sound {x : Xfer} {k n : Nat} {s t : State} {env : Env} (cover : Cover x k n s)
    (inv : Sound x s) (h : lazyStep x env s = some t) : Sound x t := by
  have hrun : s.lazy ≠ .idle := fun hl => by simp [lazyStep, hl] at h
  have hinit : s.desc.lazyWorkInitialized = true := by
    by_contra hinit
    exact hrun (cover.shadowed (Bool.eq_false_iff.mpr hinit)).lazy.1
  have htables := inv.lazy
  cases lazyStep_cases h with
  | waited | unclaimed | gaveUp | failed | unfilled => exact {inv with lazy := List.forall_mem_nil _}
  | claimed ret child rest hl hchunks =>
    have hrest := inv.chunks
    rw [hchunks] at hrest
    exact {inv with
      lazy := List.forall_mem_nil _
      chunks := fun c hc => hrest c (List.mem_cons_of_mem _ hc)}
  | filled child c plan hl hfill =>
    have hfit := lazyRefillChunkPrepare_fit (cover.fixed hinit).cur hfill
    exact {inv with lazy := List.forall_mem_singleton.mpr hfit}
  | prepared child plan hl =>
    rw [hl] at htables
    refine {inv with lazy := ?_}
    dsimp only
    split
    · exact htables
    · exact List.forall_mem_nil _
  | dropped => exact {inv with lazy := List.forall_mem_nil _}
  | refilled child plan hl =>
    rw [hl] at htables
    have hchild : Fit x child := htables child List.mem_cons_self
    exact {inv with
      lazy := List.forall_mem_nil _
      rung := List.forall_mem_append.mpr ⟨inv.rung, htables⟩
      chunks := List.forall_mem_cons.mpr ⟨hchild, inv.chunks⟩}

/-- A build fills its table from where `shadow_next` stands. -/
theorem shadowFillChunk_fit {x : Xfer} {n : Nat} {supply : Supply} {d d' : Desc} {c c' : Chunk}
    (hempty : c.bursts = []) (hnext : d.shadowNext = x.at n)
    (h : shadowFillChunk x supply d c = (d', some c')) : Fit x c' := by
  simp only [shadowFillChunk] at h
  split at h
  · cases h
  · split at h
    · rename_i m hret
      cases h
      rw [hnext] at hret ⊢
      exact fit_of_fill hempty hret
    · cases h

theorem shadowFillChunk_chunk {x : Xfer} {supply : Supply} {d d' : Desc} {c : Chunk}
    {r : Option Chunk} (h : shadowFillChunk x supply d c = (d', r)) :
    d'.shadowChunk = d.shadowChunk := by
  simp only [shadowFillChunk] at h
  split at h
  · cases h
    rfl
  · split at h
    · cases h
      rfl
    · cases h
      rfl

/-- The worker consumes the handoff of a table that it has. -/
theorem Sound.consumeHandoff {x : Xfer} {s : State} {c : Chunk} (inv : Sound x s) (hc : Fit x c) :
    Sound x (consumeHandoff c s) :=
  {inv with shadow := List.forall_mem_singleton.mpr hc}

/-- The last section, with a chunk for the build after the next that has no anchor yet. -/
theorem shadowLaunch_sound {x : Xfer} {s : State} {c : Chunk} {next : Option Chunk} (allowed : Bool)
    (inv : Sound x s) (hc : Fit x c) (hspare : Spare next) :
    Sound x (shadowLaunch allowed c next s) := by
  have hrung : ∀ u ∈ s.rung ++ [c], Fit x u :=
    List.forall_mem_append.mpr ⟨inv.rung, List.forall_mem_singleton.mpr hc⟩
  have hchunks : ∀ u ∈ c :: s.desc.chunks.tail, Fit x u :=
    List.forall_mem_cons.mpr ⟨hc, fun u hu => inv.chunks u (List.mem_of_mem_tail hu)⟩
  simp only [shadowLaunch]
  split
  · exact {inv with shadow := List.forall_mem_nil _}
  · split
    · exact {inv with shadow := List.forall_mem_nil _, chunks := hchunks, built := absent}
    · split
      · cases next with
        | none => exact {inv with rung := hrung, shadow := List.forall_mem_nil _, chunks := hchunks, built := absent}
        | some u =>
          refine {inv with rung := hrung, shadow := List.forall_mem_nil _, chunks := hchunks, built := ?_}
          intro v hv hhead
          cases hv
          have hnone := (hspare u rfl).1
          rw [show u.head = true from hhead] at hnone
          cases hnone
      · exact {inv with rung := hrung, shadow := List.forall_mem_nil _, chunks := hchunks, built := absent}

theorem shadowStep_sound {x : Xfer} {k n : Nat} {s t : State} {env : Env} (cover : Cover x k n s)
    (inv : Sound x s) (h : shadowStep x env s = some t) : Sound x t := by
  have hrun : s.shadow ≠ .idle := fun hs => by simp [shadowStep, hs] at h
  have hinit : s.desc.lazyWorkInitialized = false := by
    refine Bool.eq_false_iff.mpr fun hinit => ?_
    exact hrun (cover.fixed hinit).idle.2.1
  have place := (cover.shadowed hinit).place
  have htables := inv.shadow
  cases hs : s.shadow with
  | idle => exact absurd hs hrun
  | entry =>
    simp only [shadowStep, hs] at h
    split at h
    · cases h
      exact {inv with shadow := List.forall_mem_nil _}
    · rename_i c hchunk
      split at h
      · rename_i hhandoff
        cases h
        exact inv.consumeHandoff (inv.built c hchunk hhandoff.2.1)
      · cases h
        exact {inv with shadow := List.forall_mem_nil _}
  | fill c =>
    simp only [ShadowAt, hs] at place
    obtain ⟨-, unbuilt, -⟩ := place
    simp only [shadowStep, hs] at h
    split at h
    · rename_i d c' hfill
      cases h
      have hc' := shadowFillChunk_fit unbuilt.bursts unbuilt.next hfill
      obtain ⟨hchunks, -⟩ := shadowFillChunk_same hfill
      refine {inv with
        shadow := List.forall_mem_singleton.mpr hc'
        chunks := ?_
        built := ?_}
      · dsimp only
        rw [hchunks]
        exact inv.chunks
      · intro u hu _
        cases hu
        exact hc'
    · rename_i d hfill
      cases h
      obtain ⟨hchunks, -⟩ := shadowFillChunk_same hfill
      refine {inv with shadow := List.forall_mem_nil _, chunks := ?_, built := ?_}
      · dsimp only
        rw [hchunks]
        exact inv.chunks
      · dsimp only
        rw [shadowFillChunk_chunk hfill]
        exact inv.built
  | turn c next =>
    rw [hs] at htables
    simp only [shadowStep, hs] at h
    split at h
    · cases h
      exact {inv with shadow := htables}
    · cases h
      exact {inv with shadow := htables}
    · cases h
      exact {inv with shadow := List.forall_mem_nil _}
    · cases h
      exact {inv with shadow := List.forall_mem_nil _}
    · cases h
      exact {inv with shadow := List.forall_mem_nil _}
  | prebuild c =>
    rw [hs] at htables
    simp only [shadowStep, hs, Option.some.injEq] at h
    subst h
    refine {inv with shadow := ?_}
    dsimp only
    split
    · exact htables
    · exact List.forall_mem_nil _
  | readStarted c | readStatus c =>
    rw [hs] at htables
    simp only [shadowStep, hs, Option.some.injEq] at h
    subst h
    refine {inv with shadow := ?_}
    dsimp only
    split
    · exact htables
    · exact htables
  | prealloc c | clearStarted c =>
    rw [hs] at htables
    simp only [shadowStep, hs, Option.some.injEq] at h
    subst h
    exact {inv with shadow := htables}
  | handoff c =>
    rw [hs] at htables
    have hc := htables c List.mem_cons_self
    simp only [shadowStep, hs] at h
    split at h
    · split at h
      · cases h
        exact {inv with shadow := htables}
      · cases h
        exact {inv with shadow := List.forall_mem_singleton.mpr hc}
    · cases h
      exact {inv with shadow := htables}
  | recheck c =>
    rw [hs] at htables
    have hc := htables c List.mem_cons_self
    simp only [shadowStep, hs] at h
    split at h
    · cases h
      exact inv.consumeHandoff hc
    · cases h
      exact {inv with shadow := List.forall_mem_nil _}
  | precopy c next =>
    rw [hs] at htables
    simp only [shadowStep, hs] at h
    split at h
    · cases h
      exact {inv with shadow := htables}
    · cases h
      exact {inv with shadow := List.forall_mem_nil _}
  | launch c next =>
    rw [hs] at htables
    simp only [ShadowAt, hs] at place
    simp only [shadowStep, hs, Option.some.injEq] at h
    subst h
    exact shadowLaunch_sound env.yes inv (htables c List.mem_cons_self) place.2.2.2
  | failed | precopyFailed cancelled =>
    simp only [shadowStep, hs, Option.some.injEq] at h
    subst h
    exact {inv with shadow := List.forall_mem_nil _, built := absent}
  | noChunk | queueNext | setAborted | clearLazy =>
    simp only [shadowStep, hs, Option.some.injEq] at h
    subst h
    exact {inv with shadow := List.forall_mem_nil _}

theorem step_sound {x : Xfer} (s : State) (l : Label) (t : State)
    (inv : (∃ k n, Cover x k n s) ∧ Sound x s) (h : step x s l = some t) :
    (∃ k n, Cover x k n t) ∧ Sound x t := by
  refine ⟨step_cover s l t inv.1 h, ?_⟩
  obtain ⟨⟨k, n, cover⟩, inv⟩ := inv
  cases l with
  | done =>
    cases h
    exact doneInterrupt_sound cover inv
  | launchRun =>
    simp only [step, Option.ite_none_right_eq_some, Option.some.injEq] at h
    obtain ⟨-, rfl⟩ := h
    exact {inv with launch := List.forall_mem_nil _}
  | lazyRun =>
    simp only [step, Option.ite_none_right_eq_some, Option.some.injEq] at h
    obtain ⟨-, rfl⟩ := h
    exact {inv with lazy := List.forall_mem_nil _}
  | shadowRun =>
    simp only [step, Option.ite_none_right_eq_some, Option.some.injEq] at h
    obtain ⟨-, rfl⟩ := h
    exact {inv with shadow := List.forall_mem_nil _}
  | launch env => exact launchStep_sound inv h
  | lazy env => exact lazyStep_sound cover inv h
  | shadow env => exact shadowStep_sound cover inv h

/-! ### Preparation -/

/-- The one table that a descriptor is prepared with. -/
structure Prefilled (x : Xfer) (d : Desc) : Prop where
  chunks : ∀ c ∈ d.chunks, c.bursts ≠ [] → Fit x c
  shadowChunk : ∀ c, d.shadowChunk = some c → c.head = false

theorem prepareEnd_prefilled {x : Xfer} {ok : Bool} {c : Chunk} {cur : Cursor} {allocSz : Nat}
    {d : Desc} (hc : c.bursts ≠ [] → Fit x c) (h : prepareEnd x ok c cur allocSz = some (some d)) :
    Prefilled x d := by
  have hone : ∀ u ∈ [c], u.bursts ≠ [] → Fit x u := List.forall_mem_singleton.mpr hc
  simp only [prepareEnd] at h
  split at h
  · cases h
    exact ⟨hone, absent⟩
  · split at h
    · cases h
    · split at h
      · cases h
        simp only [prepareLazy]
        split
        · simp only [shadowPrepareBuild]
          split
          · refine ⟨hone, fun u hu => ?_⟩
            cases hu
            rfl
          · exact ⟨hone, absent⟩
        · exact ⟨hone, absent⟩
      · cases h

/-- The passes of the loop go on with one table. -/
theorem prepareLoop_prefilled {x : Xfer} {ok : Bool} {supplies : List Supply} {c : Chunk}
    {cur : Cursor} {allocSz : Nat} {d : Desc} (hseq : Sequenced x.dir c cur.addr)
    (hmax : c.burstsAlloc ≤ x.llMax) (hlen : c.burstsAlloc + cur.remaining ≤ x.len)
    (h : prepareLoop x ok supplies c cur allocSz = some d) : Prefilled x d := by
  have hc : c.bursts ≠ [] → Fit x c := fun hne => ⟨⟨_, hseq⟩, hne, hmax, by omega⟩
  induction supplies generalizing c cur allocSz with
  | nil =>
    simp only [prepareLoop, Option.join_eq_some_iff] at h
    exact prepareEnd_prefilled hc h
  | cons supply supplies ih =>
    simp only [prepareLoop] at h
    split at h
    · rename_i r hend
      rw [h] at hend
      exact prepareEnd_prefilled hc hend
    · split at h
      · rename_i m hret
        obtain ⟨hseq', hmax', hlen'⟩ := fillSgBursts_sequenced hseq hmax hret
        exact ih hseq' hmax' (hlen'.trans hlen) h fun hne => ⟨⟨_, hseq'⟩, hne, hmax', by omega⟩
      · cases h

theorem deviceTransfer_prefilled {x : Xfer} {supplies : List Supply} {ok : Bool} {d : Desc}
    (h : deviceTransfer x supplies ok = some d) : Prefilled x d := by
  simp only [deviceTransfer] at h
  split at h
  · cases h
  · have hstart : Sequenced x.dir (allocChunk x) x.addr := ⟨rfl, rfl, Lli.sequential_nil⟩
    have hlen : (allocChunk x).burstsAlloc + x.len ≤ x.len := Nat.le_of_eq (Nat.zero_add _)
    exact prepareLoop_prefilled hstart (Nat.zero_le _) hlen h

theorem issue_sound {x : Xfer} {supplies : List Supply} {ok : Bool} {d : Desc}
    (hmax : 1 ≤ x.llMax) (h : deviceTransfer x supplies ok = some d) :
    (∃ k n, Cover x k n (issue d)) ∧ Sound x (issue d) := by
  obtain ⟨n, c, hfirst, hprepared, hfilled⟩ := deviceTransfer_prepared hmax h
  refine ⟨⟨0, n, issue_cover hfirst hfilled hprepared⟩, ?_⟩
  obtain ⟨hchunks, hshadow⟩ := deviceTransfer_prefilled h
  have hone : d.chunks = [c] := by cases hprepared <;> assumption
  rw [hfirst.counted] at hfilled
  have hc : Fit x c := hchunks c (by rw [hone]; exact List.mem_cons_self)
    (List.ne_nil_of_length_pos hfilled)
  rw [issue_staged hfirst (by rw [hfirst.counted]; exact hfilled) hone]
  refine ⟨List.forall_mem_nil _, ?_, fun u hu => ?_, List.forall_mem_nil _, List.forall_mem_nil _,
    List.forall_mem_nil _, fun u hu hhead => ?_⟩
  · dsimp only
    rw [hone]
    exact List.forall_mem_singleton.mpr hc
  · cases hu
    exact hc
  · rw [hshadow u hu] at hhead
    cases hhead

/-- The tables that a run has rung for. -/
theorem run_sequenced {x : Xfer} {supplies : List Supply} {ok : Bool} {d : Desc} {ls : List Label}
    {s : State} (hmax : 1 ≤ x.llMax) (hprep : deviceTransfer x supplies ok = some d)
    (h : Machine.run (step x) (issue d) ls = some s) : ∀ c ∈ s.rung, Fit x c :=
  (Machine.invariant (step x) step_sound (issue_sound hmax hprep) h).2.rung

end DxNpuDriver.Edma.Transfer
