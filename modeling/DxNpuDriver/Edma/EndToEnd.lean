import DxNpuDriver.Edma.Sequence
import DxNpuDriver.Edma.Table
import DxNpuDriver.Edma.UserSgl
import Mathlib.Data.List.Enum

/-! From the user's buffer to the device (`dx_sgdma.c`, `dw-edma-core.c`, `dw-edma-v0-core.c`).

A transfer goes through four forms: the pages of the buffer, the scatter-gather list that
`dma_map_sg` makes of them, the bursts of the tables, and the tables as bytes, which are
written to `desc_buf`, copied to the region in the device and read there by the engine.

Here the machine of `Table` has both buffers as bytes beside it, and the engine as what it
moves. `run_moves` says that it moves the list, entry by entry, `buffer_moved` that it moves
the buffer, byte for byte. -/
namespace DxNpuDriver.Edma.EndToEnd
open Fill Extent
open Transfer (Xfer Fit)
open Lli (Region WellFormed)

/-! ### The engine -/

/-- What the engine reads from the region: data elements, up to one whose change bit is not
the one it was started with, or to a link. -/
def fetch (ccs : Bool) (ll : Bytes) : Nat → Nat → List Burst
  | 0, _ => []
  | fuel + 1, i =>
    let control := Lli.controlWord ll i
    if control.testBit Lli.CB ≠ ccs ∨ control.testBit Lli.LLP then []
    else Lli.element ll i :: fetch ccs ll fuel (i + 1)

/-- The elements of a table that is well formed, and no more. -/
theorem fetch_wellFormed {cb : Bool} {paddr : UInt64} {bursts : List Burst} {ll : Bytes} {fuel : Nat}
    (h : WellFormed cb paddr bursts ll) (hfuel : bursts.length < fuel) :
    fetch cb ll fuel 0 = bursts.map Lli.truncate := by
  have from_of : ∀ k fuel i, bursts.length = i + k → k < fuel →
      fetch cb ll fuel i = (bursts.drop i).map Lli.truncate := by
    intro k
    induction k with
    | zero =>
      intro fuel i hlen hfuel
      obtain ⟨fuel, rfl⟩ : ∃ m, fuel = m + 1 := ⟨fuel - 1, by omega⟩
      have hi : bursts.length = i := by omega
      have hlink := h.link.1
      rw [hi] at hlink
      rw [fetch, if_pos (.inr hlink), List.drop_eq_nil_of_le (Nat.le_of_eq hi)]
      rfl
    | succ k ih =>
      intro fuel i hlen hfuel
      obtain ⟨fuel, rfl⟩ : ∃ m, fuel = m + 1 := ⟨fuel - 1, by omega⟩
      have hi : i < bursts.length := by omega
      obtain ⟨hllp, -, hcb⟩ := h.data i hi
      have hgo : ¬((Lli.controlWord ll i).testBit Lli.CB ≠ cb ∨
          (Lli.controlWord ll i).testBit Lli.LLP = true) := by
        rw [hcb, hllp]
        simp
      rw [fetch, if_neg hgo, h.element i hi, ih fuel (i + 1) (by omega) (by omega),
        List.drop_eq_getElem_cons hi]
      rfl
  have hall := from_of bursts.length fuel 0 (Nat.zero_add _).symm hfuel
  rwa [List.drop_zero] at hall

/-! ### The buffers as bytes -/

/-- `desc_buf`, with how much of it is copied, the region in the device, and what the engine
has moved. -/
structure Memory where
  host : Bytes
  len : Nat
  ll : Bytes
  moved : List (Nat × Nat)

section Machine
variable (x : Xfer) (region : Region) (broken : Bytes → Bytes)

/-- `dw_edma_v0_core_write_chunk`; which bursts of the pool a chunk has makes no difference. -/
def written (c : Chunk) (host : Bytes) : Lli.Written :=
  Lli.writeChunk x.dir region 0 (Transfer.placed c) [] host

/-- The chunk whose table a step writes. -/
def writes (s : Table.State) : Table.Label → Option Chunk
  | .launchWrite =>
    match s.channel.launch with
    | .prepare child => some child
    | _ => none
  | .lazyWrite =>
    match s.channel.lazy with
    | .prepare child _ => some child
    | _ => none
  | l => Table.prebuilds s l

/-- `broken` is what a copy that fails leaves. The doorbell starts the engine with the change
bit of the chunk. -/
def Memory.after (m : Memory) (s : Table.State) (l : Table.Label) (t : Table.State) : Memory :=
  { host := (writes s l).elim m.host fun c => (written x region c m.host).host
    len := (writes s l).elim m.len fun c => Lli.copied (written x region c m.host).chunk
    ll :=
      if (Table.copies s l).isSome then
        if Table.ret l = .ok then m.ll.copy 0 m.len m.host else broken m.ll
      else m.ll
    moved := m.moved ++ (t.channel.rung.drop s.channel.rung.length).flatMap fun c =>
      bytes x.dir (fetch c.cb m.ll (region.sz / Lli.EDMA_LL_SZ) 0) }

def step (s : Table.State × Memory) (l : Table.Label) : Option (Table.State × Memory) :=
  (Table.step x s.1 l).map fun t => (t, s.2.after x region broken s.1 l t)

end Machine

/-! ### One table -/

/-- The region that a channel has, and a host buffer that holds as much. -/
structure Region.Ready (region : Region) (llMax : Nat) : Prop where
  mapped : region.mapped = true
  room : 2 * Lli.EDMA_LL_SZ ≤ region.sz
  host : region.sz ≤ Lli.EDMA_CHUNK_SIZE
  max : llMax = (Lli.llMax region).toNat

section One
variable {x : Xfer} {region : Region} {c : Chunk}

/-- The bursts of the table of a chunk, after the merge. -/
def merged (x : Xfer) (region : Region) (c : Chunk) : List Burst :=
  (written x region c fun _ => 0).chunk.bursts.map Prod.snd

theorem placed_ne_nil (hc : c.bursts ≠ []) : (Transfer.placed c).bursts ≠ [] := by
  intro hnil
  exact hc (List.map_eq_nil_iff.mp hnil)

theorem written_chunk (hmapped : region.mapped = true) (hc : c.bursts ≠ []) (host host' : Bytes) :
    (written x region c host).chunk = (written x region c host').chunk := by
  obtain ⟨ptr, rest, hlist⟩ := List.exists_cons_of_ne_nil (placed_ne_nil hc)
  rw [written, written, Lli.writeChunk_eq hmapped hlist, Lli.writeChunk_eq hmapped hlist]

theorem Fit.counted_placed (h : Fit x c) :
    (Transfer.placed c).burstsAlloc = (Transfer.placed c).bursts.length := by
  obtain ⟨addr, hseq⟩ := h.sequenced
  show c.burstsAlloc = _
  rw [Transfer.placed, List.length_map]
  exact hseq.counted

/-- A table that is written fits `desc_buf` and the region. -/
theorem Fit.fits (h : Fit x c) (ready : Region.Ready region x.llMax) (host : Bytes) :
    Lli.Fits region (Transfer.placed c) (written x region c host) := by
  have hsz := ready.room
  have hmax : (Transfer.placed c).burstsAlloc ≤ (Lli.llMax region).toNat := ready.max ▸ h.le_max
  have htable : if region.mapped then
      _ ∧ Lli.Fits region (Transfer.placed c) (written x region c host)
      else written x region c host = _ :=
    Lli.table_fits (placed_ne_nil h.filled) (Fit.counted_placed h) hmax
      (Lli.llMax_eq (by omega) ready.host) ready.host
  rw [if_pos ready.mapped] at htable
  exact htable.2

theorem Fit.merged_eq (h : Fit x c) (ready : Region.Ready region x.llMax) (host : Bytes) :
    (written x region c host).chunk.bursts.map Prod.snd = merged x region c := by
  rw [merged, written_chunk ready.mapped h.filled host fun _ => 0]

/-- The region has the table of the chunk after the copy. -/
theorem Fit.copied (h : Fit x c) (ready : Region.Ready region x.llMax) (host ll : Bytes) :
    WellFormed c.cb region.paddr (merged x region c)
      (ll.copy 0 (Lli.copied (written x region c host).chunk) (written x region c host).host) := by
  rw [← Fit.merged_eq h ready host]
  exact (Fit.fits h ready host).device ll

theorem short_of_total {dir : Dir} {bursts : List Burst} (h : total Burst.sz bursts < 2 ^ 32) :
    Lli.Short dir bursts := by
  intro pre run post heq _
  rw [heq, total_append, total_append] at h
  omega

/-- What the engine moves when it finds the table of the chunk. -/
theorem Fit.engine (h : Fit x c) (ready : Region.Ready region x.llMax) {ll : Bytes}
    (htable : WellFormed c.cb region.paddr (merged x region c) ll)
    (hshort : total Burst.sz c.bursts < 2 ^ 32) :
    bytes x.dir (fetch c.cb ll (region.sz / Lli.EDMA_LL_SZ) 0) = bytes x.dir c.bursts := by
  obtain ⟨addr, hseq⟩ := h.sequenced
  have hfits := Fit.fits h ready fun _ => 0
  have hw : Lli.Writes region (Transfer.placed c) (written x region c fun _ => 0) :=
    Lli.writeChunk_writes ready.mapped (placed_ne_nil h.filled) (Fit.counted_placed h)
  have hlen : (merged x region c).length < region.sz / Lli.EDMA_LL_SZ := by
    have hle := hw.le
    have hmax := h.le_max
    have hll := Lli.llMax_eq (by have := ready.room; omega) ready.host
    have hcount : (Transfer.placed c).burstsAlloc = c.burstsAlloc := rfl
    rw [ready.max] at hmax
    rw [merged, List.length_map, ← hfits.counted]
    omega
  have htrunc : (merged x region c).map Lli.truncate =
      Lli.table (written x region c fun _ => 0) := by
    refine List.ext_getElem ?_ fun i hi hi' => ?_
    · rw [List.length_map, merged, List.length_map, Lli.table, List.length_map, List.length_range,
        hfits.counted]
    · rw [List.length_map] at hi
      simp only [List.getElem_map, Lli.table, List.getElem_range]
      exact (hfits.host.element i hi).symm
  have hordered := Transfer.ordered_placed.mpr ⟨hseq.counted, hseq.sequential⟩
  have hplain : (Transfer.placed c).plain.bursts = c.bursts := Transfer.placed_bursts c
  rw [fetch_wellFormed htable hlen, htrunc]
  refine ((Lli.table_bytes_iff hordered ready.mapped).mpr ?_).trans (by rw [hplain])
  rw [hplain]
  exact short_of_total hshort

end One

/-! ### Steps -/

section Step
variable {x : Xfer} {region : Region} {broken : Bytes → Bytes}

/-- A doorbell adds one table, and nothing else adds any. -/
theorem rung_grows {s t : Transfer.State} {l : Transfer.Label} {k n : Nat}
    (cover : Transfer.Cover x k n s) (h : Transfer.step x s l = some t) :
    t.rung = s.rung ∨ ∃ c, t.rung = s.rung ++ [c] := by
  cases l with
  | done =>
    cases h
    exact .inl (Table.doneInterrupt_frame s cover.base.single fun hs => (cover.base.started hs).2).1
  | launchRun | lazyRun | shadowRun =>
    simp only [Transfer.step, Option.ite_none_right_eq_some, Option.some.injEq] at h
    obtain ⟨-, rfl⟩ := h
    exact .inl rfl
  | launch env =>
    cases Transfer.launchStep_cases h with
    | rung child pending hl => exact .inr ⟨child, rfl⟩
    | _ => exact .inl rfl
  | lazy env =>
    cases Transfer.lazyStep_cases h with
    | refilled child plan hl => exact .inr ⟨child, rfl⟩
    | _ => exact .inl rfl
  | shadow env =>
    simp only [Transfer.step] at h
    cases hs : s.shadow with
    | launch c next =>
      simp only [Transfer.shadowStep, hs, Option.some.injEq, Transfer.shadowLaunch] at h
      subst h
      split
      · exact .inl rfl
      · split
        · exact .inl rfl
        · split
          · cases next with
            | none => exact .inr ⟨c, rfl⟩
            | some u => exact .inr ⟨c, rfl⟩
          · exact .inr ⟨c, rfl⟩
    | idle => simp [Transfer.shadowStep, hs] at h
    | _ =>
      simp only [Transfer.shadowStep, hs] at h
      repeat' split at h
      all_goals
        cases h
        exact .inl rfl

/-- What a step does to the channel and to what the buffers have. -/
structure Steps (x : Xfer) (s : Table.State) (l : Table.Label) (t : Table.State) : Prop where
  channel : t.channel = s.channel ∨ ∃ l', Transfer.step x s.channel l' = some t.channel
  descBuf : t.device.descBuf = (writes s l).or s.device.descBuf
  llRegion : t.device.llRegion =
    if (Table.copies s l).isSome then if Table.ret l = .ok then s.device.descBuf else none
    else s.device.llRegion

theorem step_steps {s t : Table.State} {l : Table.Label} (h : Table.step x s l = some t) :
    Steps x s l t := by
  cases l with
  | channel l =>
    simp only [Table.step] at h
    split at h
    · obtain ⟨u, hu, rfl⟩ := Option.map_eq_some_iff.mp h
      exact ⟨.inr ⟨l, hu⟩, rfl, rfl⟩
    · cases h
  | launchWrite =>
    simp only [Table.step] at h
    split at h
    · rename_i child hl
      split at h
      · cases h
      · cases h
        refine ⟨.inl rfl, ?_, rfl⟩
        rw [writes, hl]
        rfl
    · cases h
  | lazyWrite =>
    simp only [Table.step] at h
    split at h
    · rename_i child plan hl
      split at h
      · cases h
      · cases h
        refine ⟨.inl rfl, ?_, rfl⟩
        rw [writes, hl]
        rfl
    · cases h
  | finish =>
    simp only [Table.step] at h
    split at h
    · cases h
      exact ⟨.inl rfl, rfl, rfl⟩
    · cases h

/-- Whatever is written is a table of the transfer. -/
theorem writes_fit {s : Table.State} {l : Table.Label} {c : Chunk}
    (sound : Transfer.Sound x s.channel) (h : writes s l = some c) : Fit x c := by
  unfold writes at h
  split at h
  · split at h
    · rename_i child hl
      cases h
      have htables := sound.launch
      rw [hl] at htables
      exact htables c List.mem_cons_self
    · cases h
  · split at h
    · rename_i child plan hl
      cases h
      have htables := sound.lazy
      rw [hl] at htables
      exact htables c List.mem_cons_self
    · cases h
  · unfold Table.prebuilds at h
    split at h
    · split at h
      · rename_i hs
        split at h
        · cases h
          have htables := sound.shadow
          rw [hs] at htables
          exact htables c List.mem_cons_self
        · cases h
      · cases h
    · cases h

/-- The list is mapped to fewer bytes than 2^32. -/
def Small (x : Xfer) : Prop := total SgEntry.len (x.sgl.take x.len) < 2 ^ 32

theorem length_layout {α : Type*} (addr len : α → Nat) (b : Nat) (ps : List α) :
    (layout addr len b ps).length = total len ps := by
  induction ps generalizing b with
  | nil => rfl
  | cons p ps ih =>
    rw [layout, List.length_append, ih, total_cons, span, List.length_map, List.length_range]

theorem total_take_le {k n : Nat} (h : k ≤ n) (sgl : List SgEntry) :
    total SgEntry.len (sgl.take k) ≤ total SgEntry.len (sgl.take n) := by
  obtain ⟨m, rfl⟩ := Nat.exists_eq_add_of_le h
  rw [List.take_add, total_append]
  exact Nat.le_add_right _ _

/-- So has every table that is rung for. -/
theorem Small.rung {s : Transfer.State} {k n : Nat} (small : Small x) (cover : Transfer.Cover x k n s)
    (hk : k ≤ x.len) {c : Chunk} (hc : c ∈ s.rung) : total Burst.sz c.bursts < 2 ^ 32 := by
  have hlen := congrArg List.length cover.base.rung
  rw [Xfer.bytes, bytesTo, sgBytes, length_layout] at hlen
  have hle := total_take_le hk x.sgl
  have hpart : (bytes x.dir c.bursts).length ≤ (Transfer.rungBytes x s).length := by
    obtain ⟨pre, post, heq⟩ := List.append_of_mem hc
    rw [Transfer.rungBytes, heq, List.flatMap_append, List.flatMap_cons, List.length_append,
      List.length_append]
    omega
  rw [Lli.length_bytes] at hpart
  unfold Small at small
  omega

/-! ### The invariant -/

/-- The bytes agree with what the buffers are said to have, and the engine has moved what
the tables rung for were to move. -/
structure Agrees (x : Xfer) (region : Region) (before : List (Nat × Nat))
    (s : Table.State × Memory) : Prop where
  table : Table.Inv x s.1
  sound : Transfer.Sound x s.1.channel
  host : ∀ c, s.1.device.descBuf = some c → Fit x c ∧ ∃ host,
    s.2.host = (written x region c host).host ∧ s.2.len = Lli.copied (written x region c host).chunk
  ll : ∀ c, s.1.device.llRegion = some c →
    Fit x c ∧ WellFormed c.cb region.paddr (merged x region c) s.2.ll
  moved : s.2.moved = before ++ Transfer.rungBytes x s.1.channel

theorem cover_le {k n : Nat} {s : Transfer.State} (cover : Transfer.Cover x k n s) : k ≤ x.len := by
  by_cases hrung : s.rung = []
  · rw [(cover.base.first hrung).1]
    exact Nat.zero_le _
  · rw [cover.base.later hrung]
    exact cover.base.le_len

theorem step_agrees (ready : Region.Ready region x.llMax) (small : Small x)
    {before : List (Nat × Nat)} (s : Table.State × Memory) (l : Table.Label)
    (t : Table.State × Memory) (inv : Agrees x region before s)
    (h : step x region broken s l = some t) : Agrees x region before t := by
  obtain ⟨u, hu, rfl⟩ := Option.map_eq_some_iff.mp h
  have htable := Table.step_inv s.1 l u inv.table hu
  have steps := step_steps hu
  obtain ⟨k, n, cover⟩ := inv.table.cover
  refine ⟨htable, ?_, ?_, ?_, ?_⟩
  · obtain hsame | ⟨l', hl'⟩ := steps.channel
    · dsimp only
      rw [hsame]
      exact inv.sound
    · exact (Transfer.step_sound _ _ _ ⟨⟨k, n, cover⟩, inv.sound⟩ hl').2
  · intro c hc
    dsimp only at hc
    rw [steps.descBuf] at hc
    cases hwrites : writes s.1 l with
    | none =>
      rw [hwrites] at hc
      show Fit x c ∧ ∃ host, (Memory.after x region broken s.2 s.1 l u).host = _ ∧
        (Memory.after x region broken s.2 s.1 l u).len = _
      rw [Memory.after, hwrites]
      exact inv.host c hc
    | some c' =>
      rw [hwrites] at hc
      cases hc
      refine ⟨writes_fit inv.sound hwrites, s.2.host, ?_, ?_⟩
      · show (Memory.after x region broken s.2 s.1 l u).host = _
        rw [Memory.after, hwrites]
        rfl
      · show (Memory.after x region broken s.2 s.1 l u).len = _
        rw [Memory.after, hwrites]
        rfl
  · intro c hc
    dsimp only at hc
    rw [steps.llRegion] at hc
    show Fit x c ∧ WellFormed c.cb region.paddr (merged x region c)
      (Memory.after x region broken s.2 s.1 l u).ll
    rw [Memory.after]
    dsimp only
    split at hc
    · rename_i hcopies
      rw [if_pos hcopies]
      split at hc
      · rename_i hret
        rw [if_pos hret]
        obtain ⟨hfit, host, hhost, hlen⟩ := inv.host c hc
        rw [hhost, hlen]
        exact ⟨hfit, Fit.copied hfit ready host s.2.ll⟩
      · cases hc
    · rename_i hcopies
      rw [if_neg hcopies]
      exact inv.ll c hc
  · show s.2.moved ++ (u.channel.rung.drop s.1.channel.rung.length).flatMap _ = _
    rw [inv.moved, List.append_assoc]
    congr 1
    have grows : u.channel.rung = s.1.channel.rung ∨
        ∃ c, u.channel.rung = s.1.channel.rung ++ [c] := by
      obtain hsame | ⟨l', hl'⟩ := steps.channel
      · exact .inl (by rw [hsame])
      · exact rung_grows cover hl'
    obtain hsame | ⟨c, hc⟩ := grows
    · rw [Transfer.rungBytes, Transfer.rungBytes, hsame, List.drop_length, List.flatMap_nil,
        List.append_nil]
    · -- the doorbell finds the table of its chunk in the device
      obtain ⟨hfit, hll⟩ := inv.ll c (inv.table.launched hu hc)
      obtain ⟨k', n', cover'⟩ := htable.cover
      have hmem : c ∈ u.channel.rung := by
        rw [hc]
        exact List.mem_append_right _ List.mem_cons_self
      have hshort := small.rung cover' (cover_le cover') hmem
      rw [Transfer.rungBytes, Transfer.rungBytes, hc, List.drop_left, List.flatMap_append,
        List.flatMap_singleton, List.flatMap_singleton, Fit.engine hfit ready hll hshort]

end Step

/-! ### Runs -/

section Runs
variable {x : Xfer} {region : Region} {broken : Bytes → Bytes} {supplies : List Supply} {ok : Bool}
  {d : Transfer.Desc} {ls : List Table.Label} {m : Memory}

theorem Region.Ready.max_pos (ready : Region.Ready region x.llMax) : 1 ≤ x.llMax := by
  have hroom := ready.room
  have hll := Lli.llMax_eq (by omega) ready.host
  rw [← ready.max] at hll
  rw [Lli.EDMA_LL_SZ] at hll hroom
  omega

/-- **The engine moves the list.** Whatever the buffers had before, however the workers
interleave and whatever fails, it has moved the first `k` entries, byte for byte and in
order, and nothing else; all of them if the cookie is complete without a flag. -/
theorem run_moves {s : Table.State × Memory} (ready : Region.Ready region x.llMax) (small : Small x)
    (hprep : Transfer.deviceTransfer x supplies ok = some d)
    (h : Machine.run (step x region broken) (Table.issue d none none, m) ls = some s) :
    ∃ k ≤ x.len, s.2.moved = m.moved ++ x.bytes k ∧
      (s.1.channel.completed = true → s.1.channel.aborted = false → s.1.channel.hwErr = false →
        k = x.len) := by
  have start : Agrees x region m.moved (Table.issue d none none, m) := by
    refine ⟨Table.issue_inv ready.max_pos hprep, (Transfer.issue_sound ready.max_pos hprep).2, nofun,
      nofun, ?_⟩
    have hrung : (Transfer.issue d).rung = [] := by
      obtain ⟨n, c, hfirst, hprepared, hfilled⟩ :=
        Transfer.deviceTransfer_prepared ready.max_pos hprep
      have hone : d.chunks = [c] := by cases hprepared <;> assumption
      rw [Transfer.issue_staged hfirst hfilled hone]
    show m.moved = m.moved ++ (Transfer.issue d).rung.flatMap _
    rw [hrung, List.flatMap_nil, List.append_nil]
  have inv := Machine.invariant (step x region broken) (step_agrees ready small) start h
  obtain ⟨k, n, cover⟩ := inv.table.cover
  refine ⟨k, cover_le cover, ?_, fun hdone hab herr => ?_⟩
  · rw [inv.moved, cover.base.rung]
  · simpa [hab, herr] using cover.base.completed hdone

/-- The bytes follow every run of the channel and its buffers. -/
theorem run_memory {s t : Table.State} (h : Machine.run (Table.step x) s ls = some t) (m : Memory) :
    ∃ m', Machine.run (step x region broken) (s, m) ls = some (t, m') := by
  induction ls generalizing s m with
  | nil =>
    cases h
    exact ⟨m, rfl⟩
  | cons l rest ih =>
    obtain ⟨u, hu, hrest⟩ := (Machine.run_cons _).mp h
    obtain ⟨m', hm'⟩ := ih hrest (m.after x region broken s l u)
    refine ⟨m', (Machine.run_cons _).mpr ⟨_, ?_, hm'⟩⟩
    rw [step, hu]
    rfl

end Runs

/-! ### The buffer of the user -/

/-- The bus addresses of an entry's bytes. -/
def busBytes (e : SgEntry) : List Nat := (List.range e.len).map (e.addr + ·)

theorem sgBytes_eq (addr : Nat) (sgl : List SgEntry) :
    sgBytes addr sgl = (sgl.flatMap busBytes).zipIdx addr := by
  induction sgl generalizing addr with
  | nil => rfl
  | cons e sgl ih =>
    have hspan : span e.addr addr e.len = (busBytes e).zipIdx addr := by
      refine List.ext_getElem ?_ fun i hi hi' => ?_
      · simp [span, busBytes]
      · simp [span, busBytes, List.getElem_zipIdx]
    have hlen : (busBytes e).length = e.len := by simp [busBytes]
    have htail := ih (addr + e.len)
    rw [sgBytes] at htail
    rw [sgBytes, layout, htail, List.flatMap_cons, List.zipIdx_append, hspan, hlen]

theorem length_flatMap_busBytes (sgl : List SgEntry) :
    (sgl.flatMap busBytes).length = total SgEntry.len sgl := by
  induction sgl with
  | nil => rfl
  | cons e sgl ih =>
    rw [List.flatMap_cons, List.length_append, ih, total_cons, busBytes, List.length_map,
      List.length_range]

section Buffer
variable (pageShift : Nat) (frame : Nat → Nat)

/-- A buffer of less than 4 GiB of which `dx_dma_map_user_buf_to_sgl` gets every page. -/
structure Whole (k : Pinned.Kernel) (cb : Pinned.Cb) : Prop where
  shift : pageShift < 32
  pos : 0 < cb.len.toNat
  lt : cb.len.toNat < 2 ^ 32
  within : cb.buf.toNat + cb.len.toNat + 2 ^ pageShift < 2 ^ 64
  table : k.sgAllocTable = true
  array : k.pageArray = true
  pinned : k.getUserPages = .pinned (UserSgl.userPages pageShift frame cb)
  distinct : (UserSgl.userPages pageShift frame cb).Nodup

/-- `dma_map_sg` gives every byte of the table a bus address and keeps their order; it may
join entries, so that `sgt->nents` of them remain. -/
def Maps (bus : Nat × Nat → Nat) (entries : List UserSgl.Entry) (x : Xfer) : Prop :=
  (x.sgl.take x.len).flatMap busBytes = (entries.flatMap fun e => e.piece.bytes).map bus

/-- The bytes of the buffer by their bus addresses, and where in the device they belong. -/
def goal (bus : Nat × Nat → Nat) (cb : Pinned.Cb) (addr : Nat) : List (Nat × Nat) :=
  ((Paging.bytes (2 ^ pageShift) frame cb.buf.toNat cb.len.toNat).map bus).zipIdx addr

variable {pageShift} {frame} {k : Pinned.Kernel} {cb : Pinned.Cb} {bus : Nat × Nat → Nat} {x : Xfer}

theorem Maps.bytes (hbuf : Whole pageShift frame k cb)
    (hmaps : Maps bus (UserSgl.table pageShift cb (UserSgl.userPages pageShift frame cb)) x) :
    x.bytes x.len = goal pageShift frame bus cb x.addr ∧
      total SgEntry.len (x.sgl.take x.len) = cb.len.toNat := by
  have hsplit := UserSgl.split_exact hbuf.shift frame hbuf.pos hbuf.lt hbuf.within hbuf.table
    hbuf.array hbuf.pinned hbuf.distinct
  unfold Maps at hmaps
  rw [hsplit.bytes] at hmaps
  refine ⟨?_, ?_⟩
  · rw [Xfer.bytes, bytesTo, sgBytes_eq, hmaps, goal]
  · rw [← length_flatMap_busBytes, hmaps, List.length_map, Paging.bytes, List.length_map,
      List.length_range]

/-- A list of one entry goes by the registers of the channel (`dw_edma_v0_xfer_llm_not`),
which have what the first burst has. -/
def xferLlmNot (dir : Dir) (c : Chunk) : List (Nat × Nat) :=
  bytes dir (c.bursts.head?.map Lli.truncate).toList

end Buffer

/-! ### Two pages -/

/-- The end of one page and the beginning of another, on a channel whose region has room for
one element and the link. -/
def pagesXfer : Xfer :=
  ⟨.read, 1, 48, false, 0, false, [⟨7 * 4096 + 4090, 6⟩, ⟨6 * 4096, 10⟩], 2, 0x8000⟩

def pagesEnv : Transfer.Env := ⟨.ok, true, ⟨true, 1, 0⟩⟩

/-- The first table is written, copied and run, and the second one after it. -/
def pagesRun : List Table.Label :=
  [.channel .launchRun, .channel (.launch pagesEnv), .launchWrite] ++
    List.replicate 2 (.channel (.launch pagesEnv)) ++ [.finish, .channel .done, .channel .lazyRun] ++
    List.replicate 3 (.channel (.lazy pagesEnv)) ++ .lazyWrite ::
    List.replicate 2 (.channel (.lazy pagesEnv)) ++ [.finish, .channel .done]

def pagesCb : Pinned.Cb := ⟨4090, 16, none, 0⟩

def pagesKernel : Pinned.Kernel := ⟨true, true, .pinned [7, 6]⟩

theorem userPages_pagesCb : UserSgl.userPages 12 (fun page => 7 - page) pagesCb = [7, 6] := by decide

theorem whole_pagesCb : Whole 12 (fun page => 7 - page) pagesKernel pagesCb := by
  refine ⟨by decide, by decide, by decide, by decide, rfl, rfl, ?_, ?_⟩
  · rw [userPages_pagesCb]
    rfl
  · rw [userPages_pagesCb]
    decide

theorem maps_pagesXfer : Maps (fun b => 4096 * b.1 + b.2)
    (UserSgl.table 12 pagesCb (UserSgl.userPages 12 (fun page => 7 - page) pagesCb)) pagesXfer := by
  rw [userPages_pagesCb, Maps]
  decide

/-- A buffer in one page. -/
def pageCb : Pinned.Cb := ⟨4, 8, none, 0⟩

end DxNpuDriver.Edma.EndToEnd
