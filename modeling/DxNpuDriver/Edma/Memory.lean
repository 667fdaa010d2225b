import DxNpuDriver.Lib.Custody

/-! Chunks and bursts (`dw-edma-mem.c`).

Chunks are allocated one by one and freed with `kfree`; a chunk is known by the number of
its allocation, so that a pointer to a freed chunk stays what it is. Bursts come from a pool
that all channels share, or are allocated on their own when it is empty; a chunk's bursts are
given back by `dw_edma_free_burst`, before the chunk itself is freed or used again.

`Sound` says where the bursts of the pool are: each one is on the free list, or has been
taken by somebody else, or is in one chunk. Every function of the file that touches one
chunk moves bursts between it and the free list only (`Moves`), and the guard of the free
list never turns one away. -/
namespace DxNpuDriver.Edma.Memory
open Custody

/-- `struct dw_edma_burst`, with `from_pool`. -/
inductive Burst where
  | pool (i : Nat)
  | dynamic
  deriving DecidableEq

/-- `chunk->burst`, the anchor, and the bursts of its list. -/
structure Bursts where
  head : Burst
  list : List Burst
  deriving DecidableEq

/-- `chunk` is `chunk->burst` of the chunks numbered below `fresh`, `freed` are the calls of
`kfree`, `pool` is `burst_free_list`, and `others` are the bursts that other descriptors
have. -/
structure Store where
  fresh : Nat
  chunk : Nat → Option Bursts
  freed : List Nat
  pool : List Nat
  others : List Nat

/-- The pool after `dw_edma_mem_init`; the last burst is on top of the free list. -/
def memInit (size : Nat) : Store := ⟨0, fun _ => none, [], (List.range size).reverse, []⟩

def Store.set (m : Store) (c : Nat) (b : Option Bursts) : Store :=
  {m with chunk := Function.update m.chunk c b}

/-! ### Bursts -/

/-- A burst goes back to the free list if that is not full. -/
def push (size : Nat) (pool : List Nat) : Burst → List Nat
  | .pool i => if pool.length < size then i :: pool else pool
  | .dynamic => pool

/-- `dw_edma_free_burst_batch`, and the loops of the other two. -/
def pushAll (size : Nat) (bursts : List Burst) (pool : List Nat) : List Nat :=
  bursts.foldl (push size) pool

/-- `dw_edma_free_burst`. -/
def freeBurst (size c : Nat) (m : Store) : Store :=
  match m.chunk c with
  | none => m
  | some b => {m with pool := pushAll size (b.list ++ [b.head]) m.pool}.set c none

/-- The burst joins the list, or is its anchor. -/
def link (b : Burst) : Option Bursts → Option Bursts
  | none => some ⟨b, []⟩
  | some bs => some {bs with list := bs.list ++ [b]}

/-- `dw_edma_alloc_burst`, where `ok` tells that one can be allocated if the pool is empty. -/
def allocBurst (ok : Bool) (c : Nat) (m : Store) : Option Store :=
  match m.pool with
  | i :: rest => some ({m with pool := rest}.set c (link (.pool i) (m.chunk c)))
  | [] => if ok then some (m.set c (link .dynamic (m.chunk c))) else none

/-- A scatter-gather entry: whether it touches the last burst, and whether a burst can be
allocated for it if the pool is empty. -/
structure Entry where
  touches : Bool
  ok : Bool
  deriving DecidableEq

/-- The chunk has a last data burst. -/
def hasData (m : Store) (c : Nat) : Bool :=
  match m.chunk c with
  | some b => b.list ≠ []
  | none => false

/-- The `while` of `dw_edma_fill_sg_bursts`: what is left of the batch, and how many entries
were consumed. -/
def fillLoop (c : Nat) : List Entry → List Burst → Store → Store × List Burst × Nat
  | [], batch, m => (m, batch, 0)
  | e :: es, batch, m =>
    if e.touches ∧ hasData m c then
      let r := fillLoop c es batch m
      (r.1, r.2.1, r.2.2 + 1)
    else
      match batch with
      | b :: batch =>
        let r := fillLoop c es batch (m.set c (link b (m.chunk c)))
        (r.1, r.2.1, r.2.2 + 1)
      | [] =>
        match allocBurst e.ok c m with
        | none => (m, [], 0)
        | some m =>
          let r := fillLoop c es [] m
          (r.1, r.2.1, r.2.2 + 1)

/-- `dw_edma_fill_sg_bursts` of the entries that it gets to see; `need` bursts are asked of the
pool at once, and what is left of them goes back. -/
def fillSgBursts (size need : Nat) (entries : List Entry) (c : Nat) (m : Store) : Store × Nat :=
  let batch := (m.pool.take need).map .pool
  let r := fillLoop c entries batch {m with pool := m.pool.drop need}
  ({r.1 with pool := pushAll size r.2.1 r.1.pool}, r.2.2)

/-- Which of the bursts after the first continue the one before: those that stay, and those
that are merged. -/
def mergeLoop : List Bool → List Burst → List Burst × List Burst
  | contd :: rest, b :: bs =>
    let r := mergeLoop rest bs
    if contd then (r.1, b :: r.2) else (b :: r.1, r.2)
  | _, bs => (bs, [])

/-- The merge of `dw_edma_v0_core_write_chunk`; a chunk without data bursts is refused. -/
def writeChunk (size : Nat) (contd : List Bool) (c : Nat) (m : Store) : Option Store :=
  match m.chunk c with
  | some ⟨head, first :: rest⟩ =>
    let r := mergeLoop contd rest
    some ({m with pool := pushAll size r.2 m.pool}.set c (some ⟨head, first :: r.1⟩))
  | _ => none

/-! ### Chunks -/

/-- The number of the chunk is `m.fresh`. -/
def allocChunkForChan (m : Store) : Store := {m with fresh := m.fresh + 1}.set m.fresh none

def kfree (c : Nat) (m : Store) : Store := {m with freed := c :: m.freed}

/-- `dw_edma_free_unlinked_chunk` of a chunk, and what `dw_edma_free_chunk` and the cleanup work
do to each of theirs. -/
def freeUnlinkedChunk (size c : Nat) (m : Store) : Store := kfree c (freeBurst size c m)

/-- `dw_edma_free_unlinked_chunk` of a pointer that may be null. -/
def freeUnlinked (size : Nat) (c : Option Nat) (m : Store) : Store :=
  match c with
  | none => m
  | some c => freeUnlinkedChunk size c m

/-! ### Where the bursts are -/

/-- The bursts of the pool among the given ones. -/
def poolIds (bursts : List Burst) : List Nat :=
  bursts.filterMap fun
    | .pool i => some i
    | .dynamic => none

@[simp] theorem poolIds_nil : poolIds [] = [] := rfl

@[simp] theorem poolIds_pool (i : Nat) (bs : List Burst) :
    poolIds (.pool i :: bs) = i :: poolIds bs := rfl

@[simp] theorem poolIds_dynamic (bs : List Burst) : poolIds (.dynamic :: bs) = poolIds bs := rfl

@[simp] theorem poolIds_append (as bs : List Burst) :
    poolIds (as ++ bs) = poolIds as ++ poolIds bs := List.filterMap_append

theorem poolIds_cons (b : Burst) (bs : List Burst) :
    poolIds (b :: bs) = poolIds [b] ++ poolIds bs := by
  rw [← poolIds_append, List.singleton_append]

@[simp] theorem poolIds_map_pool (is : List Nat) : poolIds (is.map .pool) = is := by
  induction is with
  | nil => rfl
  | cons i is ih => rw [List.map_cons, poolIds_pool, ih]

/-- The bursts of the pool that a chunk has. -/
def pooled : Option Bursts → List Nat
  | none => []
  | some b => poolIds (b.list ++ [b.head])

/-- Each burst of the pool is on the free list, or with others, or in one chunk, and a freed
chunk has none. -/
structure Sound (size : Nat) (m : Store) : Prop where
  bursts : ∀ b, m.pool.count b + m.others.count b + kept (fun c => pooled (m.chunk c)) m.fresh b =
    if b < size then 1 else 0
  clean : ∀ c ∈ m.freed, m.chunk c = none

theorem memInit_sound (size : Nat) : Sound size (memInit size) where
  bursts b := by
    simp only [memInit, List.count_reverse, List.count_nil, kept_zero, List.count_range]
    omega
  clean := by rintro _ ⟨⟩

/-- Bursts move between the free list and the chunk `c`, and nothing else happens. -/
structure Moves (c : Nat) (m m' : Store) : Prop where
  fresh : m'.fresh = m.fresh
  freed : m'.freed = m.freed
  others : m'.others = m.others
  frame : ∀ d, d ≠ c → m'.chunk d = m.chunk d
  balance : ∀ b, m'.pool.count b + (pooled (m'.chunk c)).count b =
    m.pool.count b + (pooled (m.chunk c)).count b

@[simp] theorem set_chunk_self (m : Store) (c : Nat) (b : Option Bursts) :
    (m.set c b).chunk c = b := Function.update_self ..

theorem set_chunk_of_ne (m : Store) {c d : Nat} (b : Option Bursts) (h : d ≠ c) :
    (m.set c b).chunk d = m.chunk d := Function.update_of_ne h ..

theorem Moves.refl (c : Nat) (m : Store) : Moves c m m :=
  ⟨rfl, rfl, rfl, fun _ _ => rfl, fun _ => rfl⟩

theorem Moves.trans {c : Nat} {m m' m'' : Store} (h : Moves c m m') (h' : Moves c m' m'') :
    Moves c m m'' where
  fresh := h'.fresh.trans h.fresh
  freed := h'.freed.trans h.freed
  others := h'.others.trans h.others
  frame d hd := (h'.frame d hd).trans (h.frame d hd)
  balance b := (h'.balance b).trans (h.balance b)

/-- A chunk that is not freed may get and give bursts. -/
theorem Moves.sound {size c : Nat} {m m' : Store} (h : Moves c m m') (hm : Sound size m)
    (hc : c < m.fresh) (hlive : c ∉ m.freed) : Sound size m' where
  bursts b := by
    have hmoved := kept_update (fun c => pooled (m.chunk c)) (fun c => pooled (m'.chunk c)) hc
      (fun d hd => by rw [h.frame d hd]) b
    have hbalance := h.balance b
    have hbursts := hm.bursts b
    rw [h.fresh, h.others]
    omega
  clean d hd := by
    rw [h.freed] at hd
    rw [h.frame d fun hdc => hlive (hdc ▸ hd)]
    exact hm.clean d hd

/-! ### The free list is never full -/

theorem pushAll_count {size : Nat} {bursts : List Burst} {pool : List Nat}
    (h : pool.length + (poolIds bursts).length ≤ size) (b : Nat) :
    (pushAll size bursts pool).count b = pool.count b + (poolIds bursts).count b := by
  induction bursts generalizing pool with
  | nil => rfl
  | cons x bursts ih =>
    cases x with
    | pool i =>
      rw [poolIds_pool, List.length_cons] at h
      have hroom : pool.length < size := by omega
      have hpush : push size pool (.pool i) = i :: pool := by simp [push, hroom]
      simp only [pushAll, List.foldl_cons, hpush] at ih ⊢
      rw [ih (by rw [List.length_cons]; omega), poolIds_pool, List.count_cons, List.count_cons]
      omega
    | dynamic => exact ih h

/-- What a chunk has fits onto the free list. -/
theorem Sound.room {size c : Nat} {m : Store} (hm : Sound size m) (hc : c < m.fresh) :
    m.pool.length + (pooled (m.chunk c)).length ≤ size := by
  rw [← List.length_append]
  refine length_le_of_count fun b => ?_
  have hle := count_le_kept (fun c => pooled (m.chunk c)) hc b
  have := hm.bursts b
  rw [List.count_append]
  omega

/-! ### What the functions move -/

theorem set_moves {c : Nat} {m : Store} {pool : List Nat} {t : Option Bursts}
    (h : ∀ b, pool.count b + (pooled t).count b = m.pool.count b + (pooled (m.chunk c)).count b) :
    Moves c m ({m with pool := pool}.set c t) where
  fresh := rfl
  freed := rfl
  others := rfl
  frame _ hd := set_chunk_of_ne _ _ hd
  balance b := by
    rw [set_chunk_self]
    exact h b

theorem pooled_link (x : Burst) (t : Option Bursts) (b : Nat) :
    (pooled (link x t)).count b = (poolIds [x]).count b + (pooled t).count b := by
  cases t with
  | none => simp [link, pooled]
  | some bs =>
    simp only [link, pooled, poolIds_append, List.count_append]
    omega

theorem freeBurst_moves {size c : Nat} {m : Store} (hm : Sound size m) (hc : c < m.fresh) :
    Moves c m (freeBurst size c m) := by
  have room := hm.room hc
  simp only [freeBurst]
  split
  · exact Moves.refl c m
  · next bs hbs =>
    refine set_moves fun b => ?_
    rw [hbs] at room ⊢
    rw [pushAll_count room]
    simp [pooled]

theorem allocBurst_moves {ok : Bool} {c : Nat} {m m' : Store} (h : allocBurst ok c m = some m') :
    Moves c m m' := by
  simp only [allocBurst] at h
  split at h
  · next i rest hpool =>
    cases h
    refine set_moves fun b => ?_
    rw [pooled_link, hpool, List.count_cons]
    simp only [poolIds_pool, poolIds_nil, List.count_cons, List.count_nil]
    omega
  · split at h
    · cases h
      refine set_moves fun b => ?_
      rw [pooled_link]
      simp
    · cases h

/-- The free list with a batch that was taken from it. -/
def Store.plus (m : Store) (batch : List Burst) : Store := {m with pool := m.pool ++ poolIds batch}

theorem Moves.plus {c : Nat} {m m' : Store} (h : Moves c m m') (batch : List Burst) :
    Moves c (m.plus batch) (m'.plus batch) where
  fresh := h.fresh
  freed := h.freed
  others := h.others
  frame := h.frame
  balance b := by
    have := h.balance b
    simp only [Store.plus, List.count_append]
    omega

theorem fillLoop_moves (c : Nat) (entries : List Entry) (batch : List Burst) (m : Store) :
    Moves c (m.plus batch)
      ((fillLoop c entries batch m).1.plus (fillLoop c entries batch m).2.1) := by
  induction entries generalizing batch m with
  | nil => exact Moves.refl c _
  | cons e es ih =>
    simp only [fillLoop]
    split
    · exact ih batch m
    · split
      · next x batch =>
        refine Moves.trans ?_ (ih batch _)
        -- the burst leaves the batch for the chunk
        refine ⟨rfl, rfl, rfl, fun _ hd => set_chunk_of_ne _ _ hd, fun b => ?_⟩
        have hlinked : ((m.set c (link x (m.chunk c))).plus batch).chunk c = link x (m.chunk c) :=
          set_chunk_self ..
        rw [hlinked, pooled_link]
        simp only [Store.plus, Store.set, poolIds_cons x batch, List.count_append]
        omega
      · split
        · exact Moves.refl c _
        · next m' halloc => exact ((allocBurst_moves halloc).plus []).trans (ih [] m')

theorem fillSgBursts_moves {size need c : Nat} {entries : List Entry} {m : Store}
    (hm : Sound size m) (hc : c < m.fresh) (hlive : c ∉ m.freed) :
    Moves c m (fillSgBursts size need entries c m).1 := by
  have hloop := fillLoop_moves c entries ((m.pool.take need).map .pool)
    {m with pool := m.pool.drop need}
  have htaken : Moves c m
      (Store.plus {m with pool := m.pool.drop need} ((m.pool.take need).map .pool)) := by
    refine ⟨rfl, rfl, rfl, fun _ _ => rfl, fun b => ?_⟩
    have hsplit := congrArg (List.count b) (List.take_append_drop need m.pool)
    rw [List.count_append] at hsplit
    simp only [Store.plus, poolIds_map_pool, List.count_append]
    omega
  simp only [fillSgBursts]
  generalize fillLoop c entries ((m.pool.take need).map .pool) {m with pool := m.pool.drop need} = r
    at hloop ⊢
  have hmoved := htaken.trans hloop
  have hroom : r.1.pool.length + (poolIds r.2.1).length ≤ size := by
    have hsound := hmoved.sound hm hc hlive
    rw [← List.length_append]
    refine length_le_of_count fun b => ?_
    have := hsound.bursts b
    simp only [Store.plus] at this
    omega
  refine ⟨hmoved.fresh, hmoved.freed, hmoved.others, hmoved.frame, fun b => ?_⟩
  have := hmoved.balance b
  simp only [Store.plus, List.count_append] at this
  rw [pushAll_count hroom]
  exact this

theorem mergeLoop_count (contd : List Bool) (bursts : List Burst) (b : Nat) :
    (poolIds (mergeLoop contd bursts).1).count b + (poolIds (mergeLoop contd bursts).2).count b =
      (poolIds bursts).count b := by
  induction contd generalizing bursts with
  | nil => cases bursts <;> simp [mergeLoop]
  | cons x contd ih =>
    cases bursts with
    | nil => rfl
    | cons y bursts =>
      have := ih bursts
      simp only [mergeLoop]
      rw [poolIds_cons y bursts]
      split
      · simp only [poolIds_cons y (mergeLoop contd bursts).2, List.count_append]
        omega
      · simp only [poolIds_cons y (mergeLoop contd bursts).1, List.count_append]
        omega

theorem writeChunk_moves {size c : Nat} {contd : List Bool} {m m' : Store} (hm : Sound size m)
    (hc : c < m.fresh) (h : writeChunk size contd c m = some m') : Moves c m m' := by
  have room := hm.room hc
  simp only [writeChunk] at h
  split at h
  · next head first rest hbs =>
    cases h
    rw [hbs] at room
    have hmerged (b : Nat) := mergeLoop_count contd rest b
    have hlength : (poolIds (mergeLoop contd rest).2).length ≤ (poolIds rest).length := by
      refine (List.Subperm.length_le (List.subperm_ext_iff.mpr ?_))
      intro b _
      have := hmerged b
      omega
    refine set_moves fun b => ?_
    have := hmerged b
    have hroom : m.pool.length + (poolIds (mergeLoop contd rest).2).length ≤ size := by
      simp only [pooled, List.cons_append, poolIds_cons first (rest ++ [head]), poolIds_append,
        List.length_append] at room
      omega
    rw [pushAll_count hroom, hbs]
    simp only [pooled, List.cons_append, poolIds_cons first (rest ++ [head]),
      poolIds_cons first ((mergeLoop contd rest).1 ++ [head]), poolIds_append, List.count_append]
    omega
  · cases h

/-! ### Data bursts -/

theorem hasData_congr {m m' : Store} {c : Nat} (h : m'.chunk c = m.chunk c) :
    hasData m' c = hasData m c := by
  simp only [hasData, h]

theorem hasData_link {m : Store} {c : Nat} (x : Burst) (h : (m.chunk c).isSome) :
    hasData (m.set c (link x (m.chunk c))) c = true := by
  obtain ⟨bs, hbs⟩ := Option.isSome_iff_exists.mp h
  simp [hasData, hbs, link]

theorem hasData_allocBurst {ok : Bool} {c : Nat} {m m' : Store} (h : (m.chunk c).isSome)
    (halloc : allocBurst ok c m = some m') : hasData m' c = true := by
  simp only [allocBurst] at halloc
  split at halloc
  · cases halloc
    exact hasData_link (m := {m with pool := _}) _ h
  · split at halloc
    · cases halloc
      exact hasData_link _ h
    · cases halloc

theorem isSome_of_hasData {m : Store} {c : Nat} (h : hasData m c = true) : (m.chunk c).isSome := by
  simp only [hasData] at h
  split at h
  · next hbs => simp [hbs]
  · cases h

theorem fillLoop_hasData {c : Nat} {entries : List Entry} {batch : List Burst} {m : Store}
    (h : hasData m c = true) : hasData (fillLoop c entries batch m).1 c = true := by
  induction entries generalizing batch m with
  | nil => exact h
  | cons e es ih =>
    simp only [fillLoop]
    split
    · exact ih h
    · split
      · exact ih (hasData_link _ (isSome_of_hasData h))
      · split
        · exact h
        · next m' halloc => exact ih (hasData_allocBurst (isSome_of_hasData h) halloc)

theorem writeChunk_hasData {size c : Nat} {contd : List Bool} {m m' : Store}
    (h : writeChunk size contd c m = some m') : hasData m' c = true := by
  simp only [writeChunk] at h
  split at h
  · cases h
    simp [hasData]
  · cases h

/-! ### Chunks -/

theorem allocChunkForChan_sound {size : Nat} {m : Store} (hm : Sound size m) :
    Sound size (allocChunkForChan m) where
  bursts b := by
    have hbelow : kept (fun c => pooled ((allocChunkForChan m).chunk c)) m.fresh b =
        kept (fun c => pooled (m.chunk c)) m.fresh b :=
      kept_congr (fun c hc => by rw [allocChunkForChan, set_chunk_of_ne _ _ (by omega)]) b
    have hnew : pooled ((allocChunkForChan m).chunk m.fresh) = [] := by
      rw [allocChunkForChan, set_chunk_self]
      rfl
    have := hm.bursts b
    show m.pool.count b + m.others.count b + kept _ (m.fresh + 1) b = _
    rw [kept_succ, hbelow, hnew, List.count_nil]
    exact this
  clean c hc := by
    by_cases hnew : c = m.fresh
    · rw [hnew, allocChunkForChan, set_chunk_self]
    · rw [allocChunkForChan, set_chunk_of_ne _ _ hnew]
      exact hm.clean c hc

theorem freeBurst_chunk (size c : Nat) (m : Store) : (freeBurst size c m).chunk c = none := by
  simp only [freeBurst]
  split
  · assumption
  · exact set_chunk_self ..

theorem freeUnlinkedChunk_sound {size c : Nat} {m : Store} (hm : Sound size m) (hc : c < m.fresh)
    (hlive : c ∉ m.freed) : Sound size (freeUnlinkedChunk size c m) where
  bursts := ((freeBurst_moves hm hc).sound hm hc hlive).bursts
  clean d hd := by
    rcases List.mem_cons.mp hd with rfl | hd
    · exact freeBurst_chunk size d m
    · exact ((freeBurst_moves hm hc).sound hm hc hlive).clean d hd

/-- Once every chunk is freed, no burst of the pool is in one. -/
theorem Sound.returned {size : Nat} {m : Store} (hm : Sound size m)
    (hfreed : ∀ c, c < m.fresh → c ∈ m.freed) (b : Nat) :
    m.pool.count b + m.others.count b = if b < size then 1 else 0 := by
  have hnone := kept_eq_zero (n := m.fresh) (fun c hc => show pooled (m.chunk c) = [] by
    rw [hm.clean c (hfreed c hc)]
    rfl) b
  have := hm.bursts b
  omega

end DxNpuDriver.Edma.Memory
