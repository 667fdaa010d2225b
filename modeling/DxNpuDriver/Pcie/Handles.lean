import DxNpuDriver.Kernel
import DxNpuDriver.Lib.Machine
import Mathlib.Tactic.Common

/-! Who keeps the DMA channels (`dx_sgdma.c`, `dx_sgdma_cdev.c`, `dw-edma-thread.c`).

A device has one handle for each data channel. Two kinds of users share it: the runtime,
counted in `ref_count`, and the files that are open on the character device of the
channel, counted in its `f_count`. Whoever comes first requests the channel; the last
close gives it back only when the runtime is gone. `dx_sgdma_deinit` does not look at the
files in turn: the last deinit takes the handle from under every open file.

`orderly_iff_outlives` says that nothing else goes wrong. -/
namespace DxNpuDriver.Pcie.Handles

/-- `wr_dma_chan` serves the C2H devices, `rd_dma_chan` the H2C devices. -/
inductive Side where
  | wr | rd
  deriving DecidableEq

/-- A place for a handle, and the character device of the channel. -/
structure Slot where
  side : Side
  npuId : Nat
  deriving DecidableEq

/-- What a device has from its probe on. -/
structure Dw where
  wrChCnt : Nat
  rdChCnt : Nat
  wrDmaId : Int
  rdDmaId : Int

/-- `struct dma_chan`, as far as it is looked at. -/
structure Handle where
  clientCount : Nat
  deriving DecidableEq

/-- The two arrays of handles. -/
abbrev Chans := Slot → Option Handle

/-- The handles and the two counts; `files` are the files that the kernel has open. -/
structure State where
  chan : Chans
  refCount : Int
  fCount : Slot → Int
  files : Slot → Nat

def initial : State := ⟨fun _ => none, 0, fun _ => 0, fun _ => 0⟩

def edmaMaxWrCh : Nat := 8
def edmaMaxRdCh : Nat := 8
def h2cDataChCnt : Nat := 2

/-- The DMA device that a side asks: the C2H devices ask `rd_dma_id`. -/
def Dw.dmaId (dw : Dw) : Side → Int
  | .wr => dw.rdDmaId
  | .rd => dw.wrDmaId

/-- How many channels of a side carry data. -/
def Dw.dataCnt (dw : Dw) : Side → Nat
  | .wr => dw.wrChCnt
  | .rd => min dw.rdChCnt h2cDataChCnt

def slots (wr rd : Nat) : List Slot :=
  (List.range wr).map (⟨.wr, ·⟩) ++ (List.range rd).map (⟨.rd, ·⟩)

/-- The channels that `dx_sgdma_init` requests, in its order. -/
def Dw.dataSlots (dw : Dw) : List Slot := slots dw.wrChCnt (min dw.rdChCnt h2cDataChCnt)

/-- The channels that the loops of `dx_sgdma_deinit` go over. -/
def Dw.allSlots (dw : Dw) : List Slot := slots dw.wrChCnt dw.rdChCnt

/-! ### Requests -/

/-- `dw_edma_dma_allocation`; `granted` is what `dma_request_channel` finds. A channel that
is in use is passed over by it, so the one it grants has no other client. -/
def dmaAllocation (dmaChId : Int) (c : Slot) (granted : Bool) (chan : Chans) : Ret × Chans :=
  if 4 ≤ c.npuId ∨ dmaChId < 0 then (.err .EINVAL, chan)
  else
    match chan c with
    | some _ => (.ok, chan)
    | none => if granted then (.ok, Function.update chan c (some ⟨1⟩)) else (.err .ENODEV, chan)

/-- `dw_edma_dma_deallocation`. -/
def dmaDeallocation (c : Slot) (chan : Chans) : Chans :=
  match chan c with
  | some h => if 0 < h.clientCount then Function.update chan c none else chan
  | none => chan

/-- `dw_edma_dma_deallocation` of each. -/
def deallocate (cs : List Slot) (chan : Chans) : Chans :=
  cs.foldl (fun chan c => dmaDeallocation c chan) chan

/-- The two loops of `dx_sgdma_init`, with `wr_allocated` and `rd_allocated` as a list. -/
def allocateAll (dw : Dw) (granted : Slot → Bool) :
    List Slot → Chans → List Slot → Ret × Chans × List Slot
  | [], chan, fresh => (.ok, chan, fresh)
  | c :: rest, chan, fresh =>
    match dmaAllocation (dw.dmaId c.side) c (granted c) chan with
    | (.err e, chan') => (.err e, chan', fresh)
    | (.ok, chan') =>
      if (chan' c).isNone then (.err .ENODEV, chan', fresh)
      else allocateAll dw granted rest chan' (if (chan c).isNone then fresh ++ [c] else fresh)

/-- `dx_sgdma_init`; `first` and `second` are its two looks at the device. -/
def sgdmaInit (dw : Dw) (first second : Bool) (granted : Slot → Bool) (s : State) : Ret × State :=
  if !first || !second then (.err .EAGAIN, s)
  else if edmaMaxWrCh < dw.wrChCnt ∨ edmaMaxRdCh < dw.rdChCnt then (.err .EINVAL, s)
  else if s.refCount = 0 then
    match allocateAll dw granted dw.dataSlots s.chan [] with
    | (.ok, chan, _) => (.ok, {s with chan := chan, refCount := s.refCount + 1})
    | (.err e, chan, fresh) =>
      (.err e, {s with chan := deallocate (dw.allSlots.filter (· ∈ fresh)) chan})
  else (.ok, {s with refCount := s.refCount + 1})

/-- `dx_sgdma_deinit`. -/
def sgdmaDeinit (dw : Dw) (s : State) : State :=
  if s.refCount ≤ 0 then s
  else if s.refCount = 1 then
    {s with chan := deallocate dw.allSlots s.chan, refCount := s.refCount - 1}
  else {s with refCount := s.refCount - 1}

/-- `dx_sgdma_cdev_open`. -/
def cdevOpen (dw : Dw) (c : Slot) (ready granted : Bool) (s : State) : Ret × State :=
  if !ready then (.err .EAGAIN, s)
  else
    let s := {s with fCount := Function.update s.fCount c (s.fCount c + 1)}
    let r :=
      if dw.dataCnt c.side ≤ c.npuId then (.err .ENODEV, s.chan)
      else dmaAllocation (dw.dmaId c.side) c granted s.chan
    match r with
    | (.ok, chan) => (.ok, {s with chan := chan})
    | (.err e, chan) =>
      (.err e, {s with chan := chan, fCount := Function.update s.fCount c (s.fCount c - 1)})

/-- `dx_sgdma_cdev_release`. -/
def cdevRelease (c : Slot) (s : State) : State :=
  let s := {s with fCount := Function.update s.fCount c (s.fCount c - 1)}
  if s.fCount c = 0 ∧ s.refCount = 0 then {s with chan := dmaDeallocation c s.chan} else s

inductive Label where
  | init (first second : Bool) (granted : Slot → Bool)
  | deinit
  | open (c : Slot) (ready granted : Bool)
  | release (c : Slot)

/-- A call. The kernel releases only files that it has open. -/
def step (dw : Dw) (s : State) : Label → Option State
  | .init first second granted => some (sgdmaInit dw first second granted s).2
  | .deinit => some (sgdmaDeinit dw s)
  | .open c ready granted =>
    let r := cdevOpen dw c ready granted s
    some (if r.1 = .ok then {r.2 with files := Function.update r.2.files c (r.2.files c + 1)} else r.2)
  | .release c =>
    if 0 < s.files c then
      some (cdevRelease c {s with files := Function.update s.files c (s.files c - 1)})
    else none

/-- Every user finds its handle, and no handle is left without a user. -/
structure Outlives (dw : Dw) (s : State) : Prop where
  runtime : 0 < s.refCount → ∀ c ∈ dw.dataSlots, s.chan c ≠ none
  files : ∀ c, 0 < s.fCount c → s.chan c ≠ none
  unused : s.refCount = 0 → (∀ c, s.files c = 0) → ∀ c, s.chan c = none

/-- The runtime's last deinit finds no file open. -/
def Orderly (s : State) : Label → Prop
  | .deinit => s.refCount = 1 → ∀ c, s.files c = 0
  | .init _ _ _ | .open _ _ _ | .release _ => True

/-! ### What the calls do to the handles -/

theorem mem_slots {wr rd : Nat} {c : Slot} :
    c ∈ slots wr rd ↔ c.npuId < (match c.side with | .wr => wr | .rd => rd) := by
  obtain ⟨side, i⟩ := c
  cases side <;> simp [slots]

theorem mem_dataSlots {dw : Dw} {c : Slot} : c ∈ dw.dataSlots ↔ c.npuId < dw.dataCnt c.side := by
  obtain ⟨side, i⟩ := c
  cases side <;> simp [Dw.dataSlots, mem_slots, Dw.dataCnt]

theorem allSlots_of_dataSlots {dw : Dw} {c : Slot} (h : c ∈ dw.dataSlots) : c ∈ dw.allSlots := by
  obtain ⟨side, i⟩ := c
  cases side with
  | wr => simpa [Dw.dataSlots, Dw.allSlots, mem_slots] using h
  | rd =>
    simp only [Dw.dataSlots, Dw.allSlots, mem_slots] at h ⊢
    omega

/-- Everything a request can do. -/
theorem dmaAllocation_cases (id : Int) (c : Slot) (granted : Bool) (chan : Chans) :
    (∃ e, dmaAllocation id c granted chan = (.err e, chan)) ∨
    (dmaAllocation id c granted chan = (.ok, chan) ∧ chan c ≠ none) ∨
    (dmaAllocation id c granted chan = (.ok, Function.update chan c (some ⟨1⟩)) ∧
      chan c = none) := by
  simp only [dmaAllocation]
  split
  · exact .inl ⟨_, rfl⟩
  · split
    · next h hsome => exact .inr (.inl ⟨rfl, by simp [hsome]⟩)
    · next hnone =>
      split
      · exact .inr (.inr ⟨rfl, hnone⟩)
      · exact .inl ⟨_, rfl⟩

/-- A handle that is given back is gone. -/
def Sole (chan : Chans) : Prop := ∀ c h, chan c = some h → 0 < h.clientCount

theorem dmaDeallocation_eq {c : Slot} {chan : Chans} (sole : Sole chan) :
    dmaDeallocation c chan = Function.update chan c none := by
  simp only [dmaDeallocation]
  split
  · next h hsome => rw [if_pos (sole c h hsome)]
  · next hnone => rw [← hnone, Function.update_eq_self]

theorem Sole.update_none {chan : Chans} (sole : Sole chan) (c : Slot) :
    Sole (Function.update chan c none) := by
  intro d h hd
  by_cases hdc : d = c
  · subst hdc
    simp at hd
  · rw [Function.update_of_ne hdc] at hd
    exact sole d h hd

theorem Sole.update_some {chan : Chans} (sole : Sole chan) (c : Slot) :
    Sole (Function.update chan c (some ⟨1⟩)) := by
  intro d h hd
  by_cases hdc : d = c
  · subst hdc
    rw [Function.update_self] at hd
    cases hd
    exact Nat.one_pos
  · rw [Function.update_of_ne hdc] at hd
    exact sole d h hd

theorem deallocate_apply {cs : List Slot} {chan : Chans} (sole : Sole chan) (c : Slot) :
    deallocate cs chan c = if c ∈ cs then none else chan c := by
  induction cs generalizing chan with
  | nil => simp [deallocate]
  | cons d rest ih =>
    have hstep : deallocate (d :: rest) chan = deallocate rest (Function.update chan d none) := by
      simp only [deallocate, List.foldl_cons, dmaDeallocation_eq sole]
    rw [hstep, ih (sole.update_none d)]
    by_cases hcd : c = d
    · subst hcd
      simp
    · simp [hcd]

/-- The requests of an init: the handles that were there stay, the new ones are listed, and
after a success every channel has one. -/
structure Requested (cs : List Slot) (chan : Chans) (fresh : List Slot)
    (r : Ret × Chans × List Slot) : Prop where
  sole : Sole r.2.1
  listed : ∀ c ∈ r.2.2, c ∈ fresh ∨ (c ∈ cs ∧ chan c = none)
  mono : ∀ c ∈ fresh, c ∈ r.2.2
  kept : ∀ c, c ∉ r.2.2 → r.2.1 c = chan c
  all : r.1 = .ok → ∀ c ∈ cs, r.2.1 c ≠ none
  some : ∀ c, chan c ≠ none → r.2.1 c ≠ none

theorem allocateAll_requested (dw : Dw) (granted : Slot → Bool) (cs : List Slot) (chan : Chans)
    (fresh : List Slot) (sole : Sole chan) :
    Requested cs chan fresh (allocateAll dw granted cs chan fresh) := by
  induction cs generalizing chan fresh with
  | nil =>
    exact ⟨sole, fun c hc => .inl hc, fun _ hc => hc, fun _ _ => rfl, by simp, fun _ h => h⟩
  | cons c rest ih =>
    rcases dmaAllocation_cases (dw.dmaId c.side) c (granted c) chan with ⟨e, h⟩ | ⟨h, hc⟩ | ⟨h, hc⟩
    · simp only [allocateAll, h]
      exact ⟨sole, fun c hc => .inl hc, fun _ hc => hc, fun _ _ => rfl, by simp, fun _ h => h⟩
    · have hsome : (chan c).isNone = false :=
        Option.isNone_eq_false_iff.mpr (Option.isSome_iff_ne_none.mpr hc)
      simp only [allocateAll, h, hsome, Bool.false_eq_true, if_false]
      have r := ih chan fresh sole
      refine ⟨r.sole, fun d hd => ?_, r.mono, r.kept, fun hok d hd => ?_, r.some⟩
      · exact (r.listed d hd).imp_right fun h => ⟨List.mem_cons_of_mem c h.1, h.2⟩
      · rcases List.mem_cons.mp hd with rfl | hd
        · exact r.some d hc
        · exact r.all hok d hd
    · have hempty : (chan c).isNone = true := by simp [hc]
      have hfull : (Function.update chan c (some ⟨1⟩) c).isNone = false := by simp
      simp only [allocateAll, h, hempty, hfull, Bool.false_eq_true, if_false, if_true]
      have r := ih _ (fresh ++ [c]) (sole.update_some c)
      have hlisted : c ∈ _ := r.mono c (List.mem_append_right _ List.mem_cons_self)
      refine ⟨r.sole, fun d hd => ?_, fun d hd => r.mono d (List.mem_append_left _ hd),
        fun d hd => ?_, fun hok d hd => ?_, fun d hd => ?_⟩
      · rcases r.listed d hd with hd | ⟨hd, hnone⟩
        · rcases List.mem_append.mp hd with hd | hd
          · exact .inl hd
          · rw [List.mem_singleton.mp hd]
            exact .inr ⟨List.mem_cons_self, hc⟩
        · refine .inr ⟨List.mem_cons_of_mem c hd, ?_⟩
          by_cases hdc : d = c
          · rw [hdc, hc]
          · rwa [Function.update_of_ne hdc] at hnone
      · have hdc : d ≠ c := fun hdc => hd (hdc ▸ hlisted)
        rw [r.kept d hd, Function.update_of_ne hdc]
      · rcases List.mem_cons.mp hd with rfl | hd
        · exact r.some d (by simp)
        · exact r.all hok d hd
      · refine r.some d ?_
        by_cases hdc : d = c
        · rw [hdc, Function.update_self]
          simp
        · rwa [Function.update_of_ne hdc]

/-! ### The two counts together -/

/-- Every count is what it counts, every user has its handle, every handle has a user. -/
structure Inv (dw : Dw) (s : State) : Prop where
  nonneg : 0 ≤ s.refCount
  counted : ∀ c, s.fCount c = s.files c
  runtime : 0 < s.refCount → ∀ c ∈ dw.dataSlots, s.chan c ≠ none
  opened : ∀ c, 0 < s.files c → c ∈ dw.dataSlots ∧ s.chan c ≠ none
  sole : Sole s.chan
  used : ∀ c, s.chan c ≠ none → c ∈ dw.dataSlots ∧ (0 < s.refCount ∨ 0 < s.files c)

variable {dw : Dw} {s t : State}

theorem Inv.outlives (inv : Inv dw s) : Outlives dw s where
  runtime := inv.runtime
  files c hc := (inv.opened c (by have := inv.counted c; omega)).2
  unused href hfiles c := by
    by_contra hc
    rcases (inv.used c hc).2 with h | h
    · omega
    · have := hfiles c
      omega

theorem initial_inv : Inv dw initial where
  nonneg := Int.le_refl 0
  counted _ := rfl
  runtime h := absurd h (Int.lt_irrefl 0)
  opened _ h := absurd h (Nat.lt_irrefl 0)
  sole := by rintro c h ⟨⟩
  used _ h := absurd rfl h

/-- A failed init takes back what it has requested. -/
theorem rolled_back {chan : Chans} {r : Ret × Chans × List Slot}
    (req : Requested dw.dataSlots chan [] r) :
    deallocate (dw.allSlots.filter (· ∈ r.2.2)) r.2.1 = chan := by
  funext c
  rw [deallocate_apply req.sole]
  split
  · next hc =>
    have hfresh : c ∈ r.2.2 := by simpa using (List.mem_filter.mp hc).2
    rcases req.listed c hfresh with hnil | ⟨-, hnone⟩
    · cases hnil
    · exact hnone.symm
  · next hc =>
    refine req.kept c fun hfresh => hc ?_
    rcases req.listed c hfresh with hnil | ⟨hmem, -⟩
    · cases hnil
    · exact List.mem_filter.mpr ⟨allSlots_of_dataSlots hmem, by simpa using hfresh⟩

theorem Inv.counted_up (inv : Inv dw s) (href : s.refCount ≠ 0) :
    Inv dw {s with refCount := s.refCount + 1} := by
  have hpos : 0 < s.refCount := by
    have := inv.nonneg
    omega
  exact {inv with
    nonneg := by show 0 ≤ s.refCount + 1; omega
    runtime := fun _ => inv.runtime hpos
    used := fun c hc => ⟨(inv.used c hc).1, .inl (by show 0 < s.refCount + 1; omega)⟩}

theorem init_inv (inv : Inv dw s) (first second : Bool) (granted : Slot → Bool) :
    Inv dw (sgdmaInit dw first second granted s).2 := by
  simp only [sgdmaInit]
  split
  · exact inv
  · split
    · exact inv
    · split
      · next href =>
        have req := allocateAll_requested dw granted dw.dataSlots s.chan [] inv.sole
        split
        · next chan fresh hr =>
          rw [hr] at req
          refine {inv with
            nonneg := by show 0 ≤ s.refCount + 1; omega
            runtime := fun _ => req.all rfl
            opened := fun c hc => ⟨(inv.opened c hc).1, req.some c (inv.opened c hc).2⟩
            sole := req.sole
            used := fun c hc => ⟨?_, .inl (by show 0 < s.refCount + 1; omega)⟩}
          by_cases hfresh : c ∈ fresh
          · rcases req.listed c hfresh with hnil | ⟨hmem, -⟩
            · cases hnil
            · exact hmem
          · have hkept : chan c = s.chan c := req.kept c hfresh
            exact (inv.used c (hkept ▸ hc)).1
        · next e chan fresh hr =>
          rw [hr] at req
          rw [show deallocate _ chan = _ from rolled_back req]
          exact inv
      · next href => exact inv.counted_up href

theorem deinit_inv (inv : Inv dw s) (horder : s.refCount = 1 → ∀ c, s.files c = 0) :
    Inv dw (sgdmaDeinit dw s) := by
  simp only [sgdmaDeinit]
  split
  · exact inv
  · next hpos =>
    split
    · next hone =>
      have hgone : deallocate dw.allSlots s.chan = fun _ => none := by
        funext c
        rw [deallocate_apply inv.sole]
        split
        · rfl
        · next hc =>
          by_contra hsome
          exact hc (allSlots_of_dataSlots (inv.used c hsome).1)
      rw [hgone, hone]
      exact {
        nonneg := Int.le_refl 0
        counted := inv.counted
        runtime := fun h => absurd h (Int.lt_irrefl 0)
        opened := fun c hc => absurd (horder hone c) (Nat.pos_iff_ne_zero.mp hc)
        sole := by rintro c h ⟨⟩
        used := fun _ h => absurd rfl h}
    · next hmany =>
      have hleft : 0 < s.refCount - 1 := by omega
      exact {inv with
        nonneg := Int.le_of_lt hleft
        runtime := fun _ => inv.runtime (by omega)
        used := fun c hc => ⟨(inv.used c hc).1, .inl hleft⟩}

/-- One more file is open on a channel that has its handle. -/
theorem Inv.file_opened (inv : Inv dw s) {c : Slot} {chan : Chans} (hmem : c ∈ dw.dataSlots)
    (sole : Sole chan) (hc : chan c ≠ none) (others : ∀ d, d ≠ c → chan d = s.chan d) :
    Inv dw {s with
      chan := chan
      fCount := Function.update s.fCount c (s.fCount c + 1)
      files := Function.update s.files c (s.files c + 1)} where
  nonneg := inv.nonneg
  counted d := by
    by_cases hd : d = c
    · subst hd
      have := inv.counted d
      simp only [Function.update_self]
      omega
    · simp only [Function.update_of_ne hd]
      exact inv.counted d
  runtime href d hd := by
    by_cases hdc : d = c
    · exact hdc ▸ hc
    · show chan d ≠ none
      rw [others d hdc]
      exact inv.runtime href d hd
  opened d hd := by
    by_cases hdc : d = c
    · subst hdc
      exact ⟨hmem, hc⟩
    · simp only [Function.update_of_ne hdc] at hd
      show d ∈ dw.dataSlots ∧ chan d ≠ none
      rw [others d hdc]
      exact inv.opened d hd
  sole := sole
  used d hd := by
    by_cases hdc : d = c
    · subst hdc
      exact ⟨hmem, .inr (by simp)⟩
    · simp only [others d hdc] at hd
      simp only [Function.update_of_ne hdc]
      exact inv.used d hd

/-- A release leaves the other slots alone. -/
theorem released_of_ne {c d : Slot} {chan : Chans}
    (hchan : chan = if s.files c = 1 ∧ s.refCount = 0 then Function.update s.chan c none else s.chan)
    (hdc : d ≠ c) : chan d = s.chan d := by
  rw [hchan]
  split
  · exact Function.update_of_ne hdc ..
  · rfl

/-- One file less is open, and the handle goes with the last user. -/
theorem Inv.file_released (inv : Inv dw s) {c : Slot} {chan : Chans} (hopen : 0 < s.files c)
    (hchan : chan = if s.files c = 1 ∧ s.refCount = 0 then Function.update s.chan c none else s.chan) :
    Inv dw {s with
      chan := chan
      fCount := Function.update s.fCount c (s.fCount c - 1)
      files := Function.update s.files c (s.files c - 1)} where
  nonneg := inv.nonneg
  counted d := by
    by_cases hd : d = c
    · subst hd
      have := inv.counted d
      simp only [Function.update_self]
      omega
    · simp only [Function.update_of_ne hd]
      exact inv.counted d
  runtime href d hd := by
    have : s.refCount ≠ 0 := by show s.refCount ≠ 0; simp only at href; omega
    rw [hchan, if_neg fun h => this h.2]
    exact inv.runtime href d hd
  opened d hd := by
    by_cases hdc : d = c
    · subst hdc
      simp only [Function.update_self] at hd
      rw [hchan, if_neg fun h => by omega]
      exact inv.opened d hopen
    · simp only [Function.update_of_ne hdc] at hd
      refine ⟨(inv.opened d hd).1, ?_⟩
      show chan d ≠ none
      rw [released_of_ne hchan hdc]
      exact (inv.opened d hd).2
  sole := by
    rw [hchan]
    split
    · exact inv.sole.update_none c
    · exact inv.sole
  used d hd := by
    by_cases hdc : d = c
    · subst hdc
      simp only [hchan] at hd
      split at hd
      · simp at hd
      · next hlast =>
        have hused := inv.used d hd
        have := inv.nonneg
        refine ⟨hused.1, ?_⟩
        simp only [Function.update_self]
        omega
    · have hsome : chan d ≠ none := hd
      rw [released_of_ne hchan hdc] at hsome
      simp only [Function.update_of_ne hdc]
      exact inv.used d hsome

theorem open_inv (inv : Inv dw s) (c : Slot) (ready granted : Bool)
    (h : step dw s (.open c ready granted) = some t) : Inv dw t := by
  simp only [step, Option.some.injEq] at h
  subst h
  have hback : Function.update (Function.update s.fCount c (s.fCount c + 1)) c
      (s.fCount c + 1 - 1) = s.fCount := by
    rw [Function.update_idem, Int.add_sub_cancel, Function.update_eq_self]
  cases ready with
  | false => exact inv
  | true =>
    simp only [cdevOpen, Bool.not_true, Bool.false_eq_true, if_false, Function.update_self]
    by_cases havail : dw.dataCnt c.side ≤ c.npuId
    · simp only [if_pos havail, reduceCtorEq, if_false, hback]
      exact inv
    · have hmem : c ∈ dw.dataSlots := mem_dataSlots.mpr (by omega)
      simp only [if_neg havail]
      rcases dmaAllocation_cases (dw.dmaId c.side) c granted s.chan with ⟨e, h⟩ | ⟨h, hc⟩ | ⟨h, hc⟩
      · simp only [h, reduceCtorEq, if_false, hback]
        exact inv
      · simp only [h, if_true]
        exact inv.file_opened hmem inv.sole hc fun _ _ => rfl
      · simp only [h, if_true]
        exact inv.file_opened hmem (inv.sole.update_some c) (by simp) fun d hd =>
          Function.update_of_ne hd _ _

theorem release_inv (inv : Inv dw s) (c : Slot) (h : step dw s (.release c) = some t) :
    Inv dw t := by
  simp only [step] at h
  split at h
  · next hopen =>
    cases h
    have hcount : s.fCount c - 1 = 0 ↔ s.files c = 1 := by
      have := inv.counted c
      omega
    simp only [cdevRelease, Function.update_self, hcount, dmaDeallocation_eq inv.sole]
    split
    · next hlast => exact inv.file_released hopen (if_pos hlast).symm
    · next hlast => exact inv.file_released hopen (if_neg hlast).symm
  · cases h

theorem step_inv (a : Label) (inv : Inv dw s) (rule : Orderly s a) (h : step dw s a = some t) :
    Inv dw t := by
  cases a with
  | init first second granted =>
    cases h
    exact init_inv inv first second granted
  | deinit =>
    cases h
    exact deinit_inv inv rule
  | «open» c ready granted => exact open_inv inv c ready granted h
  | release c => exact release_inv inv c h

/-- A last deinit under an open file takes its handle. -/
theorem deinit_breaks (inv : Inv dw s) (hrule : ¬ Orderly s .deinit) :
    ¬ Outlives dw (sgdmaDeinit dw s) := by
  simp only [Orderly, Classical.not_imp, not_forall] at hrule
  obtain ⟨hone, c, hc⟩ := hrule
  have hmem := (inv.opened c (Nat.pos_iff_ne_zero.mpr hc)).1
  intro outlives
  refine outlives.files c ?_ ?_
  · have hcount := inv.counted c
    simp only [sgdmaDeinit, hone]
    show 0 < s.fCount c
    omega
  · simp only [sgdmaDeinit, hone]
    show deallocate dw.allSlots s.chan c = none
    rw [deallocate_apply inv.sole, if_pos (allSlots_of_dataSlots hmem)]

/-- **The handles outlive their users exactly in the runs in which no last deinit comes
while a file is open.** Init and deinit, opens and releases, in any number and order, with
any of the requests refused. -/
theorem orderly_iff_outlives (dw : Dw) (ls : List Label) :
    Machine.Admissible (step dw) Orderly initial ls ↔
      ∀ as bs t, ls = as ++ bs → Machine.run (step dw) initial as = some t → Outlives dw t := by
  refine Machine.admissible_iff_throughout (step dw) (fun _ a _ => step_inv a)
    (fun _ (inv : Inv dw _) => inv.outlives) ?_ initial_inv
  intro s a inv hrule
  cases a with
  | deinit => exact ⟨_, rfl, deinit_breaks inv hrule⟩
  | init _ _ _ => exact absurd trivial hrule
  | «open» _ _ _ => exact absurd trivial hrule
  | release _ => exact absurd trivial hrule

/-- A device with one channel each way. -/
def oneChannel : Dw := ⟨1, 1, 0, 1⟩

/-- A file is open on C2H channel 0 when the runtime comes and goes. -/
theorem handle_taken :
    ¬ ∀ dw ls t, Machine.run (step dw) initial ls = some t → Outlives dw t := by
  intro h
  have outlives := h oneChannel [.open ⟨.wr, 0⟩ true true, .init true true fun _ => true, .deinit]
    _ rfl
  exact outlives.files ⟨.wr, 0⟩ (by decide) rfl

end DxNpuDriver.Pcie.Handles
