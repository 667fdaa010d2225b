import DxNpuDriver.Lib.Machine
import DxNpuDriver.Lib.SharedWord
import Mathlib.Data.List.Nodup
import Mathlib.Data.List.Range
import Mathlib.Logic.Function.Basic

/-! Where the interrupts of the channels are sent (`dw_edma_v0_core_device_config`,
`dx_dma_apply_msi`, `dw_edma_channel_setup`, `dx_edma_restore_msi_after_reset`).

A channel tells the host of its end by writing the data of the MSI message to the address of
the message. The two addresses are registers of a direction, the data of two channels share
one word. Every start of a transfer compares the message of the host with `irq[0].msi` and,
where they differ, stores the new one and programs all channels; nothing keeps two starts
from doing so at the same time. -/
namespace DxNpuDriver.Edma.Msi
open SharedWord (Edit)

/-! ### Messages and registers -/

/-- The words of a `struct msi_msg`. -/
inductive Field where
  | addressLo | addressHi | data
  deriving DecidableEq

abbrev Msg := Field → BitVec 32

instance decidableEqMsg : DecidableEq Msg := fun a b =>
  decidable_of_iff (∀ f ∈ [Field.addressLo, .addressHi, .data], a f = b f)
    ⟨fun h => funext fun f => h f (by cases f <;> simp), fun h f _ => congrFun h f⟩

inductive Dir where
  | write | read
  deriving DecidableEq

structure Chan where
  dir : Dir
  id : Nat
  deriving DecidableEq

/-- The address registers of a direction: `done_imwr` and `abort_imwr`. -/
inductive Imwr where
  | doneLsb | doneMsb | abortLsb | abortMsb
  deriving DecidableEq

def Imwr.field : Imwr → Field
  | .doneLsb | .abortLsb => .addressLo
  | .doneMsb | .abortMsb => .addressHi

/-- `wr_ch_cnt` and `rd_ch_cnt`. -/
structure Counts where
  wr : Nat
  rd : Nat
  wr_le : wr ≤ 8
  rd_le : rd ≤ 8

/-- `dw->chan`. -/
def Counts.chans (n : Counts) : List Chan :=
  (List.range n.wr).map (Chan.mk .write) ++ (List.range n.rd).map (Chan.mk .read)

/-- `EDMA_V0_CH_EVEN_MSI_DATA_MASK`. -/
def evenMask : BitVec 32 := 0x0000ffff#32

/-- `EDMA_V0_CH_ODD_MSI_DATA_MASK`. -/
def oddMask : BitVec 32 := 0xffff0000#32

def Chan.odd (k : Chan) : Bool := k.id % 2 = 1

/-- What `dw_edma_v0_core_device_config` writes to the word that it has read. -/
def imwrData (k : Chan) (tmp data : BitVec 32) : BitVec 32 :=
  if k.odd then tmp &&& evenMask ||| data <<< 16 &&& oddMask
  else tmp &&& oddMask ||| data &&& evenMask

/-- The 16 bits that the channel sends. -/
def half (k : Chan) (w : BitVec 32) : BitVec 16 :=
  if k.odd then w.extractLsb' 16 16 else w.setWidth 16

/-- The channel that shares the word. -/
def Chan.partner (k : Chan) : Chan := ⟨k.dir, if k.odd then k.id - 1 else k.id + 1⟩

def imwrEdit (k : Chan) (data : BitVec 32) : Edit 32 :=
  if k.odd then ⟨oddMask, data <<< 16⟩ else ⟨evenMask, data⟩

theorem imwrEdit_on (k : Chan) (tmp data : BitVec 32) :
    (imwrEdit k data).on tmp = imwrData k tmp data := by
  have hodd : ~~~oddMask = evenMask := by decide
  have heven : ~~~evenMask = oddMask := by decide
  unfold imwrEdit imwrData
  cases k.odd with
  | true => rw [if_pos rfl, if_pos rfl, Edit.on, hodd]
  | false => rw [if_neg Bool.false_ne_true, if_neg Bool.false_ne_true, Edit.on, heven]

theorem evenMask_getLsbD (i : Nat) : evenMask.getLsbD i = decide (i < 16) := by
  by_cases hi : i < 32
  · have : ∀ j : Fin 32, evenMask.getLsbD j = decide (j.val < 16) := by decide
    exact this ⟨i, hi⟩
  · rw [BitVec.getLsbD_of_ge _ _ (Nat.le_of_not_lt hi)]
    simp only [Bool.false_eq, decide_eq_false_iff_not]
    omega

theorem oddMask_getLsbD (i : Nat) : oddMask.getLsbD i = decide (16 ≤ i ∧ i < 32) := by
  by_cases hi : i < 32
  · have : ∀ j : Fin 32, oddMask.getLsbD j = decide (16 ≤ j.val ∧ j.val < 32) := by decide
    exact this ⟨i, hi⟩
  · rw [BitVec.getLsbD_of_ge _ _ (Nat.le_of_not_lt hi)]
    simp only [Bool.false_eq, decide_eq_false_iff_not]
    omega

/-- The channel gets its data. -/
theorem half_imwrData (k : Chan) (tmp data : BitVec 32) :
    half k (imwrData k tmp data) = data.setWidth 16 := by
  rw [← imwrEdit_on]
  refine BitVec.eq_of_getLsbD_eq fun i hi => ?_
  unfold half imwrEdit
  cases k.odd with
  | true =>
    have hin : 16 ≤ 16 + i ∧ 16 + i < 32 := by omega
    have hsub : 16 + i - 16 = i := by omega
    simp only [if_true, BitVec.getLsbD_extractLsb', Edit.getLsbD_on, oddMask_getLsbD, hin,
      decide_true, and_self, BitVec.getLsbD_setWidth, BitVec.getLsbD_shiftLeft, hsub]
    simp [hi]
  | false =>
    simp only [Bool.false_eq_true, if_false, Edit.getLsbD_on, evenMask_getLsbD,
      BitVec.getLsbD_setWidth]
    simp [hi]

/-- The other half is what has been read. -/
theorem half_imwrData_other {j k : Chan} (h : j.odd ≠ k.odd) (tmp data : BitVec 32) :
    half j (imwrData k tmp data) = half j tmp := by
  rw [← imwrEdit_on]
  refine BitVec.eq_of_getLsbD_eq fun i hi => ?_
  unfold half imwrEdit
  cases hk : k.odd with
  | true =>
    obtain hj : j.odd = false := by simpa [hk] using h
    have hout : ¬ (16 ≤ i ∧ i < 32) := by omega
    simp only [hj, Bool.false_eq_true, if_false, if_true, BitVec.getLsbD_setWidth,
      Edit.getLsbD_on, oddMask_getLsbD, hout, decide_false]
  | false =>
    obtain hj : j.odd = true := by simpa [hk] using h
    have hout : ¬ 16 + i < 16 := by omega
    simp only [hj, Bool.false_eq_true, if_false, if_true, BitVec.getLsbD_extractLsb',
      Edit.getLsbD_on, evenMask_getLsbD, hout, decide_false]

/-! ### Programs -/

/-- `putIrq` and `putChan` store a word of the message to `irq[0].msi` and to `chan->msi`;
the rest are the accesses of `dw_edma_v0_core_device_config`. -/
inductive Access where
  | putIrq (f : Field)
  | putChan (k : Chan) (f : Field)
  | load (k : Chan) (f : Field)
  | setAddr (k : Chan) (r : Imwr)
  | readData (k : Chan)
  | writeData (k : Chan)
  deriving DecidableEq

def fields : List Field := [.addressLo, .addressHi, .data]

/-- `dw_edma_v0_core_device_config`. -/
def deviceConfig (k : Chan) : List Access :=
  [.load k .addressLo, .load k .addressHi, .load k .data, .setAddr k .doneLsb, .setAddr k .doneMsb,
    .setAddr k .abortLsb, .setAddr k .abortMsb, .readData k, .writeData k]

/-- A channel in `dw_edma_channel_setup` and in the loop of `dx_dma_apply_msi`. -/
def chanConfig (k : Chan) : List Access :=
  .putChan k .addressLo :: .putChan k .addressHi :: .putChan k .data :: deviceConfig k

/-- `dw_edma_channel_setup` for both directions. -/
def channelSetup (ks : List Chan) : List Access := ks.flatMap chanConfig

/-- `dx_dma_apply_msi` after the comparison. -/
def applyMsi (ks : List Chan) : List Access := fields.map .putIrq ++ ks.flatMap chanConfig

/-- `dx_edma_restore_msi_after_reset` and the loop of `edma_reprogram_hw`. -/
def restoreMsi (ks : List Chan) : List Access :=
  fields.map .putIrq ++ ks.flatMap (fun k => fields.map (.putChan k)) ++ ks.flatMap deviceConfig

structure Mem where
  irq : Msg
  msi : Chan → Msg
  imwr : Dir → Imwr → BitVec 32
  /-- `ch01_imwr_data` to `ch67_imwr_data`. -/
  word : Dir → Nat → BitVec 32

/-- `msi_addr_lo`, `msi_addr_hi` and `msi_data`, and `tmp`. -/
structure Local where
  msi : Msg
  tmp : BitVec 32

def Mem.perform (m : Msg) (mem : Mem) (l : Local) : Access → Mem × Local
  | .putIrq f => ({mem with irq := Function.update mem.irq f (m f)}, l)
  | .putChan k f =>
    ({mem with msi := Function.update mem.msi k (Function.update (mem.msi k) f (m f))}, l)
  | .load k f => (mem, {l with msi := Function.update l.msi f (mem.msi k f)})
  | .setAddr k r =>
    ({mem with
      imwr := Function.update mem.imwr k.dir
        (Function.update (mem.imwr k.dir) r (l.msi r.field))}, l)
  | .readData k => (mem, {l with tmp := mem.word k.dir (k.id / 2)})
  | .writeData k =>
    ({mem with
      word := Function.update mem.word k.dir
        (Function.update (mem.word k.dir) (k.id / 2) (imwrData k l.tmp (l.msi .data)))}, l)

/-- A call: at the comparison of `dx_dma_apply_msi`, at the stores, or over. -/
inductive Task where
  | compare (m : Msg) (left : List Field)
  | apply (m : Msg) (left : List Access) (l : Local)
  | returned (changed : Bool)

structure State where
  mem : Mem
  tasks : List Task

inductive Label where
  /-- `dx_dma_apply_msi` is called with the message of the host. -/
  | call (m : Msg)
  /-- The next access of a call. -/
  | access (i : Nat)
  /-- The endpoint is reset, which leaves its registers with any content, and the message is
  restored. -/
  | recover (m : Msg) (imwr : Dir → Imwr → BitVec 32) (word : Dir → Nat → BitVec 32)

def Local.unset : Local := ⟨fun _ => 0, 0⟩

def State.put (s : State) (i : Nat) (t : Task) : State := {s with tasks := s.tasks.set i t}

def step (n : Counts) (s : State) : Label → Option State
  | .call m => some {s with tasks := s.tasks ++ [.compare m fields]}
  | .access i =>
    match s.tasks[i]? with
    | some (.compare _ []) => some (s.put i (.returned false))
    | some (.compare m (f :: left)) =>
      some (s.put i
        (if s.mem.irq f = m f then .compare m left else .apply m (applyMsi n.chans) .unset))
    | some (.apply _ [] _) => some (s.put i (.returned true))
    | some (.apply m (a :: left) l) =>
      some ⟨(s.mem.perform m l a).1, s.tasks.set i (.apply m left (s.mem.perform m l a).2)⟩
    | some (.returned _) | none => none
  | .recover m imwr word =>
    some ⟨{s.mem with imwr := imwr, word := word},
      s.tasks ++ [.apply m (restoreMsi n.chans) .unset]⟩

/-- The probe, at the channels; nothing is known of the registers. -/
def probing (n : Counts) (mem : Mem) : State :=
  ⟨mem, [.apply mem.irq (channelSetup n.chans) .unset]⟩

/-- The message that the call is at work on. -/
def Task.message : Task → Option Msg
  | .compare m _ | .apply m _ _ => some m
  | .returned _ => none

/-- Calls that overlap have the same message, and a reset comes when there is none. -/
def Agreed (s : State) : Label → Prop
  | .call m => ∀ t ∈ s.tasks, ∀ m' ∈ t.message, m' = m
  | .access _ => True
  | .recover _ _ _ => ∀ t ∈ s.tasks, t.message = none

instance decidableAgreed (s : State) (b : Label) : Decidable (Agreed s b) :=
  match b with
  | .call m => inferInstanceAs (Decidable (∀ t ∈ s.tasks, ∀ m' ∈ t.message, m' = m))
  | .access _ => isTrue trivial
  | .recover _ _ _ => inferInstanceAs (Decidable (∀ t ∈ s.tasks, t.message = none))

/-- Every channel sends the message of `irq[0]`. -/
def Settled (n : Counts) (mem : Mem) : Prop :=
  ∀ k ∈ n.chans, (∀ f, mem.msi k f = mem.irq f) ∧ (∀ r, mem.imwr k.dir r = mem.irq r.field) ∧
    half k (mem.word k.dir (k.id / 2)) = (mem.irq .data).setWidth 16

/-! ### What is still to be written -/

inductive Cell where
  | irq (f : Field)
  | msi (k : Chan) (f : Field)
  | imwr (k : Chan) (r : Imwr)
  | data (k : Chan)

/-- The access that writes the cell. -/
def Cell.access : Cell → Access
  | .irq f => .putIrq f
  | .msi k f => .putChan k f
  | .imwr k r => .setAddr k r
  | .data k => .writeData k

def Cell.within (ks : List Chan) : Cell → Prop
  | .irq _ => True
  | .msi k _ | .imwr k _ | .data k => k ∈ ks

/-- The cell has its part of the message. -/
def Cell.right (m : Msg) (mem : Mem) : Cell → Prop
  | .irq f => mem.irq f = m f
  | .msi k f => mem.msi k f = m f
  | .imwr k r => mem.imwr k.dir r = m r.field
  | .data k => half k (mem.word k.dir (k.id / 2)) = (m .data).setWidth 16

def Cell.odd : Cell → Bool
  | .data k => k.odd
  | .irq _ | .msi _ _ | .imwr _ _ => false

/-- What makes the rest of a program come to a good end: it loads what it has stored, it
writes the even half of a word before the odd one, and it reads the word for the odd half
when the even one is done. -/
def Sound (m : Msg) (ks : List Chan) : List Access → Local → Prop
  | [], _ => True
  | .putIrq _ :: rest, l | .putChan _ _ :: rest, l => Sound m ks rest l
  | .load k f :: rest, l => k ∈ ks ∧ .putChan k f ∉ rest ∧
    Sound m ks rest {l with msi := Function.update l.msi f (m f)}
  | .setAddr _ r :: rest, l => l.msi r.field = m r.field ∧ Sound m ks rest l
  | .readData k :: rest, l =>
    (k.odd = true → k.partner ∈ ks ∧ .writeData k.partner ∉ rest) ∧
      ∀ w, (k.odd = true → half k.partner w = (m .data).setWidth 16) →
        Sound m ks rest {l with tmp := w}
  | .writeData k :: rest, l => l.msi .data = m .data ∧
    (k.odd = true → half k.partner l.tmp = (m .data).setWidth 16) ∧
    (k.odd = false → k.partner ∈ ks → .writeData k.partner ∈ rest) ∧ Sound m ks rest l

theorem partner_odd {k : Chan} : k.partner.odd = !k.odd := by
  unfold Chan.partner Chan.odd
  cases h : decide (k.id % 2 = 1) with
  | true =>
    have := of_decide_eq_true h
    simp
    omega
  | false =>
    have := of_decide_eq_false h
    simp
    omega

theorem eq_partner {j k : Chan} (hdir : j.dir = k.dir) (hword : j.id / 2 = k.id / 2)
    (hodd : j.odd ≠ k.odd) : j = k.partner := by
  obtain ⟨dir, id⟩ := j
  obtain rfl : dir = k.dir := hdir
  unfold Chan.partner
  unfold Chan.odd at hodd ⊢
  simp only [ne_eq, decide_eq_decide] at hodd hword
  congr 1
  split
  · rename_i h
    have := of_decide_eq_true h
    omega
  · rename_i h
    have : ¬ k.id % 2 = 1 := fun h' => h (decide_eq_true h')
    omega

theorem half_congr {j k : Chan} (h : j.odd = k.odd) (w : BitVec 32) : half j w = half k w := by
  unfold half
  rw [h]

/-! ### One access -/

section Access
variable {m : Msg} {ks : List Chan} {a : Access} {rest : List Access} {l : Local} {mem : Mem}

/-- A cell that a nested update sets, or leaves. -/
theorem right_of_update {α β : Type*} [DecidableEq α] [DecidableEq β] {g : α → β → BitVec 32}
    {x y : α} {i j : β} {v w : BitVec 32} (hnew : j = i → v = w)
    (hold : ¬ (y = x ∧ j = i) → g y j = w) :
    Function.update g x (Function.update (g x) i v) y j = w := by
  by_cases hy : y = x
  · subst hy
    rw [Function.update_self]
    by_cases hj : j = i
    · rw [hj, Function.update_self]
      exact hnew hj
    · rw [Function.update_of_ne hj]
      exact hold fun h => hj h.2
  · rw [Function.update_of_ne hy]
    exact hold fun h => hy h.1

/-- The word after the write back of a channel. -/
theorem word_writeData (k j : Chan) :
    (mem.perform m l (.writeData k)).1.word j.dir (j.id / 2) =
      if j.dir = k.dir ∧ j.id / 2 = k.id / 2 then imwrData k l.tmp (l.msi .data)
      else mem.word j.dir (j.id / 2) := by
  show Function.update mem.word k.dir _ j.dir (j.id / 2) = _
  by_cases hdir : j.dir = k.dir
  · rw [hdir, Function.update_self]
    by_cases hid : j.id / 2 = k.id / 2
    · rw [hid, Function.update_self, if_pos ⟨rfl, rfl⟩]
    · rw [Function.update_of_ne hid, if_neg fun h => hid h.2]
  · rw [Function.update_of_ne hdir, if_neg fun h => hdir h.1]

/-- The write back of a channel's half, for the half of any channel. -/
theorem writeData_right {k j : Chan} (hsound : Sound m ks (.writeData k :: rest) l)
    (hj : j ∈ ks) (h : Cell.access (.data j) = .writeData k ∨ Cell.right m mem (.data j)) :
    Cell.right m (mem.perform m l (.writeData k)).1 (.data j) ∨
      (j.odd = true ∧ .writeData j ∈ rest) := by
  obtain ⟨hdata, htmp, hagain, -⟩ := hsound
  show half j ((mem.perform m l (.writeData k)).1.word j.dir (j.id / 2)) = _ ∨ _
  rw [word_writeData]
  by_cases hsame : j.dir = k.dir ∧ j.id / 2 = k.id / 2
  · rw [if_pos hsame]
    by_cases hodd : j.odd = k.odd
    · -- its own half
      left
      rw [half_congr hodd, half_imwrData, hdata]
    · obtain rfl := eq_partner hsame.1 hsame.2 hodd
      cases hk : k.odd with
      | true =>
        left
        rw [half_imwrData_other hodd]
        exact htmp hk
      | false =>
        right
        exact ⟨by rw [partner_odd, hk]; rfl, hagain hk hj⟩
  · rw [if_neg hsame]
    left
    refine h.resolve_left fun heq => ?_
    obtain rfl := Access.writeData.inj heq
    exact hsame ⟨rfl, rfl⟩

/-- A cell that is written is right, and one that is right stays so, unless it is the odd half
of a word that the same program writes again. -/
theorem perform_right (hsound : Sound m ks (a :: rest) l) {x : Cell} (hx : x.within ks)
    (h : x.access = a ∨ x.right m mem) :
    x.right m (mem.perform m l a).1 ∨ (x.odd = true ∧ x.access ∈ rest) := by
  cases a with
  | load k f => exact .inl (h.resolve_left (by cases x <;> simp [Cell.access]))
  | readData k => exact .inl (h.resolve_left (by cases x <;> simp [Cell.access]))
  | putIrq f =>
    left
    cases x with
    | irq g =>
      show Function.update mem.irq f (m f) g = m g
      by_cases hg : g = f
      · rw [hg, Function.update_self]
      · rw [Function.update_of_ne hg]
        exact h.resolve_left fun heq => hg (Access.putIrq.inj heq)
    | msi k g => exact h.resolve_left nofun
    | imwr k r => exact h.resolve_left nofun
    | data k => exact h.resolve_left nofun
  | putChan k f =>
    left
    cases x with
    | irq g => exact h.resolve_left nofun
    | msi j g =>
      exact right_of_update (fun hg => by rw [hg]) fun hne =>
        h.resolve_left fun heq => hne (Access.putChan.inj heq)
    | imwr j r => exact h.resolve_left nofun
    | data j => exact h.resolve_left nofun
  | setAddr k r =>
    left
    cases x with
    | irq g => exact h.resolve_left nofun
    | msi j g => exact h.resolve_left nofun
    | imwr j q =>
      refine right_of_update (fun hq => ?_) fun hne => h.resolve_left fun heq => ?_
      · rw [hq]
        exact hsound.1
      · obtain ⟨rfl, rfl⟩ := Access.setAddr.inj heq
        exact hne ⟨rfl, rfl⟩
    | data j => exact h.resolve_left nofun
  | writeData k =>
    cases x with
    | irq g => exact .inl (h.resolve_left nofun)
    | msi j g => exact .inl (h.resolve_left nofun)
    | imwr j r => exact .inl (h.resolve_left nofun)
    | data j => exact writeData_right hsound hx h

/-- The rest of a sound program is sound. -/
theorem perform_sound (hsound : Sound m ks (a :: rest) l)
    (hload : ∀ k f, a = .load k f → mem.msi k f = m f)
    (hread : ∀ k, a = .readData k → k.odd = true →
      half k.partner (mem.word k.dir (k.id / 2)) = (m .data).setWidth 16) :
    Sound m ks rest (mem.perform m l a).2 := by
  cases a with
  | putIrq f => exact hsound
  | putChan k f => exact hsound
  | load k f =>
    show Sound m ks rest {l with msi := Function.update l.msi f (mem.msi k f)}
    rw [hload k f rfl]
    exact hsound.2.2
  | setAddr k r => exact hsound.2
  | readData k => exact hsound.2 _ (hread k rfl)
  | writeData k => exact hsound.2.2.2

end Access

/-! ### The programs are sound -/

theorem sound_deviceConfig {m : Msg} {ks : List Chan} {k : Chan} {rest : List Access}
    (hk : k ∈ ks) (hput : ∀ f, .putChan k f ∉ rest)
    (hodd : k.odd = true → k.partner ∈ ks ∧ .writeData k.partner ∉ rest)
    (heven : k.odd = false → k.partner ∈ ks → .writeData k.partner ∈ rest)
    (hrest : ∀ l, Sound m ks rest l) (l : Local) : Sound m ks (deviceConfig k ++ rest) l := by
  have hpartner : k.odd = true → k.partner ≠ k := by
    intro h heq
    have := partner_odd (k := k)
    rw [heq, h] at this
    cases this
  have hset : ∀ f, (Function.update (Function.update (Function.update l.msi .addressLo
      (m .addressLo)) .addressHi (m .addressHi)) .data (m .data)) f = m f := by
    intro f
    cases f <;> rfl
  refine ⟨hk, ?_, hk, ?_, hk, ?_, hset .addressLo, hset .addressHi, hset .addressLo,
    hset .addressHi, ?_⟩
  · simpa using hput .addressLo
  · simpa using hput .addressHi
  · simpa using hput .data
  · refine ⟨fun h => ⟨(hodd h).1, ?_⟩, fun w hw => ⟨hset .data, hw, heven, hrest _⟩⟩
    simpa using ⟨hpartner h, (hodd h).2⟩

/-- The channels in the order of `dw->chan`. -/
def Before (j k : Chan) : Prop := j.dir = k.dir → j.id < k.id

theorem chans_pairwise (n : Counts) : n.chans.Pairwise Before := by
  have hrange : ∀ (d : Dir) (c : Nat), ((List.range c).map (Chan.mk d)).Pairwise Before := by
    intro d c
    rw [List.pairwise_map]
    refine List.Pairwise.imp ?_ List.pairwise_lt_range
    intro a b hab _
    exact hab
  refine List.pairwise_append.mpr ⟨hrange .write n.wr, hrange .read n.rd, ?_⟩
  intro j hj k hk hdir
  obtain ⟨_, -, rfl⟩ := List.mem_map.mp hj
  obtain ⟨_, -, rfl⟩ := List.mem_map.mp hk
  cases hdir

/-- With an odd channel there is the even one before it. -/
theorem partner_mem {n : Counts} {k : Chan} (hk : k ∈ n.chans) (hodd : k.odd = true) :
    k.partner ∈ n.chans := by
  unfold Chan.partner
  rw [if_pos hodd]
  simp only [Counts.chans, List.mem_append, List.mem_map, List.mem_range] at hk ⊢
  obtain ⟨c, hc, rfl⟩ | ⟨c, hc, rfl⟩ := hk
  · exact .inl ⟨c - 1, by omega, rfl⟩
  · exact .inr ⟨c - 1, by omega, rfl⟩

/-- What one channel's part of a program needs of the parts that follow. -/
theorem partner_later {ks done later : List Chan} {k : Chan} (hks : ks.Pairwise Before)
    (hsplit : ks = done ++ k :: later) :
    k ∉ later ∧ (k.odd = true → k.partner ∉ later) ∧
      (k.odd = false → k.partner ∈ ks → k.partner ∈ later) := by
  rw [hsplit, List.pairwise_append, List.pairwise_cons] at hks
  obtain ⟨-, ⟨hafter, -⟩, hbefore⟩ := hks
  refine ⟨fun h => Nat.lt_irrefl _ (hafter k h rfl), fun hodd h => ?_, fun heven h => ?_⟩
  · have := hafter _ h rfl
    unfold Chan.partner at this
    rw [if_pos hodd] at this
    simp only at this
    omega
  · rw [hsplit] at h
    obtain h | h := List.mem_append.mp h
    · have := hbefore _ h k List.mem_cons_self rfl
      unfold Chan.partner at this
      rw [if_neg (by rw [heven]; exact Bool.false_ne_true)] at this
      simp only at this
      omega
    · obtain h | h := List.mem_cons.mp h
      · have := partner_odd (k := k)
        rw [h, heven] at this
        cases this
      · exact h

theorem sound_puts {m : Msg} {ks : List Chan} {puts rest : List Access}
    (hputs : ∀ a ∈ puts, (∃ f, a = .putIrq f) ∨ ∃ k f, a = .putChan k f) {l : Local}
    (hrest : Sound m ks rest l) : Sound m ks (puts ++ rest) l := by
  induction puts with
  | nil => exact hrest
  | cons a puts ih =>
    have htail := ih fun b hb => hputs b (List.mem_cons_of_mem a hb)
    obtain ⟨f, rfl⟩ | ⟨k, f, rfl⟩ := hputs a List.mem_cons_self
    · exact htail
    · exact htail

/-- The channels one after the other, with the stores to `chan->msi` or without. -/
theorem sound_configs {m : Msg} {ks : List Chan} (hks : ks.Pairwise Before)
    (hpartner : ∀ k ∈ ks, k.odd = true → k.partner ∈ ks) (puts : Chan → List Access)
    (hputs : ∀ k, ∀ a ∈ puts k, ∃ f, a = .putChan k f) (done : List Chan) {later : List Chan}
    (hsplit : ks = done ++ later) (l : Local) :
    Sound m ks (later.flatMap fun k => puts k ++ deviceConfig k) l := by
  induction later generalizing done l with
  | nil => trivial
  | cons k later ih =>
    have hk : k ∈ ks := by
      rw [hsplit]
      exact List.mem_append_right _ List.mem_cons_self
    obtain ⟨hself, hodd, heven⟩ := partner_later hks hsplit
    have hwrite : ∀ j, .writeData j ∈ (later.flatMap fun k => puts k ++ deviceConfig k) ↔
        j ∈ later := by
      intro j
      simp only [List.mem_flatMap, List.mem_append]
      constructor
      · rintro ⟨i, hi, hj | hj⟩
        · obtain ⟨f, hf⟩ := hputs i _ hj
          cases hf
        · obtain rfl : j = i := by simpa [deviceConfig] using hj
          exact hi
      · intro hj
        exact ⟨j, hj, .inr (by simp [deviceConfig])⟩
    rw [List.flatMap_cons, List.append_assoc]
    refine sound_puts (fun a ha => .inr ⟨k, hputs k a ha⟩)
      (sound_deviceConfig hk ?_ (fun h => ⟨hpartner k hk h, fun hw => hodd h ((hwrite _).mp hw)⟩)
        (fun h hp => (hwrite _).mpr (heven h hp))
        (ih (done ++ [k]) (by rw [hsplit, List.append_assoc]; rfl)) l)
    intro f hf
    obtain ⟨j, hj, hf⟩ := List.mem_flatMap.mp hf
    obtain hf | hf := List.mem_append.mp hf
    · obtain ⟨g, hg⟩ := hputs j _ hf
      cases hg
      exact hself hj
    · simp [deviceConfig] at hf

theorem sound_setup (n : Counts) (m : Msg) (l : Local) :
    Sound m n.chans (channelSetup n.chans) l :=
  sound_configs (chans_pairwise n) (fun _ => partner_mem) (fun k => fields.map (.putChan k))
    (by simp [fields]) [] rfl l

theorem sound_applyMsi (n : Counts) (m : Msg) (l : Local) :
    Sound m n.chans (applyMsi n.chans) l :=
  sound_puts (by simp [fields]) (sound_setup n m l)

theorem sound_restoreMsi (n : Counts) (m : Msg) (l : Local) :
    Sound m n.chans (restoreMsi n.chans) l := by
  refine sound_puts ?_
    (sound_configs (chans_pairwise n) (fun _ => partner_mem) (fun _ => []) (by simp) [] rfl l)
  intro a ha
  obtain ha | ha := List.mem_append.mp ha
  · obtain ⟨f, -, rfl⟩ := List.mem_map.mp ha
    exact .inl ⟨f, rfl⟩
  · obtain ⟨k, -, ha⟩ := List.mem_flatMap.mp ha
    obtain ⟨f, -, rfl⟩ := List.mem_map.mp ha
    exact .inr ⟨k, f, rfl⟩

/-- A program that stores the message misses nothing. -/
theorem mem_chanConfig {ks : List Chan} {x : Cell} (hx : x.within ks)
    (hirq : ∀ f, x ≠ .irq f) : x.access ∈ channelSetup ks := by
  cases x with
  | irq f => exact absurd rfl (hirq f)
  | msi k f => exact List.mem_flatMap.mpr ⟨k, hx, by cases f <;> simp [chanConfig, Cell.access]⟩
  | imwr k r =>
    exact List.mem_flatMap.mpr
      ⟨k, hx, by cases r <;> simp [chanConfig, deviceConfig, Cell.access]⟩
  | data k =>
    exact List.mem_flatMap.mpr ⟨k, hx, by simp [chanConfig, deviceConfig, Cell.access]⟩

theorem mem_applyMsi {ks : List Chan} {x : Cell} (hx : x.within ks) :
    x.access ∈ applyMsi ks := by
  by_cases hirq : ∃ f, x = .irq f
  · obtain ⟨f, rfl⟩ := hirq
    refine List.mem_append_left _ (List.mem_map.mpr ⟨f, ?_, rfl⟩)
    cases f <;> simp [fields]
  · exact List.mem_append_right _ (mem_chanConfig hx fun f h => hirq ⟨f, h⟩)

theorem mem_restoreMsi {ks : List Chan} {x : Cell} (hx : x.within ks) :
    x.access ∈ restoreMsi ks := by
  cases x with
  | irq f =>
    refine List.mem_append_left _ (List.mem_append_left _ (List.mem_map.mpr ⟨f, ?_, rfl⟩))
    cases f <;> simp [fields]
  | msi k f =>
    refine List.mem_append_left _ (List.mem_append_right _ (List.mem_flatMap.mpr ⟨k, hx, ?_⟩))
    cases f <;> simp [fields, Cell.access]
  | imwr k r =>
    refine List.mem_append_right _ (List.mem_flatMap.mpr ⟨k, hx, ?_⟩)
    cases r <;> simp [deviceConfig, Cell.access]
  | data k =>
    exact List.mem_append_right _
      (List.mem_flatMap.mpr ⟨k, hx, by simp [deviceConfig, Cell.access]⟩)

/-! ### Calls that overlap -/

/-- What a call has still to do, once it is past its comparison. -/
def Task.left : Task → Option (List Access)
  | .apply _ left _ => some left
  | .compare _ _ | .returned _ => none

/-- Some call is going to write the cell, and where it is not the odd half of a word, every
call that is past its comparison. -/
structure Awaited (tasks : List Task) (x : Cell) : Prop where
  pending : ∃ t ∈ tasks, ∃ left, t.left = some left ∧ x.access ∈ left
  every : x.odd = false → ∀ t ∈ tasks, ∀ left, t.left = some left → x.access ∈ left

def Task.Sound (m : Msg) (ks : List Chan) : Task → Prop
  | .compare m' _ => m' = m
  | .apply m' left l => m' = m ∧ Msi.Sound m ks left l
  | .returned _ => True

def Late (m : Msg) (ks : List Chan) (s : State) : Prop :=
  ∀ x : Cell, x.within ks → ¬ x.right m s.mem → Awaited s.tasks x

/-- All calls that are under way have one message; what does not have it yet is awaited, or
nobody has found a difference to what all channels send. -/
def Inv (n : Counts) (s : State) : Prop :=
  ∃ m, (∀ t ∈ s.tasks, t.Sound m n.chans) ∧
    (Late m n.chans s ∨ Settled n s.mem ∧ ∀ t ∈ s.tasks, t.left = none)

theorem awaited_set {tasks : List Task} {i : Nat} {t t' : Task} {x : Cell}
    (hi : tasks[i]? = some t) (h : Awaited tasks x)
    (keep : ∀ left, t.left = some left → x.access ∈ left →
      ∃ left', t'.left = some left' ∧ x.access ∈ left')
    (only : t.left = none → t'.left = none) : Awaited (tasks.set i t') x where
  pending := Machine.exists_mem_set hi h.pending fun ⟨left, hleft, hx⟩ => keep left hleft hx
  every := by
    intro hodd
    refine Machine.forall_mem_set (h.every hodd) (fun _ => id) fun left' hleft' => ?_
    cases ht : t.left with
    | none => cases (only ht).symm.trans hleft'
    | some left =>
      obtain ⟨left'', hleft'', hx⟩ := keep left ht
        (h.every hodd t (List.mem_of_getElem? hi) left ht)
      rw [hleft'] at hleft''
      cases hleft''
      exact hx

/-- A call that has found a difference is going to write everything. -/
theorem awaited_new {tasks : List Task} {i : Nat} {t t' : Task} {left' : List Access} {x : Cell}
    (hi : tasks[i]? = some t) (ht' : t'.left = some left') (hx : x.access ∈ left')
    (others : x.odd = false → ∀ t ∈ tasks, ∀ left, t.left = some left → x.access ∈ left) :
    Awaited (tasks.set i t') x where
  pending := ⟨t', List.mem_set (List.getElem?_eq_some_iff.mp hi).1 t', left', ht', hx⟩
  every := by
    intro hodd
    refine Machine.forall_mem_set (others hodd) (fun _ => id) fun left hleft => ?_
    rw [ht'] at hleft
    cases hleft
    exact hx

/-- When no call is past its comparison, nothing is awaited. -/
theorem settled_of_late {n : Counts} {m : Msg} {s : State} (h : Late m n.chans s)
    (hnone : ∀ t ∈ s.tasks, t.left = none) : Settled n s.mem := by
  have hright : ∀ x : Cell, x.within n.chans → x.right m s.mem := by
    intro x hx
    by_contra hwrong
    obtain ⟨t, ht, left, hleft, -⟩ := (h x hx hwrong).pending
    cases (hnone t ht).symm.trans hleft
  have hirq : ∀ f, s.mem.irq f = m f := fun f => hright (.irq f) trivial
  intro k hk
  refine ⟨fun f => ?_, fun r => ?_, ?_⟩
  · exact (hright (.msi k f) hk).trans (hirq f).symm
  · exact (hright (.imwr k r) hk).trans (hirq r.field).symm
  · rw [hirq]
    exact hright (.data k) hk

theorem Task.left_none_of_message {t : Task} (h : t.message = none) : t.left = none := by
  cases t with
  | compare m left => rfl
  | apply m left l => cases h
  | returned changed => rfl

theorem Task.sound_of_message {t : Task} (h : t.message = none) (m : Msg) (ks : List Chan) :
    t.Sound m ks := by
  cases t with
  | compare m' left => cases h
  | apply m' left l => cases h
  | returned changed => trivial

/-- A call that is under way has the one message. -/
theorem Task.message_eq {t : Task} {m m' : Msg} {ks : List Chan} (hs : t.Sound m ks)
    (h : t.message = some m') : m' = m := by
  cases t with
  | compare m₀ left =>
    cases h
    exact hs
  | apply m₀ left l =>
    cases h
    exact hs.1
  | returned changed => cases h

section Steps
variable {n : Counts} {m : Msg} {s : State} {i : Nat}

/-- A call that is over, or that goes on comparing, changes nothing. -/
theorem inv_idle (hsound : ∀ t ∈ s.tasks, t.Sound m n.chans)
    (hlate : Late m n.chans s ∨ Settled n s.mem ∧ ∀ t ∈ s.tasks, t.left = none) {t t' : Task}
    (hi : s.tasks[i]? = some t) (ht : t.left = none ∨ t.left = some []) (ht' : t'.left = none)
    (hsound' : t'.Sound m n.chans) : Inv n (s.put i t') := by
  refine ⟨m, Machine.forall_mem_set hsound (fun _ => id) hsound', ?_⟩
  obtain hlate | ⟨hsettled, hnone⟩ := hlate
  · refine .inl fun x hx hwrong => awaited_set hi (hlate x hx hwrong) ?_ fun _ => ht'
    intro left hleft hmem
    obtain hl | hl := ht
    · cases hl.symm.trans hleft
    · rw [hl] at hleft
      cases hleft
      cases hmem
  · exact .inr ⟨hsettled, Machine.forall_mem_set hnone (fun _ => id) ht'⟩

/-- A call finds a difference. -/
theorem inv_differs (hsound : ∀ t ∈ s.tasks, t.Sound m n.chans)
    (hlate : Late m n.chans s ∨ Settled n s.mem ∧ ∀ t ∈ s.tasks, t.left = none) {t : Task}
    (hi : s.tasks[i]? = some t) :
    Inv n (s.put i (.apply m (applyMsi n.chans) .unset)) := by
  refine ⟨m, Machine.forall_mem_set hsound (fun _ => id) ⟨rfl, sound_applyMsi n m .unset⟩,
    .inl fun x hx hwrong => awaited_new hi rfl (mem_applyMsi hx) ?_⟩
  intro hodd u hu left hleft
  obtain hlate | ⟨-, hnone⟩ := hlate
  · exact (hlate x hx hwrong).every hodd u hu left hleft
  · cases (hnone u hu).symm.trans hleft

/-- A call makes its next access. -/
theorem inv_perform (hsound : ∀ t ∈ s.tasks, t.Sound m n.chans) (hlate : Late m n.chans s)
    {a : Access} {rest : List Access} {l : Local}
    (hi : s.tasks[i]? = some (.apply m (a :: rest) l)) :
    Inv n ⟨(s.mem.perform m l a).1, s.tasks.set i (.apply m rest (s.mem.perform m l a).2)⟩ := by
  have hmem : Task.apply m (a :: rest) l ∈ s.tasks := List.mem_of_getElem? hi
  have hprogram : Sound m n.chans (a :: rest) l := (hsound _ hmem).2
  -- an even cell that this call has written is right
  have hdone : ∀ x : Cell, x.within n.chans → x.odd = false → x.access ∉ a :: rest →
      x.right m s.mem := by
    intro x hx hodd hnot
    by_contra hwrong
    exact hnot ((hlate x hx hwrong).every hodd _ hmem _ rfl)
  have hload : ∀ k f, a = .load k f → s.mem.msi k f = m f := by
    rintro k f rfl
    refine hdone (.msi k f) hprogram.1 rfl ?_
    rw [List.mem_cons, not_or]
    exact ⟨nofun, hprogram.2.1⟩
  have hread : ∀ k, a = .readData k → k.odd = true →
      half k.partner (s.mem.word k.dir (k.id / 2)) = (m .data).setWidth 16 := by
    rintro k rfl hodd
    obtain ⟨hpartner, hwritten⟩ := hprogram.1 hodd
    have hright := hdone (.data k.partner) hpartner (by rw [Cell.odd, partner_odd, hodd]; rfl)
      (by rw [List.mem_cons, not_or]; exact ⟨nofun, hwritten⟩)
    have hid : k.partner.id / 2 = k.id / 2 := by
      have := of_decide_eq_true hodd
      unfold Chan.partner
      rw [if_pos hodd]
      show (k.id - 1) / 2 = k.id / 2
      omega
    rw [← hid]
    exact hright
  refine ⟨m, Machine.forall_mem_set hsound (fun _ => id)
    ⟨rfl, perform_sound hprogram hload hread⟩, .inl fun x hx hwrong => ?_⟩
  by_cases hbefore : x.access = a ∨ x.right m s.mem
  · -- what was right is wrong now: the odd half of a word that this call writes again
    obtain ⟨hodd, hagain⟩ := (perform_right hprogram hx hbefore).resolve_left hwrong
    exact awaited_new hi rfl hagain fun heven => by rw [hodd] at heven; cases heven
  · rw [not_or] at hbefore
    refine awaited_set hi (hlate x hx hbefore.2) ?_ nofun
    intro left hleft hx
    cases hleft
    exact ⟨rest, rfl, (List.mem_cons.mp hx).resolve_left hbefore.1⟩

/-- A call comes: among calls with its message, or when there is none. -/
theorem inv_call (hsound : ∀ t ∈ s.tasks, t.Sound m n.chans)
    (hlate : Late m n.chans s ∨ Settled n s.mem ∧ ∀ t ∈ s.tasks, t.left = none) {m' : Msg}
    (hrule : ∀ t ∈ s.tasks, ∀ m₀ ∈ t.message, m₀ = m') :
    Inv n {s with tasks := s.tasks ++ [.compare m' fields]} := by
  have append : ∀ {p : Task → Prop}, (∀ t ∈ s.tasks, p t) → p (.compare m' fields) →
      ∀ t ∈ s.tasks ++ [.compare m' fields], p t := fun hall hnew =>
    List.forall_mem_append.mpr ⟨hall, List.forall_mem_singleton.mpr hnew⟩
  by_cases hnone : ∀ t ∈ s.tasks, t.message = none
  · have hleft : ∀ t ∈ s.tasks, t.left = none := fun t ht =>
      Task.left_none_of_message (hnone t ht)
    have hsettled : Settled n s.mem := hlate.elim (settled_of_late · hleft) And.left
    exact ⟨m', append (fun t ht => Task.sound_of_message (hnone t ht) m' n.chans) rfl,
      .inr ⟨hsettled, append hleft rfl⟩⟩
  · obtain ⟨t, ht, hmessage⟩ : ∃ t ∈ s.tasks, t.message ≠ none := by simpa using hnone
    obtain ⟨m₀, hm₀⟩ := Option.ne_none_iff_exists'.mp hmessage
    obtain rfl : m₀ = m := Task.message_eq (hsound t ht) hm₀
    obtain rfl : m₀ = m' := hrule t ht m₀ hm₀
    refine ⟨m₀, append hsound rfl, ?_⟩
    obtain hlate | ⟨hsettled, hleft⟩ := hlate
    · left
      intro x hx hwrong
      obtain ⟨⟨u, hu, left, hleft, hmem⟩, hevery⟩ := hlate x hx hwrong
      exact ⟨⟨u, List.mem_append_left _ hu, left, hleft, hmem⟩,
        fun hodd => append (hevery hodd) nofun⟩
    · exact .inr ⟨hsettled, append hleft rfl⟩

/-- The endpoint comes back from a reset: whatever its registers hold, all of it is going to
be written. -/
theorem inv_recover (hrule : ∀ t ∈ s.tasks, t.message = none) (m' : Msg)
    (imwr : Dir → Imwr → BitVec 32) (word : Dir → Nat → BitVec 32) :
    Inv n ⟨{s.mem with imwr := imwr, word := word},
      s.tasks ++ [.apply m' (restoreMsi n.chans) .unset]⟩ := by
  refine ⟨m', List.forall_mem_append.mpr ⟨?_, ?_⟩, .inl fun x hx _ => ⟨?_, fun _ =>
    List.forall_mem_append.mpr ⟨?_, ?_⟩⟩⟩
  · exact fun t ht => Task.sound_of_message (hrule t ht) m' n.chans
  · exact List.forall_mem_singleton.mpr ⟨rfl, sound_restoreMsi n m' .unset⟩
  · exact ⟨_, List.mem_append_right _ (List.mem_singleton.mpr rfl), _, rfl, mem_restoreMsi hx⟩
  · intro t ht left hleft
    cases (Task.left_none_of_message (hrule t ht)).symm.trans hleft
  · refine List.forall_mem_singleton.mpr fun left hleft => ?_
    cases hleft
    exact mem_restoreMsi hx

theorem step_inv {t : State} {b : Label} (hs : Inv n s) (hrule : Agreed s b)
    (h : step n s b = some t) : Inv n t := by
  obtain ⟨m, hsound, hlate⟩ := hs
  cases b with
  | call m' =>
    cases h
    exact inv_call hsound hlate hrule
  | access i =>
    simp only [step] at h
    split at h
    · rename_i m' hi
      cases h
      exact inv_idle hsound hlate hi (.inl rfl) rfl trivial
    · rename_i m' f left hi
      cases h
      obtain rfl : m' = m := hsound _ (List.mem_of_getElem? hi)
      split
      · exact inv_idle hsound hlate hi (.inl rfl) rfl rfl
      · exact inv_differs hsound hlate hi
    · rename_i m' l hi
      cases h
      exact inv_idle hsound hlate hi (.inr rfl) rfl trivial
    · rename_i m' a left l hi
      cases h
      obtain ⟨rfl, -⟩ := hsound _ (List.mem_of_getElem? hi)
      obtain hlate | ⟨-, hnone⟩ := hlate
      · exact inv_perform hsound hlate hi
      · cases hnone _ (List.mem_of_getElem? hi)
    · cases h
    · cases h
  | recover m' imwr word =>
    cases h
    exact inv_recover hrule m' imwr word

end Steps

theorem inv_probing (n : Counts) (mem : Mem) : Inv n (probing n mem) := by
  refine ⟨mem.irq, ?_, .inl fun x hx hwrong => ?_⟩
  · intro t ht
    rw [List.mem_singleton.mp ht]
    exact ⟨rfl, sound_setup n mem.irq .unset⟩
  · have hmem : x.access ∈ channelSetup n.chans := by
      refine mem_chanConfig hx fun f => ?_
      rintro rfl
      exact hwrong rfl
    refine ⟨⟨_, List.mem_singleton.mpr rfl, _, rfl, hmem⟩, fun _ t ht left hleft => ?_⟩
    rw [List.mem_singleton.mp ht] at hleft
    cases hleft
    exact hmem

def message (a d : Nat) : Msg
  | .addressLo => a
  | .addressHi => 0
  | .data => d

def twoChans : Counts := ⟨2, 0, by decide, by decide⟩

def atProbe : State := probing twoChans
  ⟨message 0xfee00000 0x4021, fun _ _ => 0, fun _ _ => 0, fun _ _ => 0⟩

/-- The probe, and two starts that find the interrupt moved, one access each in turn. -/
def twoStarts : List Label :=
  List.replicate 25 (.access 0) ++
    [.call (message 0xfee01000 0x4031), .call (message 0xfee01000 0x4031)] ++
    (List.replicate 29 [.access 1, .access 2]).flatten

def twoStartsEnd : State :=
  (Machine.run (step twoChans) atProbe twoStarts).get (by decide)

/-- Two starts with different messages: the first is overtaken between its stores to `irq[0]`
and to the channels. -/
def overtakenStarts : List Label :=
  List.replicate 25 (.access 0) ++
    [.call (message 0xfee01000 0x4031), .call (message 0xfee02000 0x4041)] ++
    List.replicate 4 (.access 1) ++ List.replicate 29 (.access 2) ++
    List.replicate 25 (.access 1) ++
    [.call (message 0xfee02000 0x4041)] ++ List.replicate 4 (.access 3)

-- the channels send the older message, and the start that follows finds nothing to repair
example : (Machine.run (step twoChans) atProbe overtakenStarts).map (fun t =>
    (t.tasks.all (·.message.isNone), t.mem.irq .addressLo, t.mem.imwr .write .doneLsb)) =
      some (true, 0xfee02000#32, 0xfee01000#32) := by
  decide

end DxNpuDriver.Edma.Msi
