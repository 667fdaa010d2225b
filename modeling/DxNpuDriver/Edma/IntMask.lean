import DxNpuDriver.Lib.Machine
import DxNpuDriver.Lib.SharedWord
import Mathlib.Logic.Function.Basic

/-! The interrupt mask of one direction (`int_mask`, `dw-edma-v0-core.c`).

All channels of a direction have their bits in one register. A launch masks the done bit of
its channel while the descriptors are copied and unmasks it before the data doorbell; each
time it reads the register and writes it back. The worker of a channel holds its own
`vc.lock` at most, so the workers of two channels get between each other's read and write. -/
namespace DxNpuDriver.Edma.IntMask
open SharedWord (Edit Word)

/-- `EDMA_MAX_WR_CH`, `EDMA_MAX_RD_CH`: the channels of a direction. -/
abbrev Id := Fin 8

/-- `FIELD_PREP(EDMA_V0_DONE_INT_MASK, BIT(id))`. -/
def doneInt (c : Id) : BitVec 32 := 1#32 <<< c.val &&& 0xff#32

/-- `FIELD_PREP(EDMA_V0_ABORT_INT_MASK, BIT(id))`. -/
def abortInt (c : Id) : BitVec 32 := 1#32 <<< c.val <<< 16 &&& 0xff0000#32

def intBits (c : Id) : BitVec 32 := doneInt c ||| abortInt c

/-- What `dw_edma_v0_core_mask_done_int` writes for what it has read. -/
def maskDoneInt (c : Id) (tmp : BitVec 32) : BitVec 32 := tmp ||| doneInt c

/-- What `dw_edma_v0_core_unmask_done_abort_int` writes for what it has read. -/
def unmaskDoneAbortInt (c : Id) (tmp : BitVec 32) : BitVec 32 :=
  tmp &&& ~~~doneInt c &&& ~~~abortInt c

def maskEdit (c : Id) : Edit 32 := ⟨doneInt c, doneInt c⟩

def unmaskEdit (c : Id) : Edit 32 := ⟨intBits c, 0⟩

theorem maskEdit_on (c : Id) (tmp : BitVec 32) : (maskEdit c).on tmp = maskDoneInt c tmp := by
  refine BitVec.eq_of_getLsbD_eq fun i _ => ?_
  rw [Edit.getLsbD_on, maskDoneInt, BitVec.getLsbD_or]
  show (if (doneInt c).getLsbD i = true then (doneInt c).getLsbD i else tmp.getLsbD i) = _
  cases (doneInt c).getLsbD i <;> simp

theorem unmaskEdit_on (c : Id) (tmp : BitVec 32) :
    (unmaskEdit c).on tmp = unmaskDoneAbortInt c tmp := by
  refine BitVec.eq_of_getLsbD_eq fun i hi => ?_
  rw [Edit.getLsbD_on, unmaskDoneAbortInt, BitVec.getLsbD_and, BitVec.getLsbD_and,
    BitVec.getLsbD_not, BitVec.getLsbD_not]
  show (if (doneInt c ||| abortInt c).getLsbD i = true then (0#32).getLsbD i else tmp.getLsbD i) = _
  rw [BitVec.getLsbD_or]
  cases (doneInt c).getLsbD i <;> cases (abortInt c).getLsbD i <;> simp [hi]

theorem intBits_apart : ∀ c d : Id, c ≠ d → intBits c &&& intBits d = 0 := by decide

theorem doneInt_apart : ∀ c d : Id, c ≠ d → intBits c &&& doneInt d = 0 := by decide

/-! ### A channel -/

/-- Where the routine of a channel stands: the register accesses of
`dw_edma_v0_core_prepare_start`, of `dw_edma_v0_xfer_llm` (`xferUnmask`) and of
`dw_edma_v0_core_cancel_prepared`, and what they wait for. -/
inductive Pc where
  | idle
  | firstUnmask
  | waitIdle
  | mask
  | writeChunk
  | copyDesc
  | prepared
  | xferUnmask
  | doorbell
  | cancelUnmask
  | running
  deriving DecidableEq

/-- `chan->is_llm`, and whether the descriptor has a `xfer_sz`, so that its next chunk is
not the first. -/
structure Chan where
  isLlm : Bool
  begun : Bool
  pc : Pc
  deriving DecidableEq

/-- The edit that the routine is at. -/
def Pc.edit (c : Id) : Pc → Option (Edit 32)
  | .firstUnmask | .xferUnmask | .cancelUnmask => some (unmaskEdit c)
  | .mask => some (maskEdit c)
  | .idle | .waitIdle | .writeChunk | .copyDesc | .prepared | .doorbell | .running => none

/-- `dw_edma_v0_core_prepare_start`. -/
def prepareStart (first isLlm : Bool) : Pc := if first && !isLlm then .firstUnmask else .waitIdle

/-- `dw_edma_v0_core_launch_prepared`. -/
def launchPrepared (isLlm : Bool) : Pc := if isLlm then .xferUnmask else .doorbell

/-- `dw_edma_v0_core_cancel_prepared`. -/
def cancelPrepared (isLlm : Bool) : Pc := if isLlm then .cancelUnmask else .idle

/-- Where the routine goes on; `ok` is the outcome of what it has called. -/
def Chan.after (ch : Chan) (ok : Bool) : Option Pc :=
  match ch.pc with
  | .firstUnmask => some .waitIdle
  | .waitIdle => some (if !ok then .idle else if ch.isLlm then .mask else .prepared)
  | .mask => some .writeChunk
  | .writeChunk => some (if ok then .copyDesc else cancelPrepared ch.isLlm)
  | .copyDesc => some (if ok then .prepared else cancelPrepared ch.isLlm)
  | .xferUnmask => some .doorbell
  | .doorbell => some .running
  | .cancelUnmask => some .idle
  | .idle | .prepared | .running => none

structure State where
  reg : Word 32 Id
  chan : Id → Chan
  /-- `edma_reprogram_hw` has masked everything, or the endpoint has been reset, and the
  mask has not been cleared yet. -/
  resetting : Bool

inductive Label where
  /-- A new descriptor. -/
  | submit (c : Id) (isLlm : Bool)
  /-- `dw_edma_launch_work_fn` or `dw_edma_lazy_refill_work` prepares a chunk. -/
  | start (c : Id)
  /-- `dw_edma_v0_core_launch_precopied`. -/
  | precopied (c : Id)
  | launch (c : Id)
  | cancel (c : Id)
  /-- The next access of the routine. -/
  | access (c : Id) (ok : Bool)
  /-- The chunk is over. -/
  | done (c : Id)
  | endpointReset (v : BitVec 32)
  | maskAll
  | unmaskAll
  deriving DecidableEq

/-- `EDMA_V0_DONE_INT_MASK | EDMA_V0_ABORT_INT_MASK`. -/
def allInts : BitVec 32 := 0x00ff00ff#32

/-- What the step does to the register. -/
def regLabel (s : State) : Label → Option (SharedWord.Label 32 Id)
  | .access c _ =>
    match (s.chan c).pc.edit c, s.reg.held c with
    | some e, none => some (.read c e)
    | some _, some _ => some (.write c)
    | none, _ => none
  | .endpointReset v => some (.store v)
  | .maskAll => some (.store allInts)
  | .unmaskAll => some (.store 0)
  | .submit _ _ | .start _ | .precopied _ | .launch _ | .cancel _ | .done _ => none

/-- What the step does to the channel `c`. -/
def Chan.move (ch : Chan) (reading : Bool) : Label → Option Chan
  | .submit _ isLlm => if ch.pc = .idle then some ⟨isLlm, false, .idle⟩ else none
  | .start _ =>
    if ch.pc = .idle then some {ch with pc := prepareStart (!ch.begun) ch.isLlm} else none
  | .precopied _ =>
    if ch.pc = .idle ∧ ch.isLlm ∧ ch.begun then some {ch with pc := .xferUnmask} else none
  | .launch _ => if ch.pc = .prepared then some {ch with pc := launchPrepared ch.isLlm} else none
  | .cancel _ =>
    if ch.pc = .prepared ∨ ch.pc = .idle then some {ch with pc := cancelPrepared ch.isLlm} else none
  | .access _ ok => if reading then some ch else (ch.after ok).map fun pc => {ch with pc := pc}
  | .done _ => if ch.pc = .running then some {ch with begun := true, pc := .idle} else none
  | .endpointReset _ | .maskAll | .unmaskAll => some ch

def Label.chan : Label → Option Id
  | .submit c _ | .start c | .precopied c | .launch c | .cancel c | .access c _ | .done c => some c
  | .endpointReset _ | .maskAll | .unmaskAll => none

/-- The routine is at an edit and has not read the register. -/
def State.reading (s : State) (c : Id) : Bool :=
  ((s.chan c).pc.edit c).isSome && (s.reg.held c).isNone

def State.regAfter (s : State) (a : Label) : Option (Word 32 Id) :=
  match regLabel s a with
  | none => some s.reg
  | some b => SharedWord.step s.reg b

def State.chanAfter (s : State) (a : Label) : Option (Id → Chan) :=
  match a.chan with
  | none => some s.chan
  | some c => ((s.chan c).move (s.reading c) a).map fun ch => Function.update s.chan c ch

def State.resettingAfter (s : State) : Label → Bool
  | .endpointReset _ | .maskAll => true
  | .unmaskAll => false
  | .submit _ _ | .start _ | .precopied _ | .launch _ | .cancel _ | .access _ _ | .done _ =>
    s.resetting

def step (s : State) (a : Label) : Option State :=
  (s.regAfter a).bind fun reg => (s.chanAfter a).map fun chan => ⟨reg, chan, s.resettingAfter a⟩

/-- After `dw_edma_v0_core_off`. -/
def initial : State := ⟨⟨allInts, allInts, fun _ => none⟩, fun _ => ⟨false, false, .idle⟩, false⟩

/-- No copy with bits of other channels that are out of date is written back. -/
def Fresh (s : State) (a : Label) : Prop := ∀ b ∈ regLabel s a, SharedWord.Fresh s.reg b

instance decidableFresh (s : State) (a : Label) : Decidable (Fresh s a) :=
  inferInstanceAs (Decidable (∀ b ∈ regLabel s a, SharedWord.Fresh s.reg b))

/-! ### Steps -/

theorem step_eq_some {s t : State} {a : Label} :
    step s a = some t ↔ s.regAfter a = some t.reg ∧ s.chanAfter a = some t.chan ∧
      t.resetting = s.resettingAfter a := by
  obtain ⟨reg, chan, resetting⟩ := t
  simp only [step, Option.bind_eq_some_iff, Option.map_eq_some_iff, State.mk.injEq]
  constructor
  · rintro ⟨_, hreg, _, hchan, rfl, rfl, rfl⟩
    exact ⟨hreg, hchan, rfl⟩
  · rintro ⟨hreg, hchan, rfl⟩
    exact ⟨reg, hreg, chan, hchan, rfl, rfl, rfl⟩

theorem regAfter_cases {s : State} {a : Label} {reg : Word 32 Id} (h : s.regAfter a = some reg) :
    (regLabel s a = none ∧ reg = s.reg) ∨
      ∃ b, regLabel s a = some b ∧ SharedWord.step s.reg b = some reg := by
  unfold State.regAfter at h
  split at h
  · rename_i hlabel
    cases h
    exact .inl ⟨hlabel, rfl⟩
  · rename_i b hlabel
    exact .inr ⟨b, hlabel, h⟩

theorem chanAfter_cases {s : State} {a : Label} {chan : Id → Chan}
    (h : s.chanAfter a = some chan) :
    (a.chan = none ∧ chan = s.chan) ∨
      ∃ c ch, a.chan = some c ∧ (s.chan c).move (s.reading c) a = some ch ∧
        chan = Function.update s.chan c ch := by
  unfold State.chanAfter at h
  split at h
  · rename_i ha
    cases h
    exact .inl ⟨ha, rfl⟩
  · rename_i c ha
    obtain ⟨ch, hmove, rfl⟩ := Option.map_eq_some_iff.mp h
    exact .inr ⟨c, ch, ha, hmove, rfl⟩

theorem after_isSome {ch : Chan} {c : Id} {e : Edit 32} (h : ch.pc.edit c = some e) (ok : Bool) :
    (ch.after ok).isSome := by
  unfold Chan.after
  cases hpc : ch.pc <;> first | rfl | (rw [hpc] at h; cases h)

/-- A copy that is held is written back by a step that is enabled. -/
theorem step_write {s : State} {c : Id} {ok : Bool} {reg : Word 32 Id}
    (hlabel : regLabel s (.access c ok) = some (.write c))
    (hreg : SharedWord.step s.reg (.write c) = some reg) :
    ∃ t, step s (.access c ok) = some t ∧ t.reg = reg := by
  have hread : s.reading c = false := by
    simp only [regLabel] at hlabel
    split at hlabel
    · cases hlabel
    · rename_i e copy _ hheld
      rw [State.reading, hheld]
      exact Bool.and_false _
    · cases hlabel
  obtain ⟨e, hedit⟩ : ∃ e, (s.chan c).pc.edit c = some e := by
    simp only [regLabel] at hlabel
    split at hlabel
    · cases hlabel
    · rename_i e copy hedit _
      exact ⟨e, hedit⟩
    · cases hlabel
  obtain ⟨pc, hpc⟩ := Option.isSome_iff_exists.mp (after_isSome hedit ok)
  refine ⟨⟨reg, Function.update s.chan c {s.chan c with pc := pc}, s.resetting⟩,
    step_eq_some.mpr ⟨?_, ?_, rfl⟩, rfl⟩
  · rw [State.regAfter, hlabel]
    exact hreg
  · simp only [State.chanAfter, Label.chan, Chan.move, hread, hpc, Bool.false_eq_true, if_false,
      Option.map_some]

/-- Of the register accesses only a write back can be out of date. -/
theorem write_of_not_fresh {s : State} {a : Label} {b : SharedWord.Label 32 Id}
    (hlabel : regLabel s a = some b) (hrule : ¬ SharedWord.Fresh s.reg b) :
    ∃ c ok, a = .access c ok ∧ b = .write c := by
  cases b with
  | read u e => exact absurd trivial hrule
  | store v => exact absurd trivial hrule
  | write u =>
    cases a with
    | access c ok =>
      refine ⟨c, ok, rfl, ?_⟩
      simp only [regLabel] at hlabel
      split at hlabel
      · cases hlabel
      · exact (Option.some.inj hlabel).symm
      · cases hlabel
    | submit c isLlm => cases hlabel
    | start c => cases hlabel
    | precopied c => cases hlabel
    | launch c => cases hlabel
    | cancel c => cases hlabel
    | done c => cases hlabel
    | endpointReset v => cases hlabel
    | maskAll => cases hlabel
    | unmaskAll => cases hlabel

theorem step_asked {s t : State} {a : Label} (hs : s.reg.word = s.reg.asked) (hrule : Fresh s a)
    (h : step s a = some t) : t.reg.word = t.reg.asked := by
  obtain ⟨-, hreg⟩ | ⟨b, hlabel, hreg⟩ := regAfter_cases (step_eq_some.mp h).1
  · rw [hreg]
    exact hs
  · exact SharedWord.step_asked hs (hrule b hlabel) hreg

theorem step_lost {s : State} {a : Label} (hs : s.reg.word = s.reg.asked) (hrule : ¬ Fresh s a) :
    ∃ t, step s a = some t ∧ t.reg.word ≠ t.reg.asked := by
  simp only [Fresh, not_forall] at hrule
  obtain ⟨b, hlabel, hrule⟩ := hrule
  obtain ⟨reg, hreg, hne⟩ := SharedWord.step_lost hs hrule
  obtain ⟨c, ok, rfl, rfl⟩ := write_of_not_fresh hlabel hrule
  obtain ⟨t, ht, rfl⟩ := step_write hlabel hreg
  exact ⟨t, ht, hne⟩

/-! ### Who is heard -/

/-- The interrupts of the channel have been unmasked and not masked again. -/
def Chan.due (ch : Chan) : Bool :=
  match ch.pc with
  | .running | .doorbell => true
  | .idle | .mask => ch.begun
  | .waitIdle => !ch.isLlm || ch.begun
  | .prepared => !ch.isLlm
  | .firstUnmask | .writeChunk | .copyDesc | .xferUnmask | .cancelUnmask => false

/-- Descriptors are copied for a linked list only. -/
def Chan.Shaped (ch : Chan) : Prop :=
  ch.pc = .mask ∨ ch.pc = .writeChunk ∨ ch.pc = .copyDesc → ch.isLlm = true

structure Heard (s : State) : Prop where
  asked : s.reg.word = s.reg.asked
  held : ∀ c e copy, s.reg.held c = some (e, copy) → (s.chan c).pc.edit c = some e
  shaped : ∀ c, (s.chan c).Shaped
  heard : s.resetting = false → ∀ c, (s.chan c).due = true → s.reg.asked &&& intBits c = 0

theorem heard_initial : Heard initial where
  asked := rfl
  held := by
    intro c e copy h
    cases h
  shaped := by
    intro c h
    simp [initial] at h
  heard := by
    intro _ c h
    cases h

/-- What the channel does where it touches no mask. -/
theorem quiet_move {ch ch' : Chan} {c : Id} {reading : Bool} {a : Label}
    (h : ch.move reading a = some ch') (hedit : ch.pc.edit c = none) (hshaped : ch.Shaped) :
    ch'.Shaped ∧ (ch'.due = true → ch.due = true) := by
  obtain ⟨isLlm, begun, pc⟩ := ch
  cases a with
  | submit _ _ =>
    simp only [Chan.move, Option.ite_none_right_eq_some, Option.some.injEq] at h
    obtain ⟨-, rfl⟩ := h
    simp [Chan.Shaped, Chan.due]
  | start _ =>
    simp only [Chan.move, Option.ite_none_right_eq_some, Option.some.injEq] at h
    obtain ⟨rfl, rfl⟩ := h
    cases isLlm <;> cases begun <;> simp [Chan.Shaped, Chan.due, prepareStart]
  | precopied _ =>
    simp only [Chan.move, Option.ite_none_right_eq_some, Option.some.injEq] at h
    obtain ⟨-, rfl⟩ := h
    simp [Chan.Shaped, Chan.due]
  | launch _ =>
    simp only [Chan.move, Option.ite_none_right_eq_some, Option.some.injEq] at h
    obtain ⟨rfl, rfl⟩ := h
    cases isLlm <;> simp [Chan.Shaped, Chan.due, launchPrepared]
  | cancel _ =>
    simp only [Chan.move, Option.ite_none_right_eq_some, Option.some.injEq] at h
    obtain ⟨rfl | rfl, rfl⟩ := h <;>
      cases isLlm <;> simp [Chan.Shaped, Chan.due, cancelPrepared]
  | access _ ok =>
    simp only [Chan.move] at h
    split at h
    · cases h
      exact ⟨hshaped, id⟩
    · simp only [Option.map_eq_some_iff] at h
      obtain ⟨pc', hpc, rfl⟩ := h
      cases pc <;> cases hedit <;>
        simp only [Chan.after, Option.some.injEq, reduceCtorEq] at hpc <;> subst hpc
      all_goals
        cases isLlm <;> cases begun <;> cases ok <;>
          simp_all [Chan.Shaped, Chan.due, cancelPrepared]
  | done _ =>
    simp only [Chan.move, Option.ite_none_right_eq_some, Option.some.injEq] at h
    obtain ⟨rfl, rfl⟩ := h
    simp [Chan.Shaped, Chan.due]
  | endpointReset v =>
    cases h
    exact ⟨hshaped, id⟩
  | maskAll =>
    cases h
    exact ⟨hshaped, id⟩
  | unmaskAll =>
    cases h
    exact ⟨hshaped, id⟩

/-- Away from its edits nobody holds a copy for the channel. -/
theorem Heard.held_none {s : State} (hs : Heard s) {c : Id} (hedit : (s.chan c).pc.edit c = none) :
    s.reg.held c = none := by
  cases hheld : s.reg.held c with
  | none => rfl
  | some p => cases hedit.symm.trans (hs.held c p.1 p.2 hheld)

/-- A routine that is at an edit takes no step but the edit. -/
theorem edit_none_of_move {ch ch' : Chan} {c : Id} {reading : Bool} {a : Label}
    (ha : a.chan = some c) (haccess : ∀ ok, a ≠ .access c ok)
    (h : ch.move reading a = some ch') : ch.pc.edit c = none := by
  cases a with
  | access d ok =>
    cases ha
    exact absurd rfl (haccess ok)
  | submit d isLlm =>
    simp only [Chan.move, Option.ite_none_right_eq_some] at h
    rw [h.1, Pc.edit]
  | start d =>
    simp only [Chan.move, Option.ite_none_right_eq_some] at h
    rw [h.1, Pc.edit]
  | precopied d =>
    simp only [Chan.move, Option.ite_none_right_eq_some] at h
    rw [h.1.1, Pc.edit]
  | launch d =>
    simp only [Chan.move, Option.ite_none_right_eq_some] at h
    rw [h.1, Pc.edit]
  | cancel d =>
    simp only [Chan.move, Option.ite_none_right_eq_some] at h
    obtain hpc | hpc := h.1
    · rw [hpc, Pc.edit]
    · rw [hpc, Pc.edit]
  | done d =>
    simp only [Chan.move, Option.ite_none_right_eq_some] at h
    rw [h.1, Pc.edit]
  | endpointReset v => cases ha
  | maskAll => cases ha
  | unmaskAll => cases ha

theorem heard_quiet {s : State} (hs : Heard s) {c : Id} {ch : Chan}
    (hedit : (s.chan c).pc.edit c = none) (hshaped : ch.Shaped)
    (hdue : ch.due = true → (s.chan c).due = true) :
    Heard {s with chan := Function.update s.chan c ch} where
  asked := hs.asked
  held := by
    intro d e copy hheld
    by_cases hd : d = c
    · subst hd
      cases (hs.held_none hedit).symm.trans hheld
    · show (Function.update s.chan c ch d).pc.edit d = some e
      rw [Function.update_of_ne hd]
      exact hs.held d e copy hheld
  shaped := by
    intro d
    show (Function.update s.chan c ch d).Shaped
    by_cases hd : d = c
    · rw [hd, Function.update_self]
      exact hshaped
    · rw [Function.update_of_ne hd]
      exact hs.shaped d
  heard := by
    intro hresetting d hd
    change (Function.update s.chan c ch d).due = true at hd
    by_cases hdc : d = c
    · subst hdc
      rw [Function.update_self] at hd
      exact hs.heard hresetting d (hdue hd)
    · rw [Function.update_of_ne hdc] at hd
      exact hs.heard hresetting d hd

theorem heard_read {s : State} (hs : Heard s) {c : Id} {e : Edit 32}
    (hedit : (s.chan c).pc.edit c = some e) :
    Heard {s with
      reg := {s.reg with held := Function.update s.reg.held c (some (e, s.reg.word))}} where
  asked := hs.asked
  held := by
    intro d e' copy hheld
    change Function.update s.reg.held c (some (e, s.reg.word)) d = some (e', copy) at hheld
    by_cases hd : d = c
    · subst hd
      rw [Function.update_self] at hheld
      cases hheld
      exact hedit
    · rw [Function.update_of_ne hd] at hheld
      exact hs.held d e' copy hheld
  shaped := hs.shaped
  heard := hs.heard

/-- An edit of a channel is none of the interrupts of another. -/
theorem edit_apart {pc : Pc} {c d : Id} {e : Edit 32} (he : pc.edit c = some e) (hne : d ≠ c) :
    intBits d &&& e.mask = 0 := by
  cases pc <;> cases he <;> first | exact intBits_apart d c hne | exact doneInt_apart d c hne

/-- After its edit a channel has its interrupts unmasked, or is not due to have them. -/
theorem edit_due {ch : Chan} {c : Id} {e : Edit 32} {ok : Bool} {pc : Pc}
    (he : ch.pc.edit c = some e) (hshaped : ch.Shaped) (hpc : ch.after ok = some pc) :
    Chan.Shaped {ch with pc := pc} ∧
      (Chan.due {ch with pc := pc} = true → e = unmaskEdit c) := by
  obtain ⟨isLlm, begun, pc₀⟩ := ch
  cases pc₀ with
  | firstUnmask =>
    cases hpc
    cases he
    exact ⟨by simp [Chan.Shaped], fun _ => rfl⟩
  | xferUnmask =>
    cases hpc
    cases he
    exact ⟨by simp [Chan.Shaped], fun _ => rfl⟩
  | cancelUnmask =>
    cases hpc
    cases he
    exact ⟨by simp [Chan.Shaped], fun _ => rfl⟩
  | mask =>
    cases hpc
    exact ⟨fun _ => hshaped (.inl rfl), fun hdue => by cases hdue⟩
  | idle => cases he
  | waitIdle => cases he
  | writeChunk => cases he
  | copyDesc => cases he
  | prepared => cases he
  | doorbell => cases he
  | running => cases he

theorem unmaskEdit_clear (c : Id) (w : BitVec 32) : (unmaskEdit c).on w &&& intBits c = 0 := by
  rw [Edit.on_own (m := intBits c) (unmaskEdit c) w BitVec.and_self]
  exact BitVec.zero_and

theorem heard_write {s : State} (hs : Heard s) {c : Id} {e : Edit 32} {copy : BitVec 32}
    {ok : Bool} {pc : Pc} (hedit : (s.chan c).pc.edit c = some e)
    (hpc : (s.chan c).after ok = some pc) (hasked : e.on copy = e.on s.reg.asked) :
    Heard ⟨⟨e.on copy, e.on s.reg.asked, Function.update s.reg.held c none⟩,
      Function.update s.chan c {s.chan c with pc := pc}, s.resetting⟩ where
  asked := hasked
  held := by
    intro d e' copy' hheld
    change Function.update s.reg.held c none d = some (e', copy') at hheld
    show (Function.update s.chan c _ d).pc.edit d = some e'
    by_cases hd : d = c
    · rw [hd, Function.update_self] at hheld
      cases hheld
    · rw [Function.update_of_ne hd] at hheld ⊢
      exact hs.held d e' copy' hheld
  shaped := by
    intro d
    show (Function.update s.chan c _ d).Shaped
    by_cases hd : d = c
    · rw [hd, Function.update_self]
      exact (edit_due hedit (hs.shaped c) hpc).1
    · rw [Function.update_of_ne hd]
      exact hs.shaped d
  heard := by
    intro hresetting d hd
    change (Function.update s.chan c _ d).due = true at hd
    show e.on s.reg.asked &&& intBits d = 0
    by_cases hdc : d = c
    · subst hdc
      rw [Function.update_self] at hd
      rw [(edit_due hedit (hs.shaped d) hpc).2 hd]
      exact unmaskEdit_clear d s.reg.asked
    · rw [Function.update_of_ne hdc] at hd
      rw [e.on_other s.reg.asked (edit_apart hedit hdc)]
      exact hs.heard hresetting d hd

theorem heard_store {s : State} (hs : Heard s) (v : BitVec 32) (resetting : Bool)
    (hv : resetting = true ∨ v = 0) :
    Heard ⟨{s.reg with word := v, asked := v}, s.chan, resetting⟩ where
  asked := rfl
  held := hs.held
  shaped := hs.shaped
  heard := by
    intro hresetting d _
    change resetting = false at hresetting
    subst hresetting
    rw [hv.resolve_left Bool.false_ne_true]
    exact BitVec.zero_and

/-- A step of a channel away from the register. -/
theorem step_quiet {s : State} {a : Label} {reg : Word 32 Id} {c : Id} {ch : Chan} (hs : Heard s)
    (hedit : (s.chan c).pc.edit c = none) (hlabel : regLabel s a = none)
    (hreg : s.regAfter a = some reg) (hmove : (s.chan c).move (s.reading c) a = some ch) :
    Heard ⟨reg, Function.update s.chan c ch, s.resetting⟩ := by
  obtain ⟨-, rfl⟩ | ⟨b, hb, -⟩ := regAfter_cases hreg
  · obtain ⟨hshaped, hdue⟩ := quiet_move hmove hedit (hs.shaped c)
    exact heard_quiet hs hedit hshaped hdue
  · cases hlabel.symm.trans hb

/-- A step of a channel that is at an edit: it reads, or it writes back what it has read. -/
theorem step_edit {s : State} {reg : Word 32 Id} {c : Id} {ch : Chan} {ok : Bool} {e : Edit 32}
    (hs : Heard s) (hrule : Fresh s (.access c ok)) (hedit : (s.chan c).pc.edit c = some e)
    (hreg : s.regAfter (.access c ok) = some reg)
    (hmove : (s.chan c).move (s.reading c) (.access c ok) = some ch) :
    Heard ⟨reg, Function.update s.chan c ch, s.resetting⟩ := by
  cases hheld : s.reg.held c with
  | none =>
    have hlabel : regLabel s (.access c ok) = some (.read c e) := by
      simp only [regLabel, hedit, hheld]
    have hread : s.reading c = true := by
      rw [State.reading, hedit, hheld]
      rfl
    rw [State.regAfter, hlabel] at hreg
    simp only [SharedWord.step, hheld, Option.some.injEq] at hreg
    simp only [Chan.move, hread, if_true, Option.some.injEq] at hmove
    subst hreg hmove
    rw [Function.update_eq_self]
    exact heard_read hs hedit
  | some p =>
    obtain ⟨e', copy⟩ := p
    obtain rfl : e = e' := Option.some.inj (hedit.symm.trans (hs.held c e' copy hheld))
    have hlabel : regLabel s (.access c ok) = some (.write c) := by
      simp only [regLabel, hedit, hheld]
    have hread : s.reading c = false := by
      rw [State.reading, hheld]
      exact Bool.and_false _
    have hfresh := hrule _ hlabel (e, copy) hheld
    rw [State.regAfter, hlabel] at hreg
    simp only [SharedWord.step, hheld, Option.some.injEq] at hreg
    simp only [Chan.move, hread, Bool.false_eq_true, if_false, Option.map_eq_some_iff] at hmove
    obtain ⟨pc, hpc, rfl⟩ := hmove
    subst hreg
    exact heard_write hs hedit hpc (hfresh.trans (congrArg e.on hs.asked))

theorem step_heard {s t : State} {a : Label} (hs : Heard s) (hrule : Fresh s a)
    (h : step s a = some t) : Heard t := by
  obtain ⟨hreg, hchan, hresetting⟩ := step_eq_some.mp h
  obtain ⟨reg, chan, resetting⟩ := t
  change s.regAfter a = some reg at hreg
  change s.chanAfter a = some chan at hchan
  obtain rfl : resetting = s.resettingAfter a := hresetting
  obtain ⟨ha, rfl⟩ | ⟨c, ch, ha, hmove, rfl⟩ := chanAfter_cases hchan
  · cases a with
    | endpointReset v =>
      cases hreg
      exact heard_store hs v true (.inl rfl)
    | maskAll =>
      cases hreg
      exact heard_store hs allInts true (.inl rfl)
    | unmaskAll =>
      cases hreg
      exact heard_store hs 0 false (.inr rfl)
    | submit d isLlm => cases ha
    | start d => cases ha
    | precopied d => cases ha
    | launch d => cases ha
    | cancel d => cases ha
    | access d ok => cases ha
    | done d => cases ha
  · have hkeep : s.resettingAfter a = s.resetting := by
      cases a <;> first | rfl | cases ha
    rw [hkeep]
    by_cases haccess : ∀ ok, a ≠ .access c ok
    · have hlabel : regLabel s a = none := by
        cases a <;> first | rfl | (cases ha; exact absurd rfl (haccess _)) | cases ha
      exact step_quiet hs (edit_none_of_move ha haccess hmove) hlabel hreg hmove
    · obtain ⟨ok, rfl⟩ : ∃ ok, a = .access c ok := not_forall_not.mp haccess
      cases hedit : (s.chan c).pc.edit c with
      | none =>
        have hlabel : regLabel s (.access c ok) = none := by simp only [regLabel, hedit]
        exact step_quiet hs hedit hlabel hreg hmove
      | some e => exact step_edit hs hrule hedit hreg hmove

/-- One edit at a time is enough. -/
def Alone (s : State) (a : Label) : Prop := ∀ b ∈ regLabel s a, SharedWord.Alone s.reg b

theorem fresh_of_alone {as : List Label} (rule : Machine.Admissible step Alone initial as) :
    Machine.Admissible step Fresh initial as := by
  have keep : ∀ s a t, SharedWord.Single s.reg → Alone s a → step s a = some t →
      SharedWord.Single t.reg := by
    intro s a t hs hrule h
    obtain ⟨-, hreg⟩ | ⟨b, hlabel, hreg⟩ := regAfter_cases (step_eq_some.mp h).1
    · rw [hreg]
      exact hs
    · exact SharedWord.step_single hs (hrule b hlabel) hreg
  have start : SharedWord.Single initial.reg := by
    constructor
    · intro c e copy h
      cases h
    · intro c d h
      exact absurd rfl h
  exact rule.imp step keep (fun _ _ hs _ _ _ => SharedWord.fresh_of_single hs) start

/-- A transfer of channel 0 from its descriptor to its doorbell, one access after the
other. -/
def linkedList : List Label :=
  [.submit 0 true, .start 0, .access 0 true, .access 0 true, .access 0 true, .access 0 true,
    .access 0 true, .launch 0, .access 0 true, .access 0 true, .access 0 true]

def linkedListEnd : State := (Machine.run step initial linkedList).get (by decide)

/-- Channel 1 reads the mask for its first unmask, channel 0 is launched, channel 1 writes
back: channel 0 runs with its done interrupt masked. -/
def overtaken : List Label :=
  [.submit 1 false, .start 1, .submit 0 true, .start 0, .access 0 true, .access 0 true,
    .access 0 true, .access 1 true, .access 0 true, .access 0 true, .launch 0, .access 0 true,
    .access 0 true, .access 1 true, .access 0 true]

example : (Machine.run step initial overtaken).map (fun t =>
    (decide ((t.chan 0).pc = .running), t.reg.word &&& intBits 0)) = some (true, 0x10001#32) := by
  decide

end DxNpuDriver.Edma.IntMask
