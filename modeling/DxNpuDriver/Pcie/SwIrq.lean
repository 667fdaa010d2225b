import DxNpuDriver.Kernel
import DxNpuDriver.Lib.Machine
import Mathlib.Data.Finset.Basic
import Mathlib.Tactic.Common

/-! The software interrupt block (`dw-edma-core.c`).

With a single MSI the endpoint says in shared memory which of its events it means: it sets
`set_off[i]` and raises the MSI. The handler gathers what is set into `status_raw_off`,
calls the handler of each pending event, and only then clears `status_raw_off` and the
`set_off` of all that it has handled. An event that is set again after its handler has
run and before the clear is cleared unseen; the MSI that was raised for it finds nothing.

`undisturbed_run_serves` says that this window is the only one. -/
namespace DxNpuDriver.Pcie.SwIrq

/-- A mask, as the set of its bits. -/
abbrev Mask := Finset Nat

def userIrqNums : Nat := 16

/-- What `dx_sw_intr_init` leaves: the handlers of the vector table, `sw_active_mask` and the
enable word. -/
structure Lines where
  handler : Nat → Bool
  active : Mask
  enable : Mask
  served : ∀ i ∈ active, i < userIrqNums ∧ handler i = true

/-- `dx_sw_intr_init`: the entries before the first one without a handler. -/
def swIntrInit (handler : Nat → Bool) : Lines where
  handler := handler
  active := (Finset.range userIrqNums).filter fun i => ∀ j < i + 1, handler j = true
  enable := (Finset.range userIrqNums).filter fun i => ∀ j < i + 1, handler j = true
  served i hi := by
    obtain ⟨hlt, hall⟩ := Finset.mem_filter.mp hi
    exact ⟨Finset.mem_range.mp hlt, hall i (Nat.lt_succ_self i)⟩

/-- Where `dx_sw_irq_handler` stands, each access and each call of a handler a place. -/
inductive Pc where
  | idle
  | enable
  /-- The loop of `dx_sw_irq_latch_and_clear`, before line `i`. -/
  | latch (i : Nat) (bits : Mask)
  | latchRaw (bits : Mask)
  | latchWrite (bits raw : Mask)
  | getPending
  /-- The loop of `dx_sw_irq_process_pending`, before line `i`. -/
  | process (i : Nat) (pending handled : Mask)
  /-- The handler of `i` has been called; its counter is read and written. -/
  | count (i : Nat) (pending handled : Mask)
  | counted (i : Nat) (cnt : Nat) (pending handled : Mask)
  | clearRaw (handled : Mask)
  | clearWrite (handled raw : Mask)
  /-- The loop of `dx_sw_irq_clear_handled_bits`, before line `i`. -/
  | clearSet (i : Nat) (handled : Mask)

/-- The block, the handler, and the endpoint: for each line the events whose payload is
written and which are not yet set, and all that are set and not yet raised. -/
structure State where
  setOff : Mask
  statusRaw : Mask
  handledCnt : Nat → Nat
  pc : Pc
  written : Nat → Nat
  unraised : Nat
  msi : Nat

def initial : State := ⟨∅, ∅, fun _ => 0, .idle, fun _ => 0, 0, 0⟩

inductive Label where
  | payload (i : Nat)
  | set (i : Nat)
  | raise
  /-- The interrupt is taken for `n` of the raised MSIs; for none of them, if it was a DMA
  channel that raised it. -/
  | irq (n : Nat)
  | host

section Step
variable (l : Lines)

/-- `if (!handled_mask) return`, at the end of the loop over the pending lines. -/
def State.processed (s : State) (handled : Mask) : State :=
  {s with pc := if handled = ∅ then .idle else .clearRaw handled}

/-- One access of `dx_sw_irq_handler`. -/
def hostStep (s : State) : Option State :=
  match s.pc with
  | .idle => none
  | .enable => some {s with pc := if l.enable = ∅ then .idle else .latch 0 ∅}
  | .latch i bits =>
    if i < userIrqNums then
      some {s with pc := .latch (i + 1) (if i ∈ l.active ∧ i ∈ s.setOff then insert i bits else bits)}
    else some {s with pc := if bits = ∅ then .getPending else .latchRaw bits}
  | .latchRaw bits => some {s with pc := .latchWrite bits s.statusRaw}
  | .latchWrite bits raw => some {s with statusRaw := raw ∪ bits, pc := .getPending}
  | .getPending =>
    some {s with pc := if s.statusRaw ∩ l.enable = ∅ then .idle
      else .process 0 (s.statusRaw ∩ l.enable) ∅}
  | .process i pending handled =>
    if i < userIrqNums then
      if i ∈ l.active ∧ i ∈ pending then
        if l.handler i then some {s with pc := .count i pending handled}
        else some (s.processed handled)
      else some {s with pc := .process (i + 1) pending handled}
    else some (s.processed handled)
  | .count i pending handled => some {s with pc := .counted i (s.handledCnt i) pending handled}
  | .counted i cnt pending handled =>
    some {s with
      handledCnt := Function.update s.handledCnt i ((cnt + 1) % 2 ^ 32)
      pc := .process (i + 1) pending (insert i handled)}
  | .clearRaw handled => some {s with pc := .clearWrite handled s.statusRaw}
  | .clearWrite handled raw => some {s with statusRaw := raw \ handled, pc := .clearSet 0 handled}
  | .clearSet i handled =>
    if i < userIrqNums then
      some {s with
        setOff := if i ∈ handled ∧ i ∈ l.active then s.setOff.erase i else s.setOff
        pc := .clearSet (i + 1) handled}
    else some {s with pc := .idle}

def step (s : State) : Label → Option State
  | .payload i => some {s with written := Function.update s.written i (s.written i + 1)}
  | .set i =>
    if 0 < s.written i then
      some {s with
        setOff := insert i s.setOff
        written := Function.update s.written i (s.written i - 1)
        unraised := s.unraised + 1}
    else none
  | .raise =>
    if 0 < s.unraised then some {s with unraised := s.unraised - 1, msi := s.msi + 1} else none
  | .irq n =>
    match s.pc with
    | .idle => if n ≤ s.msi then some {s with msi := s.msi - n, pc := .enable} else none
    | _ => none
  | .host => hostStep l s

/-- What is asked about in a run: the sets of `set_off[i]` and the calls of the handler of `i`. -/
inductive Event where
  | set (i : Nat)
  | call (i : Nat)
  deriving DecidableEq

/-- The line whose handler the next access of the host calls. -/
def calling (s : State) : Option Nat :=
  match s.pc with
  | .process i pending _ =>
    if i < userIrqNums ∧ i ∈ l.active ∧ i ∈ pending ∧ l.handler i then some i else none
  | _ => none

def note (s : State) (a : Label) (log : List Event) : List Event :=
  match a with
  | .set i => log ++ [.set i]
  | .host =>
    match calling l s with
    | some i => log ++ [.call i]
    | none => log
  | .payload _ | .raise | .irq _ => log

/-- A run with its record. -/
def logged : State × List Event → Label → Option (State × List Event) :=
  Machine.watched (step l) (note l)

end Step

/-- Every MSI has been raised and handled. -/
def Handled (s : State) : Prop :=
  s.unraised = 0 ∧ s.msi = 0 ∧ match s.pc with
    | .idle => True
    | _ => False

/-- A set of `set_off[i]` that no call of its handler follows. -/
def Owed (log : List Event) (i : Nat) : Prop :=
  ∃ as bs, log = as ++ .set i :: bs ∧ .call i ∉ bs

/-- The handler of `i` has run and its `set_off` is still to be cleared. -/
def Clearing (i : Nat) : Pc → Prop
  | .process _ _ handled => i ∈ handled
  | .count j _ handled | .counted j _ _ handled => i = j ∨ i ∈ handled
  | .clearRaw handled | .clearWrite handled _ => i ∈ handled
  | .clearSet j handled => j ≤ i ∧ i ∈ handled
  | _ => False

instance (i : Nat) (pc : Pc) : Decidable (Clearing i pc) :=
  match pc with
  | .process _ _ handled => inferInstanceAs (Decidable (i ∈ handled))
  | .count j _ handled => inferInstanceAs (Decidable (i = j ∨ i ∈ handled))
  | .counted j _ _ handled => inferInstanceAs (Decidable (i = j ∨ i ∈ handled))
  | .clearRaw handled => inferInstanceAs (Decidable (i ∈ handled))
  | .clearWrite handled _ => inferInstanceAs (Decidable (i ∈ handled))
  | .clearSet j handled => inferInstanceAs (Decidable (j ≤ i ∧ i ∈ handled))
  | .idle | .enable | .latch _ _ | .latchRaw _ | .latchWrite _ _ | .getPending => isFalse id

/-- No event is set between the call of its handler and the clear. -/
def Undisturbed (s : State × List Event) : Label → Prop
  | .set i => ¬ Clearing i s.1.pc
  | .payload _ | .raise | .irq _ | .host => True

instance (s : State × List Event) (a : Label) : Decidable (Undisturbed s a) :=
  match a with
  | .set i => inferInstanceAs (Decidable (¬ Clearing i s.1.pc))
  | .payload _ | .raise | .irq _ | .host => isTrue trivial

/-! ### What is owed -/

theorem owed_set {log : List Event} {i j : Nat} :
    Owed (log ++ [.set j]) i ↔ i = j ∨ Owed log i := by
  constructor
  · rintro ⟨as, bs, hlog, hcall⟩
    rcases List.eq_nil_or_concat bs with rfl | ⟨bs, e, rfl⟩
    · obtain ⟨-, he⟩ := List.append_inj' hlog rfl
      cases he
      exact .inl rfl
    · have hlog : log ++ [.set j] = (as ++ .set i :: bs) ++ [e] := by simpa using hlog
      obtain ⟨rfl, -⟩ := List.append_inj' hlog rfl
      exact .inr ⟨as, bs, rfl, fun h => hcall (by simp [h])⟩
  · rintro (rfl | ⟨as, bs, rfl, hcall⟩)
    · exact ⟨log, [], rfl, List.not_mem_nil⟩
    · exact ⟨as, bs ++ [.set j], by simp, by simpa using hcall⟩

theorem owed_call {log : List Event} {i j : Nat} (h : Owed (log ++ [.call j]) i) :
    i ≠ j ∧ Owed log i := by
  obtain ⟨as, bs, hlog, hcall⟩ := h
  rcases List.eq_nil_or_concat bs with rfl | ⟨bs, e, rfl⟩
  · obtain ⟨-, he⟩ := List.append_inj' hlog rfl
    cases he
  · have hlog : log ++ [.call j] = (as ++ .set i :: bs) ++ [e] := by simpa using hlog
    obtain ⟨rfl, he⟩ := List.append_inj' hlog rfl
    cases he
    refine ⟨?_, as, bs, rfl, fun h => hcall (by simp [h])⟩
    rintro rfl
    exact hcall (by simp)

/-- The run of the handler that is under way will call the handler of `i`. -/
def WillCall (i : Nat) (s : State) : Prop :=
  match s.pc with
  | .latch _ bits | .latchRaw bits | .latchWrite bits _ => i ∈ bits
  | .getPending => i ∈ s.statusRaw
  | .process j pending _ => j ≤ i ∧ i ∈ pending
  | .count j pending _ | .counted j _ pending _ => j < i ∧ i ∈ pending
  | _ => False

/-- It will still look at `set_off[i]`. -/
def WillRead (i : Nat) : Pc → Prop
  | .enable => True
  | .latch j _ => j ≤ i
  | _ => False

/-- What is set waits in `set_off`, and somebody is still to look. -/
structure Waits (i : Nat) (s : State) : Prop where
  set : i ∈ s.setOff
  kept : ¬ Clearing i s.pc
  seen : 0 < s.unraised ∨ 0 < s.msi ∨ WillRead i s.pc

/-- Every event that is owed a call will get it. -/
def Inv (l : Lines) (s : State × List Event) : Prop :=
  ∀ i ∈ l.active, i ∈ l.enable → Owed s.2 i → WillCall i s.1 ∨ Waits i s.1

variable {l : Lines}

theorem initial_inv : Inv l (initial, []) := by
  rintro i - - ⟨as, bs, h, -⟩
  exact absurd h (by simp)

section Host
variable {s t : State} {i j : Nat} {pending handled bits : Mask}

/-- What waits goes on waiting where the host only moves on. -/
theorem Waits.moved (waits : Waits i s) (hset : i ∈ t.setOff)
    (hraised : t.unraised = s.unraised ∧ t.msi = s.msi) (hkept : ¬ Clearing i t.pc)
    (hread : WillRead i s.pc → WillRead i t.pc) : Waits i t where
  set := hset
  kept := hkept
  seen := by
    rw [hraised.1, hraised.2]
    exact waits.seen.imp_right fun seen => seen.imp_right hread

theorem latch_keeps (hpc : s.pc = .latch j bits) (h : hostStep l s = some t) (hactive : i ∈ l.active)
    (hlt : i < userIrqNums) (inv : WillCall i s ∨ Waits i s) : WillCall i t ∨ Waits i t := by
  simp only [hostStep, hpc] at h
  split at h
  · cases h
    rcases inv with hbits | waits
    · simp only [WillCall, hpc] at hbits
      refine .inl ?_
      simp only [WillCall]
      split
      · exact Finset.mem_insert_of_mem hbits
      · exact hbits
    · by_cases hji : j = i
      · subst hji
        refine .inl ?_
        simp only [WillCall, if_pos (And.intro hactive waits.set)]
        exact Finset.mem_insert_self j bits
      · refine .inr (waits.moved waits.set ⟨rfl, rfl⟩ id fun hread => ?_)
        simp only [WillRead, hpc] at hread ⊢
        omega
  · next hend =>
    cases h
    rcases inv with hbits | waits
    · simp only [WillCall, hpc] at hbits
      rw [if_neg (Finset.ne_empty_of_mem hbits)]
      exact .inl hbits
    · refine .inr (waits.moved waits.set ⟨rfl, rfl⟩ ?_ fun hread => ?_)
      · split <;> exact id
      · simp only [WillRead, hpc] at hread
        omega

theorem getPending_keeps (hpc : s.pc = .getPending) (h : hostStep l s = some t)
    (henable : i ∈ l.enable) (inv : WillCall i s ∨ Waits i s) : WillCall i t ∨ Waits i t := by
  simp only [hostStep, hpc, Option.some.injEq] at h
  subst h
  rcases inv with hraw | waits
  · simp only [WillCall, hpc] at hraw
    have hmem : i ∈ s.statusRaw ∩ l.enable := Finset.mem_inter.mpr ⟨hraw, henable⟩
    rw [if_neg (Finset.ne_empty_of_mem hmem)]
    exact .inl ⟨Nat.zero_le i, hmem⟩
  · refine .inr (waits.moved waits.set ⟨rfl, rfl⟩ ?_ fun hread => ?_)
    · split
      · exact id
      · exact Finset.notMem_empty i
    · simp only [WillRead, hpc] at hread

/-- The end of the loop over the pending lines. -/
theorem Waits.processed (waits : Waits i s) (hpc : s.pc = .process j pending handled) :
    Waits i (s.processed handled) := by
  have kept := waits.kept
  simp only [Clearing, hpc] at kept
  refine waits.moved waits.set ⟨rfl, rfl⟩ ?_ fun hread => ?_
  · simp only [State.processed]
    split
    · exact id
    · exact kept
  · simp only [WillRead, hpc] at hread

theorem process_keeps (hpc : s.pc = .process j pending handled) (h : hostStep l s = some t)
    (hactive : i ∈ l.active) (hcall : calling l s ≠ some i) (inv : WillCall i s ∨ Waits i s) :
    WillCall i t ∨ Waits i t := by
  obtain ⟨hlt, hhandler⟩ := l.served i hactive
  simp only [hostStep, hpc] at h
  split at h
  · next hmore =>
    split at h
    · next hj =>
      rw [if_pos (l.served j hj.1).2] at h
      cases h
      have hji : i ≠ j := by
        rintro rfl
        exact hcall (by simp [calling, hpc, hlt, hj, hhandler])
      refine inv.imp (fun hc => ?_) fun waits => waits.moved waits.set ⟨rfl, rfl⟩ ?_ fun hread => ?_
      · simp only [WillCall, hpc] at hc ⊢
        exact ⟨by omega, hc.2⟩
      · have kept := waits.kept
        simp only [Clearing, hpc] at kept
        simpa only [Clearing, hji, false_or] using kept
      · simp only [WillRead, hpc] at hread
    · next hj =>
      cases h
      refine inv.imp (fun hc => ?_) fun waits => waits.moved waits.set ⟨rfl, rfl⟩ ?_ fun hread => ?_
      · simp only [WillCall, hpc] at hc ⊢
        have hji : j ≠ i := by
          rintro rfl
          exact hj ⟨hactive, hc.2⟩
        exact ⟨by omega, hc.2⟩
      · simpa only [Clearing, hpc] using waits.kept
      · simp only [WillRead, hpc] at hread
  · next hend =>
    cases h
    refine .inr ((inv.resolve_left fun hc => ?_).processed hpc)
    simp only [WillCall, hpc] at hc
    omega

theorem clearSet_keeps (hpc : s.pc = .clearSet j handled) (h : hostStep l s = some t)
    (inv : WillCall i s ∨ Waits i s) : Waits i t := by
  have waits := inv.resolve_left (by simp [WillCall, hpc])
  have kept := waits.kept
  simp only [Clearing, hpc, not_and] at kept
  simp only [hostStep, hpc] at h
  split at h
  · cases h
    refine waits.moved ?_ ⟨rfl, rfl⟩ (fun hclear => kept (by have := hclear.1; omega) hclear.2) fun hread => ?_
    · dsimp only
      split
      · next hset =>
        refine Finset.mem_erase.mpr ⟨?_, waits.set⟩
        rintro rfl
        exact kept (Nat.le_refl i) hset.1
      · exact waits.set
    · simp only [WillRead, hpc] at hread
  · cases h
    refine waits.moved waits.set ⟨rfl, rfl⟩ id fun hread => ?_
    simp only [WillRead, hpc] at hread

/-- An access of the host that does not call the handler of `i`. -/
theorem hostStep_keeps (h : hostStep l s = some t) (hactive : i ∈ l.active) (henable : i ∈ l.enable)
    (hcall : calling l s ≠ some i) (inv : WillCall i s ∨ Waits i s) : WillCall i t ∨ Waits i t := by
  cases hpc : s.pc with
  | latch j bits => exact latch_keeps hpc h hactive (l.served i hactive).1 inv
  | getPending => exact getPending_keeps hpc h henable inv
  | process j pending handled => exact process_keeps hpc h hactive hcall inv
  | clearSet j handled => exact .inr (clearSet_keeps hpc h inv)
  | idle => simp [hostStep, hpc] at h
  | enable =>
    simp only [hostStep, hpc, Option.some.injEq] at h
    subst h
    rw [if_neg (Finset.ne_empty_of_mem henable)]
    have waits := inv.resolve_left (by simp [WillCall, hpc])
    exact .inr (waits.moved waits.set ⟨rfl, rfl⟩ id fun _ => Nat.zero_le i)
  | latchRaw bits =>
    simp only [hostStep, hpc, Option.some.injEq] at h
    subst h
    refine inv.imp (fun hbits => ?_) fun waits => waits.moved waits.set ⟨rfl, rfl⟩ id fun hread => ?_
    · simpa only [WillCall, hpc] using hbits
    · simp only [WillRead, hpc] at hread
  | latchWrite bits raw =>
    simp only [hostStep, hpc, Option.some.injEq] at h
    subst h
    refine inv.imp (fun hbits => ?_) fun waits => waits.moved waits.set ⟨rfl, rfl⟩ id fun hread => ?_
    · simp only [WillCall, hpc] at hbits
      exact Finset.mem_union_right raw hbits
    · simp only [WillRead, hpc] at hread
  | count j pending handled =>
    simp only [hostStep, hpc, Option.some.injEq] at h
    subst h
    refine inv.imp (fun hc => ?_) fun waits => waits.moved waits.set ⟨rfl, rfl⟩ ?_ fun hread => ?_
    · simpa only [WillCall, hpc] using hc
    · simpa only [Clearing, hpc] using waits.kept
    · simp only [WillRead, hpc] at hread
  | counted j cnt pending handled =>
    simp only [hostStep, hpc, Option.some.injEq] at h
    subst h
    refine inv.imp (fun hc => ?_) fun waits => waits.moved waits.set ⟨rfl, rfl⟩ ?_ fun hread => ?_
    · simp only [WillCall, hpc] at hc ⊢
      exact ⟨hc.1, hc.2⟩
    · simpa only [Clearing, hpc, Finset.mem_insert] using waits.kept
    · simp only [WillRead, hpc] at hread
  | clearRaw handled =>
    simp only [hostStep, hpc, Option.some.injEq] at h
    subst h
    have waits := inv.resolve_left (by simp [WillCall, hpc])
    refine .inr (waits.moved waits.set ⟨rfl, rfl⟩ ?_ fun hread => ?_)
    · simpa only [Clearing, hpc] using waits.kept
    · simp only [WillRead, hpc] at hread
  | clearWrite handled raw =>
    simp only [hostStep, hpc, Option.some.injEq] at h
    subst h
    have waits := inv.resolve_left (by simp [WillCall, hpc])
    refine .inr (waits.moved waits.set ⟨rfl, rfl⟩ ?_ fun hread => ?_)
    · simpa only [Clearing, hpc, Nat.zero_le, true_and] using waits.kept
    · simp only [WillRead, hpc] at hread

end Host

theorem step_inv {s t : State × List Event} {a : Label} (inv : Inv l s) (rule : Undisturbed s a)
    (h : logged l s a = some t) : Inv l t := by
  obtain ⟨t, log⟩ := t
  obtain ⟨hstep, rfl⟩ := (Machine.watched_eq_some (step l) (note l)).mp h
  intro i hactive henable howed
  have before := inv i hactive henable
  cases a with
  | payload j =>
    simp only [step, Option.some.injEq] at hstep
    subst hstep
    exact (before howed).imp id fun waits => ⟨waits.set, waits.kept, waits.seen⟩
  | set j =>
    simp only [step] at hstep
    split at hstep
    · cases hstep
      rcases owed_set.mp howed with rfl | howed
      · exact .inr ⟨Finset.mem_insert_self _ _, rule, .inl (Nat.succ_pos _)⟩
      · refine (before howed).imp id fun waits => ⟨?_, waits.kept, .inl (Nat.succ_pos _)⟩
        exact Finset.mem_insert_of_mem waits.set
    · cases hstep
  | raise =>
    simp only [step] at hstep
    split at hstep
    · cases hstep
      exact (before howed).imp id fun waits => ⟨waits.set, waits.kept, .inr (.inl (Nat.succ_pos _))⟩
    · cases hstep
  | irq n =>
    simp only [step] at hstep
    split at hstep
    · next hpc =>
      split at hstep
      · cases hstep
        have waits := (before howed).resolve_left (by simp [WillCall, hpc])
        exact .inr ⟨waits.set, id, .inr (.inr trivial)⟩
      · cases hstep
    · cases hstep
  | host =>
    simp only [note] at howed
    cases hcall : calling l s.1 with
    | none =>
      rw [hcall] at howed
      exact hostStep_keeps hstep hactive henable (by simp [hcall]) (before howed)
    | some j =>
      rw [hcall] at howed
      obtain ⟨hij, howed⟩ := owed_call howed
      exact hostStep_keeps hstep hactive henable (by simpa [hcall] using Ne.symm hij) (before howed)

/-- **Where no event is set between the call of its handler and the clear, no event is
lost**: when every MSI has been handled, a call of its handler follows every set. -/
theorem undisturbed_run_serves (l : Lines) (ls : List Label) {t : State} {log : List Event}
    (rule : Machine.Admissible (logged l) Undisturbed (initial, []) ls)
    (h : Machine.run (logged l) (initial, []) ls = some (t, log)) (handled : Handled t) :
    ∀ i ∈ l.active, i ∈ l.enable → ∀ as bs, log = as ++ .set i :: bs → .call i ∈ bs := by
  intro i hactive henable as bs hlog
  by_contra hcall
  have inv := Machine.invariant_of_admissible (logged l) (fun _ _ _ => step_inv) initial_inv rule h
  obtain ⟨hunraised, hmsi, hidle⟩ := handled
  split at hidle
  · next hpc =>
    have owed : WillCall i t ∨ Waits i t := inv i hactive henable ⟨as, bs, hlog, hcall⟩
    have seen := (owed.resolve_left (by simp [WillCall, hpc])).seen
    simp only [WillRead, hpc, or_false] at seen
    omega
  · exact hidle

/-- The four lines of `user_irq_vec_table_v3`. -/
def linesV3 : Lines := swIntrInit fun i => decide (i < 4)

/-- The endpoint signals an event. -/
def signal (i : Nat) : List Label := [.payload i, .set i, .raise]

/-- An event on line 0 and a run of the handler for it: up to its call, and the rest. -/
def serving : List Label × List Label :=
  (signal 0 ++ .irq 1 :: List.replicate 22 .host, List.replicate 37 .host)

set_option maxRecDepth 4000 in
/-- A second event comes when the first has been served, and is served as well. -/
theorem second_event_served :
    ∃ t log, Machine.run (logged linesV3) (initial, [])
        (serving.1 ++ serving.2 ++ serving.1 ++ serving.2) = some (t, log) ∧
      Handled t ∧ ∀ as bs, log = as ++ .set 0 :: bs → .call 0 ∈ bs :=
  ⟨_, _, rfl, ⟨rfl, rfl, trivial⟩,
    undisturbed_run_serves linesV3 (serving.1 ++ serving.2 ++ serving.1 ++ serving.2)
      (by decide) rfl ⟨rfl, rfl, trivial⟩ 0 (by decide) (by decide)⟩

set_option maxRecDepth 4000 in
/-- The second event comes while the counter of the first is being written. -/
theorem event_lost :
    ¬ ∀ l ls t log, Machine.run (logged l) (initial, []) ls = some (t, log) → Handled t →
      ∀ i ∈ l.active, i ∈ l.enable → ∀ as bs, log = as ++ .set i :: bs → .call i ∈ bs := by
  intro h
  have hcall := h linesV3
    (serving.1 ++ signal 0 ++ serving.2 ++ .irq 1 :: List.replicate 19 .host) _
    [.set 0, .call 0, .set 0] rfl ⟨rfl, rfl, trivial⟩ 0 (by decide) (by decide) [.set 0, .call 0] [] rfl
  cases hcall

end DxNpuDriver.Pcie.SwIrq
