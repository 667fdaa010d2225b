import DxNpuDriver.Pcie.Transport

/-! `dev_state` against `link_state` (`dx_link_health.c`, `dw-edma-pcie.c`, `dx_sgdma.c`).

At rest a LIVE device should have a link that is not DOWN, and a device in AER_RESET that
nobody pauses should have a link that is DOWN, since a link that comes back is what makes
the health worker schedule a recovery. Neither word is written under a look at the other.
The end of a DMA reset writes LIVE over a link that has gone down since its check; a
reinit that fails writes DOWN under a device that somebody has made LIVE; and
`dx_pcie_reset_done` starts the health monitor with link UP also when its reinit has
failed, which leaves the device in AER_RESET for good.

`heeded_run_sound` says which writes have to find the other word right. What a thread
still owes is read off the accesses it has left: one that is on its way to LIVE
(`onWay`), one that will settle AER_RESET (`settles`), one that will raise the link
(`raises`), one that will lift the pause (`lifts`). -/
namespace DxNpuDriver.Pcie
open Rt.Readiness (ResetRet)

/-- No call is in the middle of its accesses. -/
def Quiescent (s : State) : Prop := ∀ t ∈ s.threads, t.prog.done = true

/-- What holds at rest. -/
def Sound (s : State) : Prop :=
  Quiescent s →
    (s.words.devState = .live → s.words.linkState ≠ .down) ∧
    (s.words.linkHealthEnabled = true → s.words.backgroundRecoveryPaused = false →
      s.words.devState = .aerReset → s.words.recoveryQueued = false → s.words.linkState = .down)

/-! ### What a thread still owes -/

def Op.touchesLink : Op → Bool
  | .readLink | .setLink _ _ => true
  | _ => false

/-- LIVE as the end of a DMA reset or of a reinit. -/
def Op.goesLive : Op → Bool
  | .setDev .live .resetDmaChannels | .setDev .live .fullReinit => true
  | _ => false

/-- The thread may write LIVE without a further look at the link. -/
def onWay (p : Code ResetRet) : Bool :=
  p.may (A := access) (fun _ _ => true) Op.touchesLink Op.goesLive

def Op.settles : Op → Bool
  | .setDev .live _ | .setLink .down _ => true
  | _ => false

/-- The thread will leave AER_RESET or mark the link DOWN. -/
def settles (p : Code ResetRet) : Bool := p.must (A := access) Op.settles

def Op.raises : Op → Bool
  | .setLink l _ => decide (l ≠ .down)
  | _ => false

/-- The thread will write a link that is not DOWN. -/
def raises (p : Code ResetRet) : Bool := p.must (A := access) Op.raises

/-- The answers a thread gets in AER_RESET. -/
def seesReset : (o : Op) → o.Val → Bool
  | .readDev, v => decide (v = DevState.aerReset)
  | _, _ => true

def Op.lifts : Op → Bool
  | .setPaused b => !b
  | _ => false

/-- In AER_RESET the thread may lift the pause without settling it first. -/
def lifts (p : Code ResetRet) : Bool := p.may (A := access) seesReset Op.settles Op.lifts

/-- The accesses that only callbacks make. -/
def Op.pauses : Op → Bool
  | .setPaused _ | .setDev .aerReset .quiesceChannels => true
  | _ => false

def pauses (p : Code ResetRet) : Bool :=
  p.may (A := access) (fun _ _ => true) (fun _ => false) Op.pauses

/-- The next access is the one of `dx_dma_quiesce_channels`, which does not touch the
link. -/
def atChannels (p : Code ResetRet) : Bool := p.head == some (Op.setDev .aerReset .quiesceChannels)

/-- What follows an access, in every one of the programs: after a look at a link that is
DOWN, or a write of DOWN, nobody goes LIVE without a new look; what `error_resume` leaves
LIVE gets its link raised; AER_RESET and each step of a reinit get settled, except by
`dx_dma_quiesce_channels`, which comes after a pause and does not lift it. -/
def fits (o : Op) (v : o.Val) (k : Code ResetRet) : Bool :=
  (match o, v with
    | .readLink, v => decide (v ≠ LinkState.down) || !onWay k
    | .setLink .down _, _ => !onWay k
    | .setLink _ .fullReinit, _ => settles k
    | .setLink .up .healthStart, _ => true
    | .setLink .degraded .healthWork, _ => true
    | .setLink _ _, _ => false
    | .setDev .live .errorResume, _ => raises k
    | .setDev .live .resetDmaChannels, _ => true
    | .setDev .live .fullReinit, _ => true
    | .setDev .live _, _ => false
    | .setDev .aerReset .quiesceForLinkDown, _ => settles k
    | .setDev .aerReset .quiesceChannels, _ => !lifts k
    | .setDev .aerReset _, _ => false
    | _, _ => true) &&
  (!atChannels k || o == .setPaused true)

/-- The PCI core calls the driver back. -/
def Call.isCallback : Call → Bool
  | .remove | .suspend | .resume | .errorDetected _ | .errorSlotReset | .errorResume
  | .resetPrepare | .resetDone => true
  | .healthWork | .recoveryWork | .healthSetEnabled _ | .resetDmaChannels => false

/-- What the programs have in common before their first access. -/
structure Fresh (c : Call) : Prop where
  fits : c.code.every (A := access) fits = true
  onWay : onWay c.code = false
  lifts : lifts c.code = false
  channels : atChannels c.code = false
  pauses : c.isCallback = false → pauses c.code = false

theorem Call.fresh (c : Call) : Fresh c := by
  cases c with
  | healthSetEnabled b => cases b <;> exact ⟨by decide, by decide, by decide, by decide, by decide⟩
  | errorDetected b => cases b <;> exact ⟨by decide, by decide, by decide, by decide, by decide⟩
  | _ => exact ⟨by decide, by decide, by decide, by decide, by decide⟩

/-! ### The rule -/

/-- The write finds the other word right: DOWN is written only while the device is not
LIVE and nobody is on the way to LIVE; the UP of `dx_link_health_start` and the DEGRADED
of the health worker are not written over AER_RESET. -/
def Op.heeds (s : State) : Op → Prop
  | .setLink .down _ => s.words.devState ≠ .live ∧ ∀ t ∈ s.threads, onWay t.prog = false
  | .setLink .up .healthStart | .setLink .degraded .healthWork => s.words.devState ≠ .aerReset
  | _ => True

instance (s : State) (o : Op) : Decidable (o.heeds s) := by
  unfold Op.heeds
  split <;> infer_instance

/-- Every write heeds the other word, and a callback starts when no other is running. -/
def Heeded (s : State) : Label → Prop
  | .go i _ => ∀ o ∈ s.threads[i]?.bind Thread.next, o.heeds s
  | .start c => c.isCallback = true →
      ∀ t ∈ s.threads, t.call.isCallback = true → t.prog.done = true

instance (s : State) (l : Label) : Decidable (Heeded s l) :=
  match l with
  | .go _ _ => inferInstanceAs (Decidable (∀ o ∈ _, _))
  | .start _ => inferInstanceAs (Decidable (_ → ∀ t ∈ _, _))

/-! ### What the heeded steps keep -/

/-- A callback that is running. -/
def Thread.calledBack (t : Thread) : Bool := t.call.isCallback && !t.prog.done

/-- At most one callback is running. -/
def Solo (s : State) : Prop := s.threads.countP Thread.calledBack ≤ 1

/-- AER_RESET is marked by a link that is DOWN, or will be settled. -/
def Marked (s : State) : Prop :=
  s.words.devState = .aerReset → s.words.linkState = .down ∨ ∃ t ∈ s.threads, settles t.prog = true

structure Steady (s : State) : Prop where
  fits : ∀ t ∈ s.threads, t.prog.every (A := access) fits = true
  pauses : ∀ t ∈ s.threads, t.call.isCallback = false → pauses t.prog = false
  solo : Solo s
  onWay : ∀ t ∈ s.threads, onWay t.prog = true → s.words.linkState ≠ .down
  live : s.words.devState = .live →
    s.words.linkState ≠ .down ∨ ∃ t ∈ s.threads, raises t.prog = true
  channels : ∀ t ∈ s.threads, atChannels t.prog = true → s.words.backgroundRecoveryPaused = true
  reset : Marked s ∨
    (s.words.backgroundRecoveryPaused = true ∧ ∀ t ∈ s.threads, lifts t.prog = false)

theorem initial_steady (enabled : Bool) : Steady (initial enabled) where
  fits := by rintro _ ⟨⟩
  pauses := by rintro _ ⟨⟩
  solo := Nat.zero_le 1
  onWay := by rintro _ ⟨⟩
  live _ := .inl (by rintro ⟨⟩)
  channels := by rintro _ ⟨⟩
  reset := .inl (by rintro ⟨⟩)

theorem Steady.sound {s : State} (inv : Steady s) : Sound s := by
  intro quiet
  have none_owes : ∀ {target : Op → Bool},
      ¬ ∃ t ∈ s.threads, t.prog.must (A := access) target = true := by
    rintro target ⟨t, ht, howes⟩
    have := Prog.not_done_of_must howes
    simp [quiet t ht] at this
  refine ⟨fun hlive => ?_, fun _ hpaused hreset _ => ?_⟩
  · exact (inv.live hlive).resolve_right none_owes
  · rcases inv.reset with marked | ⟨hp, -⟩
    · exact (marked hreset).resolve_right none_owes
    · simp [hpaused] at hp

/-! ### Steps -/

theorem start_steady {s : State} {c : Call} {w : Words} (inv : Steady s)
    (rule : Heeded s (.start c)) (hw : startWords s c = some w) :
    Steady ⟨w, s.threads ++ [⟨c, c.code⟩]⟩ := by
  obtain ⟨hdev, hlink, hpaused⟩ := startWords_words hw
  have fresh := c.fresh
  have more : ∀ {p : Thread → Prop}, (∃ t ∈ s.threads, p t) → ∃ t ∈ s.threads ++ [⟨c, c.code⟩], p t :=
    fun ⟨t, ht, hp⟩ => ⟨t, List.mem_append_left _ ht, hp⟩
  refine ⟨?_, ?_, ?_, ?_, ?_, ?_, ?_⟩
  · exact List.forall_mem_append.mpr ⟨inv.fits, List.forall_mem_singleton.mpr fresh.fits⟩
  · exact List.forall_mem_append.mpr ⟨inv.pauses, List.forall_mem_singleton.mpr fresh.pauses⟩
  · have := inv.solo
    simp only [Solo, List.countP_append, List.countP_singleton] at this ⊢
    by_cases hcall : c.isCallback = true
    · have none_runs : s.threads.countP Thread.calledBack = 0 := by
        refine List.countP_eq_zero.mpr fun t ht hback => ?_
        simp only [Thread.calledBack, Bool.and_eq_true, Bool.not_eq_true'] at hback
        have := rule hcall t ht hback.1
        simp [this] at hback
      split <;> omega
    · simp [Thread.calledBack, hcall]
      omega
  · rw [hlink]
    refine List.forall_mem_append.mpr ⟨inv.onWay, List.forall_mem_singleton.mpr fun h => ?_⟩
    simp [fresh.onWay] at h
  · rw [hdev, hlink]
    exact fun hlive => (inv.live hlive).imp_right more
  · rw [hpaused]
    refine List.forall_mem_append.mpr ⟨inv.channels, List.forall_mem_singleton.mpr fun h => ?_⟩
    simp [fresh.channels] at h
  · unfold Marked
    rw [hdev, hlink, hpaused]
    refine inv.reset.imp (fun marked h => (marked h).imp_right more) fun ⟨hp, hl⟩ => ?_
    exact ⟨hp, List.forall_mem_append.mpr ⟨hl, List.forall_mem_singleton.mpr fresh.lifts⟩⟩

/-! What fits, access by access. -/

section Fits
attribute [local simp] fits
variable {k : Code ResetRet} {site : Site} {l : LinkState}

theorem onWay_of_down (h : fits (.setLink .down site) () k = true) : onWay k = false := by
  simp only [fits, Bool.and_eq_true, Bool.not_eq_true'] at h
  exact h.1

theorem onWay_of_readLink (h : fits .readLink .down k = true) : onWay k = false := by
  simp only [fits, Bool.and_eq_true] at h
  simpa using h.1

/-- A write of a link that is not DOWN is a step of a reinit, or one the rule looks at. -/
theorem settles_of_setLink (h : fits (.setLink l site) () k = true) (hl : l ≠ .down) :
    settles k = true ∨ (l = .up ∧ site = .healthStart) ∨ (l = .degraded ∧ site = .healthWork) := by
  cases l <;> cases site <;> simp_all [fits]

theorem live_cases (h : fits (.setDev .live site) () k = true) :
    raises k = true ∨ site = .resetDmaChannels ∨ site = .fullReinit := by
  cases site <;> simp_all [fits]

theorem reset_cases (h : fits (.setDev .aerReset site) () k = true) :
    settles k = true ∨ site = .quiesceChannels := by
  cases site <;> simp_all [fits]

theorem lifts_of_channels (h : fits (.setDev .aerReset .quiesceChannels) () k = true) :
    lifts k = false := by
  simp only [fits, Bool.and_eq_true, Bool.not_eq_true'] at h
  exact h.1

theorem setPaused_of_atChannels {o : Op} {v : o.Val} (h : fits o v k = true)
    (hk : atChannels k = true) : o = .setPaused true := by
  simp only [fits, hk, Bool.not_true, Bool.false_or, Bool.and_eq_true, beq_iff_eq] at h
  exact h.2

end Fits

/-! Who goes on. -/

section Go
variable {s : State} {i : Nat} {answer : Bool} {c : Call} {o : Op} {k : o.Val → Code ResetRet}
  {v : o.Val} {w : Words}

theorem Heeded.heeds (rule : Heeded s (.go i answer))
    (hi : s.threads[i]? = some ⟨c, .op (A := access) o k⟩) : o.heeds s :=
  rule o (by simp [hi, Thread.next, Prog.head])

/-- Who goes LIVE has seen a link that is not DOWN, and no DOWN since. -/
theorem go_onWay (inv : Steady s) (heeds : o.heeds s)
    (hi : s.threads[i]? = some ⟨c, .op (A := access) o k⟩) (hexec : exec s answer o = some (v, w)) :
    ∀ t ∈ s.threads.set i ⟨c, k v⟩, onWay t.prog = true → w.linkState ≠ .down := by
  obtain ⟨-, hlink, -⟩ := exec_words hexec
  have hmem := List.mem_of_getElem? hi
  obtain ⟨hfits, -⟩ := Prog.every_next (inv.fits _ hmem) v
  rw [hlink]
  cases o with
  | setLink l site =>
    by_cases hl : l = .down
    · subst hl
      have none : ∀ t ∈ s.threads.set i ⟨c, k v⟩, onWay t.prog = false :=
        Machine.forall_mem_set heeds.2 (fun _ => id) (onWay_of_down hfits)
      intro t ht h
      simp [none t ht] at h
    · exact fun _ _ _ => hl
  | readLink =>
    have hv := exec_readLink hexec
    refine Machine.forall_mem_set inv.onWay (fun _ => id) fun h hdown => ?_
    have hdown : s.words.linkState = .down := hdown
    rw [hv, hdown] at hfits h
    simp [onWay_of_readLink hfits] at h
  | _ =>
    refine Machine.forall_mem_set inv.onWay (fun _ => id) fun h => inv.onWay _ hmem ?_
    by_contra hnot
    have := Prog.may_next (Bool.eq_false_iff.mpr hnot) rfl (v := v) rfl
    exact absurd h (Bool.eq_false_iff.mp this)

theorem go_live (inv : Steady s) (heeds : o.heeds s)
    (hi : s.threads[i]? = some ⟨c, .op (A := access) o k⟩) (hexec : exec s answer o = some (v, w))
    (hlive : w.devState = .live) :
    w.linkState ≠ .down ∨ ∃ t ∈ s.threads.set i ⟨c, k v⟩, raises t.prog = true := by
  obtain ⟨hdev, hlink, -⟩ := exec_words hexec
  have hmem := List.mem_of_getElem? hi
  obtain ⟨hfits, -⟩ := Prog.every_next (inv.fits _ hmem) v
  obtain ⟨hlt, -⟩ := List.getElem?_eq_some_iff.mp hi
  have hself : ∀ {p : Thread → Prop}, p ⟨c, k v⟩ → ∃ t ∈ s.threads.set i ⟨c, k v⟩, p t :=
    fun hp => ⟨_, List.mem_set hlt _, hp⟩
  rw [hdev] at hlive
  rw [hlink]
  cases o with
  | setLink l site =>
    by_cases hl : l = .down
    · subst hl
      exact absurd hlive heeds.1
    · exact .inl hl
  | setDev d site =>
    cases hlive
    rcases live_cases hfits with hraises | rfl | rfl
    · exact .inr (hself hraises)
    · exact .inl (inv.onWay _ hmem rfl)
    · exact .inl (inv.onWay _ hmem rfl)
  | _ =>
    refine (inv.live hlive).imp_right fun howes => Machine.exists_mem_set hi howes fun h => ?_
    exact Prog.must_next h rfl v

/-- Only a running callback pauses or lifts the pause. -/
theorem calledBack_of_pauses (inv : Steady s) {t : Thread} (ht : t ∈ s.threads)
    (hp : pauses t.prog = true) : t.calledBack = true := by
  simp only [Thread.calledBack, Bool.and_eq_true, Bool.not_eq_true']
  constructor
  · by_contra hcall
    have := inv.pauses t ht (Bool.eq_false_iff.mpr hcall)
    simp [this] at hp
  · cases hprog : t.prog with
    | ret r =>
      rw [hprog] at hp
      cases hp
    | op o k => rfl

theorem pauses_of_lifts {p : Code ResetRet} (h : lifts p = true) : pauses p = true := by
  induction p with
  | ret r => cases h
  | op o k ih =>
    simp only [lifts, Prog.may, Bool.or_eq_true, Bool.and_eq_true, List.any_eq_true] at h
    simp only [pauses, Prog.may, Bool.or_eq_true, Bool.and_eq_true, List.any_eq_true]
    rcases h with h | ⟨-, v, hv, -, h⟩
    · left
      cases o with
      | setPaused b => rfl
      | _ => cases h
    · exact .inr ⟨rfl, v, hv, trivial, ih v h⟩

/-- Marked is kept where the access is none of those that leave AER_RESET unmarked. -/
theorem go_marked (inv : Steady s) (heeds : o.heeds s)
    (hi : s.threads[i]? = some ⟨c, .op (A := access) o k⟩) (hexec : exec s answer o = some (v, w))
    (ho : o ≠ .setDev .aerReset .quiesceChannels) (marked : Marked s) :
    Marked ⟨w, s.threads.set i ⟨c, k v⟩⟩ := by
  obtain ⟨hdev, hlink, -⟩ := exec_words hexec
  have hmem := List.mem_of_getElem? hi
  obtain ⟨hfits, -⟩ := Prog.every_next (inv.fits _ hmem) v
  obtain ⟨hlt, -⟩ := List.getElem?_eq_some_iff.mp hi
  have hself : ∀ {p : Thread → Prop}, p ⟨c, k v⟩ → ∃ t ∈ s.threads.set i ⟨c, k v⟩, p t :=
    fun hp => ⟨_, List.mem_set hlt _, hp⟩
  unfold Marked
  rw [hdev, hlink]
  intro hreset
  cases o with
  | setDev d site =>
    cases hreset
    rcases reset_cases hfits with hsettles | rfl
    · exact .inr (hself hsettles)
    · exact absurd rfl ho
  | setLink l site =>
    by_cases hl : l = .down
    · exact .inl hl
    · rcases settles_of_setLink hfits hl with hsettles | ⟨rfl, rfl⟩ | ⟨rfl, rfl⟩
      · exact .inr (hself hsettles)
      · exact absurd hreset heeds
      · exact absurd hreset heeds
  | _ =>
    refine (marked hreset).imp_right fun howes => Machine.exists_mem_set hi howes fun h => ?_
    exact Prog.must_next h rfl v

/-- What settles AER_RESET leaves it marked. -/
theorem marked_of_settles (hi : s.threads[i]? = some ⟨c, .op (A := access) o k⟩)
    (hexec : exec s answer o = some (v, w)) (ho : o.settles = true) :
    Marked ⟨w, s.threads.set i ⟨c, k v⟩⟩ := by
  obtain ⟨hdev, hlink, -⟩ := exec_words hexec
  unfold Marked
  rw [hdev, hlink]
  intro hreset
  cases o with
  | setDev d site =>
    cases hreset
    cases ho
  | setLink l site =>
    cases l with
    | down => exact .inl rfl
    | _ => cases ho
  | _ => cases ho

/-- A thread that comes to lift the pause has settled AER_RESET, or has not seen it. -/
theorem go_lifts (hi : s.threads[i]? = some ⟨c, .op (A := access) o k⟩)
    (hexec : exec s answer o = some (v, w))
    (hpaused : s.words.backgroundRecoveryPaused = true)
    (none : ∀ t ∈ s.threads, lifts t.prog = false) :
    Marked ⟨w, s.threads.set i ⟨c, k v⟩⟩ ∨
      (w.backgroundRecoveryPaused = true ∧ ∀ t ∈ s.threads.set i ⟨c, k v⟩, lifts t.prog = false) := by
  obtain ⟨hdev, hlink, hp⟩ := exec_words hexec
  have hmem := List.mem_of_getElem? hi
  have hnone := none _ hmem
  by_cases hsettles : o.settles = true
  · exact .inl (marked_of_settles hi hexec hsettles)
  by_cases hseen : seesReset o v = true
  · refine .inr ⟨?_, ?_⟩
    · -- lifting the pause is what the thread does not do
      rw [hp]
      cases o with
      | setPaused b =>
        have := Prog.target_of_may_eq_false hnone
        show b = true
        simpa [Op.lifts] using this
      | _ => exact hpaused
    · exact Machine.forall_mem_set none (fun _ => id)
        (Prog.may_next hnone (Bool.eq_false_iff.mpr hsettles) hseen)
  · left
    intro hreset
    have hreset : o.dev s.words = .aerReset := hdev.symm.trans hreset
    cases o with
    | readDev =>
      have hv := exec_readDev hexec
      simp only [seesReset, hv, decide_eq_true_eq] at hseen
      exact absurd hreset hseen
    | _ => exact absurd rfl hseen

/-- `dx_dma_quiesce_channels` leaves AER_RESET unmarked under a pause that no other
callback is there to lift. -/
theorem channels_reset (inv : Steady s)
    (hi : s.threads[i]? = some ⟨c, .op (A := access) o k⟩) (hexec : exec s answer o = some (v, w))
    (ho : o = .setDev .aerReset .quiesceChannels) :
    w.backgroundRecoveryPaused = true ∧ ∀ t ∈ s.threads.set i ⟨c, k v⟩, lifts t.prog = false := by
  subst ho
  obtain ⟨-, -, hp⟩ := exec_words hexec
  have hmem := List.mem_of_getElem? hi
  obtain ⟨hfits, -⟩ := Prog.every_next (inv.fits _ hmem) v
  refine ⟨hp.trans (inv.channels _ hmem rfl), fun t ht => ?_⟩
  obtain ⟨j, hj⟩ := List.getElem?_of_mem ht
  by_cases hij : i = j
  · subst hij
    obtain ⟨hlt, -⟩ := List.getElem?_eq_some_iff.mp hi
    rw [List.getElem?_set_self hlt] at hj
    cases hj
    exact lifts_of_channels hfits
  · rw [List.getElem?_set_ne hij] at hj
    by_contra hlifts
    have hlifts : lifts t.prog = true := by simpa using hlifts
    have back := calledBack_of_pauses inv (List.mem_of_getElem? hj) (pauses_of_lifts hlifts)
    have self := calledBack_of_pauses inv hmem (by rfl)
    exact hij (Machine.eq_of_countP_le_one inv.solo hi hj self back)

theorem go_channels (inv : Steady s)
    (hi : s.threads[i]? = some ⟨c, .op (A := access) o k⟩) (hexec : exec s answer o = some (v, w)) :
    ∀ t ∈ s.threads.set i ⟨c, k v⟩, atChannels t.prog = true →
      w.backgroundRecoveryPaused = true := by
  obtain ⟨-, -, hp⟩ := exec_words hexec
  have hmem := List.mem_of_getElem? hi
  obtain ⟨hfits, -⟩ := Prog.every_next (inv.fits _ hmem) v
  rw [hp]
  intro t ht hat
  obtain ⟨j, hj⟩ := List.getElem?_of_mem ht
  by_cases hij : i = j
  · subst hij
    obtain ⟨hlt, -⟩ := List.getElem?_eq_some_iff.mp hi
    rw [List.getElem?_set_self hlt] at hj
    cases hj
    rw [setPaused_of_atChannels hfits hat]
    rfl
  · rw [List.getElem?_set_ne hij] at hj
    have before := inv.channels t (List.mem_of_getElem? hj) hat
    cases o with
    | setPaused b =>
      -- the other thread would be a second callback
      have self := calledBack_of_pauses inv hmem (by rfl)
      have back : t.calledBack = true := by
        refine calledBack_of_pauses inv (List.mem_of_getElem? hj) ?_
        obtain ⟨call, prog⟩ := t
        cases prog with
        | ret r => cases hat
        | op o' k' =>
          simp only [atChannels, Prog.head, beq_iff_eq, Option.some.injEq] at hat
          subst hat
          rfl
      exact absurd (Machine.eq_of_countP_le_one inv.solo hi hj self back) hij
    | _ => exact before

theorem go_steady (inv : Steady s) (heeds : o.heeds s)
    (hi : s.threads[i]? = some ⟨c, .op (A := access) o k⟩) (hexec : exec s answer o = some (v, w)) :
    Steady ⟨w, s.threads.set i ⟨c, k v⟩⟩ := by
  have hmem := List.mem_of_getElem? hi
  refine ⟨?_, ?_, ?_, go_onWay inv heeds hi hexec, go_live inv heeds hi hexec,
    go_channels inv hi hexec, ?_⟩
  · exact Machine.forall_mem_set inv.fits (fun _ => id) (Prog.every_next (inv.fits _ hmem) v).2
  · exact Machine.forall_mem_set inv.pauses (fun _ => id) fun hcall =>
      Prog.may_next (inv.pauses _ hmem hcall) rfl rfl
  · have moved := Machine.countP_move (p := Thread.calledBack) (y := ⟨c, k v⟩) hi
    have := inv.solo
    have less : Thread.calledBack ⟨c, k v⟩ = true →
        Thread.calledBack ⟨c, .op (A := access) o k⟩ = true := by
      intro h
      simp only [Thread.calledBack, Bool.and_eq_true] at h ⊢
      exact ⟨h.1, rfl⟩
    simp only [Solo] at this ⊢
    split at moved <;> split at moved <;> first | omega | (exfalso; simp_all)
  · by_cases ho : o = .setDev .aerReset .quiesceChannels
    · exact .inr (channels_reset inv hi hexec ho)
    · rcases inv.reset with marked | ⟨hpaused, none⟩
      · exact .inl (go_marked inv heeds hi hexec ho marked)
      · exact go_lifts hi hexec hpaused none

end Go

theorem step_steady (s : State) (l : Label) (t : State) (inv : Steady s) (rule : Heeded s l)
    (h : step s l = some t) : Steady t := by
  cases step_moved h with
  | start c w hw => exact start_steady inv rule hw
  | go i answer c o k v w hi hexec => exact go_steady inv (Heeded.heeds rule hi) hi hexec

/-! ### Runs -/

/-- **The two words agree at rest.** In every run of the health worker, the recovery worker,
the callbacks and the DMA reset in which each of the writes of `Op.heeds` finds the other
word right and callbacks do not overlap, a LIVE device at rest has a link that is not DOWN,
and one in AER_RESET that nobody pauses has a link that is DOWN. -/
theorem heeded_run_sound {enabled : Bool} {ls : List Label} {s : State}
    (rule : Machine.Admissible step Heeded (initial enabled) ls)
    (h : Machine.run step (initial enabled) ls = some s) : Sound s :=
  (Machine.invariant_of_admissible step step_steady (initial_steady enabled) rule h).sound

/-- Call `i` starts and makes `n` accesses, with one answer to all it asks. -/
def calls (i : Nat) (c : Call) (n : Nat) (answer : Bool) : List Label :=
  .start c :: List.replicate n (.go i answer)

/-- The health worker finds the link down and later up, and the recovery worker brings the
device back; then a DMA reset and a function reset. -/
def flapRun : List Label :=
  calls 0 .healthWork 13 true ++ calls 1 .healthWork 13 false ++ calls 2 .recoveryWork 18 false ++
    calls 3 .resetDmaChannels 14 false ++ calls 4 .resetPrepare 5 false ++ calls 5 .resetDone 12 false

/-- The words, and whether every call has returned. -/
def State.view (s : State) : Words × Bool := (s.words, s.threads.all fun t => t.prog.done)

theorem quiescent_of_view {s : State} {w : Words} (h : s.view = (w, true)) :
    s.words = w ∧ Quiescent s := by
  simp only [State.view, Prod.mk.injEq, List.all_eq_true] at h
  exact h

theorem sound_flapRun :
    ∃ s, Machine.run step (initial true) flapRun = some s ∧
      s.view = (⟨.live, .up, false, true, true, false, false⟩, true) ∧ Sound s := by
  have heeded : Machine.Admissible step Heeded (initial true) flapRun := by decide
  have hrun : (Machine.run step (initial true) flapRun).map State.view =
      some (⟨.live, .up, false, true, true, false, false⟩, true) := by decide
  obtain ⟨s, hs, hview⟩ := Option.map_eq_some_iff.mp hrun
  exact ⟨s, hs, hview, heeded_run_sound heeded hs⟩

/-- A function reset whose reinit fails: the device stays in AER_RESET with link UP. -/
def failedReset : List Label := calls 0 .resetPrepare 5 false ++ calls 1 .resetDone 8 true

theorem stuck_after_failedReset :
    ¬ ∀ enabled ls s, Machine.run step (initial enabled) ls = some s → Sound s := by
  intro h
  have hrun : (Machine.run step (initial true) failedReset).map State.view =
      some (⟨.aerReset, .up, false, true, true, false, false⟩, true) := by decide
  obtain ⟨s, hs, hview⟩ := Option.map_eq_some_iff.mp hrun
  obtain ⟨hwords, quiet⟩ := quiescent_of_view hview
  obtain ⟨-, hdown⟩ := h true failedReset s hs quiet
  rw [hwords] at hdown
  cases hdown rfl rfl rfl rfl

/-- A DMA reset that the health worker overtakes: the device is LIVE on a link that is
DOWN. -/
theorem live_on_dead_link :
    (Machine.run step (initial true)
      (calls 0 .resetDmaChannels 10 false ++ calls 1 .healthWork 13 true ++
        List.replicate 4 (.go 0 false))).map State.view =
      some (⟨.live, .down, false, true, true, false, false⟩, true) := by decide

end DxNpuDriver.Pcie
