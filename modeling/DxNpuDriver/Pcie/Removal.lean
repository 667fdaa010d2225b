import DxNpuDriver.Pcie.Transport

/-! Whether removal is final (`dw-edma-pcie.c`, `dx_sgdma.c`, `dx_link_health.c`).

The state machine of `enum dx_dev_state` leaves REMOVING only for the freed device, and
callers look for REMOVING before they touch what `dx_dma_pcie_remove` frees. But every
other writer of `dev_state` writes on the strength of a look it has taken earlier, or of
none: one that is past its look when `remove` begins, or that has none to take, puts the
device back to LIVE, RECOVERING or AER_RESET.

Whether a thread can do so is read off what it has still to do (`overwrites`).
`parting_run_final` says that nothing else undoes a removal. -/
namespace DxNpuDriver.Pcie

/-- The answers a thread gets while the device is being removed. -/
def seesRemoving : (o : Op) → o.Val → Bool
  | .readDev, v => decide (v = DevState.removing)
  | _, _ => true

/-- A write of `dev_state` that leaves REMOVING. -/
def Op.revives : Op → Bool
  | .setDev d _ => decide (d ≠ .removing)
  | _ => false

/-- The thread can write another `dev_state` although every look it takes finds REMOVING. -/
def Thread.overwrites (t : Thread) : Bool :=
  t.prog.may (A := access) seesRemoving (fun _ => false) Op.revives

/-- REMOVING stays. -/
def Final (s : State) (l : Label) : Prop :=
  s.words.devState = .removing → ∀ t, step s l = some t → t.words.devState = .removing

/-- The next access of the thread sets the mark. -/
def Thread.removes (t : Thread) : Bool :=
  match t.next with
  | some (.setDev .removing _) => true
  | _ => false

/-- `remove` begins only when no thread can overwrite its mark, and no call that does not
look for the mark starts afterwards. -/
def Parting (s : State) : Label → Prop
  | .go i _ => (s.threads[i]?.any Thread.removes) = true → ∀ t ∈ s.threads, t.overwrites = false
  | .start c => s.words.devState = .removing → Thread.overwrites ⟨c, c.code⟩ = false

instance (s : State) (l : Label) : Decidable (Parting s l) :=
  match l with
  | .go _ _ => inferInstanceAs (Decidable (_ → ∀ t ∈ _, _))
  | .start _ => inferInstanceAs (Decidable (_ → _))

/-! ### Steps -/

/-- While the device is being removed, that is what a thread sees. -/
theorem seesRemoving_of_exec {s : State} {answer : Bool} {o : Op} {v : o.Val} {w : Words}
    (h : exec s answer o = some (v, w)) (hdev : s.words.devState = .removing) :
    seesRemoving o v = true := by
  cases o with
  | readDev =>
    have := exec_readDev h
    simp [seesRemoving, this, hdev]
  | _ => rfl

/-- An access that does not revive the device leaves REMOVING. -/
theorem dev_of_not_revives {o : Op} {w : Words} (ho : o.revives = false)
    (hdev : w.devState = .removing) : o.dev w = .removing := by
  cases o with
  | setDev d site =>
    show d = .removing
    simpa [Op.revives] using ho
  | _ => exact hdev

/-- Under the mark nobody can overwrite it. -/
def Sealed (s : State) : Prop :=
  s.words.devState = .removing → ∀ t ∈ s.threads, t.overwrites = false

theorem step_sealed (s : State) (l : Label) (t : State) (inv : Sealed s) (rule : Parting s l)
    (h : step s l = some t) : Sealed t := by
  cases step_moved h with
  | start c w hw =>
    obtain ⟨hdev, -, -⟩ := startWords_words hw
    intro hrem
    have hrem : s.words.devState = .removing := hdev.symm.trans hrem
    exact List.forall_mem_append.mpr ⟨inv hrem, List.forall_mem_singleton.mpr (rule hrem)⟩
  | go i answer c o k v w hi hexec =>
    obtain ⟨hdev, -, -⟩ := exec_words hexec
    intro hrem
    have hrem : o.dev s.words = .removing := hdev.symm.trans hrem
    have hmem := List.mem_of_getElem? hi
    by_cases before : s.words.devState = .removing
    · have others := inv before
      have hnext := Prog.may_next (others _ hmem) rfl (seesRemoving_of_exec hexec before)
      exact Machine.forall_mem_set others (fun _ => id) hnext
    · -- the step that sets the mark
      have hset : ∃ site, o = .setDev .removing site := by
        cases o with
        | setDev d site =>
          cases hrem
          exact ⟨site, rfl⟩
        | _ => exact absurd hrem before
      obtain ⟨site, rfl⟩ := hset
      have others : ∀ u ∈ s.threads, u.overwrites = false := rule (by rw [hi]; rfl)
      exact Machine.forall_mem_set others (fun _ => id) (Prog.may_next (others _ hmem) rfl rfl)

theorem Sealed.final {s : State} {l : Label} (inv : Sealed s) : Final s l := by
  intro hrem t h
  cases step_moved h with
  | start c w hw =>
    obtain ⟨hdev, -, -⟩ := startWords_words hw
    exact hdev.trans hrem
  | go i answer c o k v w hi hexec =>
    obtain ⟨hdev, -, -⟩ := exec_words hexec
    have harmless := inv hrem _ (List.mem_of_getElem? hi)
    exact hdev.trans (dev_of_not_revives (Prog.target_of_may_eq_false harmless) hrem)

/-! ### Runs -/

/-- **Removal is final.** In every run of workers, callbacks and DMA resets, any number of
each, in which `remove` begins only when no other thread can overwrite its mark and no call
that would ignore the mark starts after it, every step from REMOVING leads to REMOVING. -/
theorem parting_run_final {enabled : Bool} {ls : List Label}
    (rule : Machine.Admissible step Parting (initial enabled) ls) :
    Machine.Admissible step Final (initial enabled) ls :=
  Machine.Admissible.imp step step_sealed (fun _ _ inv _ => inv.final) (by rintro ⟨⟩) rule

/-- A DMA reset up to its write of RECOVERING. -/
def resetBegins : List Label := .start .resetDmaChannels :: List.replicate 10 (.go 0 false)

/-- The reset ends before `remove` begins; a second reset finds the mark. -/
def partingRun : List Label :=
  resetBegins ++ List.replicate 4 (.go 0 false) ++ .start .remove :: List.replicate 4 (.go 1 false) ++
    [.start .resetDmaChannels, .go 2 false]

theorem final_partingRun :
    Machine.Admissible step Final (initial true) partingRun ∧
      (Machine.run step (initial true) partingRun).map (·.words.devState) = some .removing :=
  ⟨parting_run_final (by decide), by decide⟩

/-- `remove` begins under a DMA reset that has taken its looks: the reset ends with LIVE. -/
theorem removal_undone :
    ¬ ∀ enabled ls, Machine.Admissible step Final (initial enabled) ls := by
  intro h
  have final := (h true (resetBegins ++ [.start .remove, .go 1 false] ++ [.go 0 false])).middle
    step (resetBegins ++ [.start .remove, .go 1 false]) rfl
  have := final rfl _ rfl
  revert this
  decide

end DxNpuDriver.Pcie
