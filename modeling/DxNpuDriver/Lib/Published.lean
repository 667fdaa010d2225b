import DxNpuDriver.Lib.Machine

/-! A pointer published to readers that come and go, with a word beside it.

A writer stores the word and then the pointer. To take them back it clears the pointer,
waits for the readers that are inside at that moment (a grace period) and only then clears
the word. A reader enters, loads the pointer and, if it is there, the word, uses the word
and leaves. Nothing else orders the two sides.

`Guarded` is the rule: a reader that has found the pointer is one that the writer
still has to wait for, and the word that it uses is the word that was published. -/
namespace DxNpuDriver.Published

/-- Where a reader stands; `holding` has the word that it has loaded. -/
inductive Reader (ρ : Type*) where
  | outside
  | entered
  | loaded (there : Bool)
  | holding (word : Option ρ)
  deriving DecidableEq

/-- Where the writer stands; `waiting` has the readers that the grace period still lacks. -/
inductive Writer where
  | idle
  | stored
  | published
  | retracted
  | waiting (readers : List Nat)
  | waited
  deriving DecidableEq

structure Cell (ρ : Type*) where
  pointer : Bool
  word : Option ρ
  readers : List (Reader ρ)
  writer : Writer
  deriving DecidableEq

variable {ρ : Type*}

def Reader.inside : Reader ρ → Bool
  | .outside => false
  | .entered | .loaded _ | .holding _ => true

/-- The reader has found the pointer. -/
def Reader.found : Reader ρ → Bool
  | .loaded true | .holding _ => true
  | .outside | .entered | .loaded false => false

/-- What the writer does, apart from the word that it stores. -/
inductive Act where
  | store | publish | retract | sync | synced | clear
  deriving DecidableEq

inductive Label where
  | come
  | enter (i : Nat)
  | load (i : Nat)
  | fetch (i : Nat)
  | leave (i : Nat)
  deriving DecidableEq

def initial : Cell ρ := ⟨false, none, [], .idle⟩

/-- The readers inside. -/
def Cell.insiders (c : Cell ρ) : List Nat :=
  (List.range c.readers.length).filter fun i => c.readers[i]?.any Reader.inside

/-- The writer's accesses, each where its program has it. -/
def Cell.write (w : ρ) (c : Cell ρ) : Act → Option (Cell ρ)
  | .store => if c.writer = .idle then some {c with word := some w, writer := .stored} else none
  | .publish =>
    if c.writer = .stored then some {c with pointer := true, writer := .published} else none
  | .retract =>
    if c.writer = .published then some {c with pointer := false, writer := .retracted} else none
  | .sync => if c.writer = .retracted then some {c with writer := .waiting c.insiders} else none
  | .synced => if c.writer = .waiting [] then some {c with writer := .waited} else none
  | .clear => if c.writer = .waited then some {c with word := none, writer := .idle} else none

/-- A grace period no longer waits for a reader that has left. -/
def Writer.without (i : Nat) : Writer → Writer
  | .waiting readers => .waiting (readers.filter (· ≠ i))
  | w => w

/-- The readers' accesses. -/
def Cell.read (c : Cell ρ) : Label → Option (Cell ρ)
  | .come => some {c with readers := c.readers ++ [.outside]}
  | .enter i =>
    match c.readers[i]? with
    | some .outside => some {c with readers := c.readers.set i .entered}
    | _ => none
  | .load i =>
    match c.readers[i]? with
    | some .entered => some {c with readers := c.readers.set i (.loaded c.pointer)}
    | _ => none
  | .fetch i =>
    match c.readers[i]? with
    | some (.loaded true) => some {c with readers := c.readers.set i (.holding c.word)}
    | _ => none
  | .leave i =>
    match c.readers[i]? with
    | some .outside | none => none
    | some _ => some {c with readers := c.readers.set i .outside, writer := c.writer.without i}

/-! ### The rule -/

/-- The writer has not yet stopped waiting for reader `i`. -/
def Writer.keeps (i : Nat) : Writer → Prop
  | .published | .retracted => True
  | .waiting readers => i ∈ readers
  | .idle | .stored | .waited => False

structure Guarded (c : Cell ρ) : Prop where
  pointer : c.pointer = true ↔ c.writer = .published
  word : c.word = none ↔ c.writer = .idle
  found : ∀ (i : Nat) (r : Reader ρ), c.readers[i]? = some r → r.found = true → c.writer.keeps i
  same : ∀ (i : Nat) (w : Option ρ), c.readers[i]? = some (Reader.holding w) → w = c.word
  waits : ∀ readers, c.writer = .waiting readers →
    ∀ i ∈ readers, ∃ r, c.readers[i]? = some r ∧ r.inside = true

theorem guarded_initial : Guarded (initial : Cell ρ) where
  pointer := by simp [initial]
  word := by simp [initial]
  found := by simp [initial]
  same := by simp [initial]
  waits := by simp [initial]

theorem mem_insiders {c : Cell ρ} {i : Nat} :
    i ∈ c.insiders ↔ ∃ r, c.readers[i]? = some r ∧ r.inside = true := by
  simp only [Cell.insiders, List.mem_filter, List.mem_range, Option.any_eq_true]
  constructor
  · exact And.right
  · rintro ⟨r, hr, hin⟩
    exact ⟨(List.getElem?_eq_some_iff.mp hr).1, r, hr, hin⟩

theorem inside_of_found {r : Reader ρ} (h : r.found = true) : r.inside = true := by
  cases r with
  | outside => cases h
  | entered => rfl
  | loaded there => rfl
  | holding word => rfl

/-- What an access of the writer finds and leaves. -/
inductive Writes (w : ρ) (c : Cell ρ) : Act → Cell ρ → Prop where
  | store (h : c.writer = .idle) : Writes w c .store {c with word := some w, writer := .stored}
  | publish (h : c.writer = .stored) :
    Writes w c .publish {c with pointer := true, writer := .published}
  | retract (h : c.writer = .published) :
    Writes w c .retract {c with pointer := false, writer := .retracted}
  | sync (h : c.writer = .retracted) : Writes w c .sync {c with writer := .waiting c.insiders}
  | synced (h : c.writer = .waiting []) : Writes w c .synced {c with writer := .waited}
  | clear (h : c.writer = .waited) : Writes w c .clear {c with word := none, writer := .idle}

theorem write_cases {w : ρ} {c d : Cell ρ} {a : Act} (h : c.write w a = some d) :
    Writes w c a d := by
  cases a <;> simp only [Cell.write, Option.ite_none_right_eq_some, Option.some.injEq] at h <;>
    obtain ⟨hw, rfl⟩ := h
  · exact .store hw
  · exact .publish hw
  · exact .retract hw
  · exact .sync hw
  · exact .synced hw
  · exact .clear hw

theorem write_guarded {w : ρ} {c d : Cell ρ} {a : Act} (hc : Guarded c) (h : c.write w a = some d) :
    Guarded d := by
  have stays : ∀ {i : Nat} {r : Reader ρ}, c.readers[i]? = some r → r.found = true →
      c.writer.keeps i :=
    fun hr hf => hc.found _ _ hr hf
  have alone : ¬ (∃ i, c.writer.keeps i) → ∀ (i : Nat) (v : Option ρ),
      c.readers[i]? = some (Reader.holding v) → False :=
    fun hnone i v hr => hnone ⟨i, stays hr rfl⟩
  have hpointer := hc.pointer
  have hword := hc.word
  cases write_cases h with
  | store hw =>
    rw [hw] at hpointer
    exact ⟨by simpa using hpointer, by simp, fun i r hr hf => (hw ▸ stays hr hf).elim,
      fun i v hr => (alone (by simp [hw, Writer.keeps]) i v hr).elim, by simp⟩
  | publish hw =>
    rw [hw] at hword
    exact ⟨by simp, by simpa using hword, fun _ _ _ _ => trivial, hc.same, by simp⟩
  | retract hw =>
    rw [hw] at hword
    exact ⟨by simp, by simpa using hword, fun _ _ _ _ => trivial, hc.same, by simp⟩
  | sync hw =>
    rw [hw] at hpointer hword
    refine ⟨by simpa using hpointer, by simpa using hword, ?_, hc.same, ?_⟩
    · exact fun i r hr hf => mem_insiders.mpr ⟨r, hr, inside_of_found hf⟩
    · rintro readers hreaders i hi
      cases hreaders
      exact mem_insiders.mp hi
  | synced hw =>
    rw [hw] at hpointer hword
    refine ⟨by simpa using hpointer, by simpa using hword, ?_, hc.same, by simp⟩
    intro i r hr hf
    have hkeeps := stays hr hf
    rw [hw] at hkeeps
    exact absurd hkeeps List.not_mem_nil
  | clear hw =>
    rw [hw] at hpointer
    exact ⟨by simpa using hpointer, by simp, fun i r hr hf => (hw ▸ stays hr hf).elim,
      fun i v hr => (alone (by simp [hw, Writer.keeps]) i v hr).elim, by simp⟩

/-- One reader moves on inside. -/
theorem Guarded.move {c : Cell ρ} {i : Nat} {r s : Reader ρ} (hc : Guarded c)
    (hi : c.readers[i]? = some r) (hin : s.inside = true)
    (hfound : s.found = true → c.writer.keeps i)
    (hsame : ∀ w, s = .holding w → w = c.word) : Guarded {c with readers := c.readers.set i s} := by
  have hlt := (List.getElem?_eq_some_iff.mp hi).1
  have cases_of : ∀ {j : Nat} {t : Reader ρ}, (c.readers.set i s)[j]? = some t →
      (j = i ∧ t = s) ∨ c.readers[j]? = some t := by
    intro j t ht
    rw [List.getElem?_set] at ht
    split at ht
    · rename_i hij
      left
      simpa [hlt, hij.symm, eq_comm] using ht
    · exact .inr ht
  refine ⟨hc.pointer, hc.word, ?_, ?_, ?_⟩
  · intro j t ht hf
    rcases cases_of ht with ⟨rfl, rfl⟩ | ht
    · exact hfound hf
    · exact hc.found j t ht hf
  · intro j w ht
    rcases cases_of ht with ⟨rfl, hs⟩ | ht
    · exact hsame w hs.symm
    · exact hc.same j w ht
  · intro readers hw j hj
    obtain ⟨t, ht, htin⟩ := hc.waits readers hw j hj
    by_cases hij : i = j
    · subst hij
      exact ⟨s, by simp [hlt], hin⟩
    · exact ⟨t, by rw [List.getElem?_set_ne hij]; exact ht, htin⟩

theorem Writer.keeps_without {w : Writer} {i j : Nat} (hij : j ≠ i) (h : w.keeps j) :
    (w.without i).keeps j := by
  cases w with
  | waiting readers => exact List.mem_filter.mpr ⟨h, by simpa using hij⟩
  | _ => exact h

theorem Writer.without_eq_iff {w v : Writer} {i : Nat} (hv : ∀ readers, v ≠ .waiting readers) :
    w.without i = v ↔ w = v := by
  cases w with
  | waiting readers => exact iff_of_false (fun h => hv _ h.symm) (fun h => hv _ h.symm)
  | _ => rfl

/-- A reader leaves. -/
theorem Guarded.leave {c : Cell ρ} {i : Nat} (hc : Guarded c) :
    Guarded {c with readers := c.readers.set i .outside, writer := c.writer.without i} := by
  have cases_of : ∀ {j : Nat} {t : Reader ρ}, (c.readers.set i .outside)[j]? = some t →
      t = .outside ∨ (j ≠ i ∧ c.readers[j]? = some t) := by
    intro j t ht
    rw [List.getElem?_set] at ht
    split at ht
    · split at ht
      · exact .inl (Option.some.inj ht).symm
      · cases ht
    · rename_i hij
      exact .inr ⟨fun h => hij h.symm, ht⟩
  refine ⟨?_, ?_, ?_, ?_, ?_⟩
  · rw [Writer.without_eq_iff (by simp)]
    exact hc.pointer
  · rw [Writer.without_eq_iff (by simp)]
    exact hc.word
  · intro j t ht hf
    rcases cases_of ht with rfl | ⟨hij, ht⟩
    · cases hf
    · exact Writer.keeps_without hij (hc.found j t ht hf)
  · intro j w ht
    rcases cases_of ht with h | ⟨_, ht⟩
    · cases h
    · exact hc.same j w ht
  · intro readers hw j hj
    cases hwriter : c.writer with
    | waiting before =>
      rw [hwriter] at hw
      cases hw
      obtain ⟨hmem, hne⟩ := List.mem_filter.mp hj
      obtain ⟨t, ht, htin⟩ := hc.waits before hwriter j hmem
      have hij : i ≠ j := fun h => by simp [h] at hne
      exact ⟨t, by rw [List.getElem?_set_ne hij]; exact ht, htin⟩
    | _ =>
      rw [hwriter] at hw
      cases hw

theorem read_guarded {c d : Cell ρ} {l : Label} (hc : Guarded c) (h : c.read l = some d) :
    Guarded d := by
  cases l with
  | come =>
    cases h
    have cases_of : ∀ {j : Nat} {t : Reader ρ}, (c.readers ++ [.outside])[j]? = some t →
        t = .outside ∨ c.readers[j]? = some t := by
      intro j t ht
      rw [List.getElem?_append] at ht
      split at ht
      · exact .inr ht
      · exact .inl (by simpa using List.mem_of_getElem? ht)
    refine ⟨hc.pointer, hc.word, ?_, ?_, ?_⟩
    · intro j t ht hf
      rcases cases_of ht with rfl | ht
      · cases hf
      · exact hc.found j t ht hf
    · intro j w ht
      rcases cases_of ht with h | ht
      · cases h
      · exact hc.same j w ht
    · intro readers hw j hj
      obtain ⟨t, ht, htin⟩ := hc.waits readers hw j hj
      have hbefore := (List.getElem?_eq_some_iff.mp ht).1
      exact ⟨t, by rw [List.getElem?_append_left hbefore]; exact ht, htin⟩
  | enter i =>
    simp only [Cell.read] at h
    split at h
    · rename_i hi
      cases h
      exact hc.move hi rfl (fun hf => by cases hf) (fun w hw => by cases hw)
    · cases h
  | load i =>
    simp only [Cell.read] at h
    split at h
    · rename_i hi
      cases h
      refine hc.move hi rfl (fun hf => ?_) (fun w hw => by cases hw)
      -- the pointer is there only while it is published
      cases hp : c.pointer with
      | false =>
        rw [hp] at hf
        cases hf
      | true =>
        rw [hc.pointer.mp hp]
        trivial
    · cases h
  | fetch i =>
    simp only [Cell.read] at h
    split at h
    · rename_i hi
      cases h
      exact hc.move hi rfl (fun _ => hc.found i _ hi rfl) (fun w hw => (Reader.holding.inj hw).symm)
    · cases h
  | leave i =>
    simp only [Cell.read] at h
    split at h
    · cases h
    · cases h
    · cases h
      exact hc.leave

/-! ### The writer's cycle -/

/-- What the writer has still to do before it is idle again; an idle one may begin. -/
def Writer.Due : Writer → List Act → Prop
  | .idle, as => as = [] ∨ as = [.store, .publish, .retract, .sync, .synced, .clear]
  | .stored, as => as = [.publish, .retract, .sync, .synced, .clear]
  | .published, as => as = [.retract, .sync, .synced, .clear]
  | .retracted, as => as = [.sync, .synced, .clear]
  | .waiting _, as => as = [.synced, .clear]
  | .waited, as => as = [.clear]

theorem due_write {w : ρ} {c d : Cell ρ} {a : Act} {as : List Act} (hdue : c.writer.Due (a :: as))
    (h : c.write w a = some d) : d.writer.Due as := by
  cases write_cases h with
  | store hw =>
    rw [hw] at hdue
    simpa [Writer.Due] using hdue
  | publish hw | retract hw | sync hw | synced hw =>
    rw [hw] at hdue
    exact List.tail_eq_of_cons_eq hdue
  | clear hw =>
    rw [hw] at hdue
    exact .inl (List.tail_eq_of_cons_eq hdue)

/-- A reader does not move the writer on. -/
theorem due_read {c d : Cell ρ} {l : Label} {as : List Act} (hdue : c.writer.Due as)
    (h : c.read l = some d) : d.writer.Due as := by
  cases l with
  | come =>
    cases h
    exact hdue
  | enter i | load i | fetch i =>
    simp only [Cell.read] at h
    split at h
    · cases h
      exact hdue
    · cases h
  | leave i =>
    simp only [Cell.read] at h
    split at h
    · cases h
    · cases h
    · cases h
      cases hwriter : c.writer with
      | waiting readers =>
        rw [hwriter] at hdue
        exact hdue
      | _ =>
        rw [hwriter] at hdue
        exact hdue

theorem read_idle {c d : Cell ρ} {l : Label} (h : c.read l = some d) (hidle : c.writer = .idle) :
    d.writer = .idle := by
  have hopen : c.writer.Due [.store, .publish, .retract, .sync, .synced, .clear] := by
    rw [hidle]
    exact .inr rfl
  have hdue := due_read hopen h
  cases hw : d.writer with
  | idle => rfl
  | _ =>
    rw [hw] at hdue
    cases hdue

/-- The next access of a writer is enabled, except that a grace period lasts until the
readers that it waits for have left. -/
theorem write_of_due {w : ρ} {c : Cell ρ} {a : Act} {as : List Act} (hdue : c.writer.Due (a :: as))
    (hwait : ∀ readers, c.writer = .waiting readers → readers = []) :
    ∃ d, c.write w a = some d := by
  cases hwriter : c.writer with
  | idle =>
    rw [hwriter] at hdue
    obtain h | h := hdue
    · cases h
    · cases h
      exact ⟨_, if_pos hwriter⟩
  | waiting readers =>
    obtain rfl := hwait readers hwriter
    rw [hwriter] at hdue
    cases hdue
    exact ⟨_, if_pos hwriter⟩
  | stored | published | retracted | waited =>
    rw [hwriter] at hdue
    cases hdue
    exact ⟨_, if_pos hwriter⟩

theorem word_of_write {w v : ρ} {c d : Cell ρ} {a : Act} (h : c.write w a = some d)
    (hv : d.word = some v) : v = w ∨ c.word = some v := by
  cases write_cases h with
  | store => exact .inl (Option.some.inj hv).symm
  | publish | retract | sync | synced => exact .inr hv
  | clear => cases hv

theorem read_word {c d : Cell ρ} {l : Label} (h : c.read l = some d) : d.word = c.word := by
  cases l <;> simp only [Cell.read] at h <;> try split at h
  all_goals first | cases h; rfl | cases h

/-- A grace period ends: those that it waits for can leave, one after another. -/
theorem Guarded.drain {c : Cell ρ} (hc : Guarded c) {readers : List Nat}
    (hw : c.writer = .waiting readers) :
    ∃ (leavers : List Nat) (d : Cell ρ),
      Machine.run Cell.read c (leavers.map .leave) = some d ∧ Guarded d ∧
        d.writer = .waiting [] ∧ d.word = c.word := by
  induction hn : readers.length using Nat.strong_induction_on generalizing c readers with
  | _ n ih =>
    cases readers with
    | nil => exact ⟨[], c, rfl, hc, hw, rfl⟩
    | cons i rest =>
      obtain ⟨r, hr, hin⟩ := hc.waits _ hw i List.mem_cons_self
      have hleave : c.read (.leave i) =
          some {c with readers := c.readers.set i .outside, writer := c.writer.without i} := by
        simp only [Cell.read, hr]
        cases r with
        | outside => cases hin
        | _ => rfl
      have hwriter : c.writer.without i = .waiting (rest.filter (· ≠ i)) := by
        rw [hw]
        simp [Writer.without]
      have hshort : (rest.filter (· ≠ i)).length < n := by
        rw [← hn, List.length_cons]
        exact Nat.lt_succ_of_le (List.length_filter_le _ _)
      obtain ⟨leavers, d, hrun, hd, hend, hword⟩ := ih _ hshort hc.leave hwriter rfl
      refine ⟨i :: leavers, d, ?_, hd, hend, hword⟩
      rw [List.map_cons, Machine.run_cons]
      exact ⟨_, hleave, hrun⟩

/-- Whoever has found the pointer keeps the word in its place. -/
theorem Guarded.word_there {c : Cell ρ} (hc : Guarded c) {i : Nat} {r : Reader ρ}
    (hi : c.readers[i]? = some r) (hf : r.found = true) : ∃ w, c.word = some w := by
  have hkeeps := hc.found i r hi hf
  refine Option.ne_none_iff_exists'.mp fun hnone => ?_
  rw [hc.word.mp hnone] at hkeeps
  exact hkeeps

end DxNpuDriver.Published
