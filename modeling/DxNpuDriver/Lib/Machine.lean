import Mathlib.Algebra.Ring.Nat
import Mathlib.Data.List.Basic
import Mathlib.Tactic.Common

/-! Machines that take one labelled step at a time.

A machine is a step function: what a label does to a state, or nothing when the
label is not enabled there. A run is a list of labels, each enabled where it
stands. Two things are proved once: a predicate that every step keeps holds of
every state a run reaches (`invariant`), and the same for the runs whose steps
all meet a rule (`invariant_of_admissible`). -/
namespace DxNpuDriver.Machine

variable {σ α : Type*} (step : σ → α → Option σ)

/-- The state after the labels, if each of them is enabled in its turn. -/
def run : σ → List α → Option σ
  | s, [] => some s
  | s, a :: rest => (step s a).bind fun t => run t rest

/-- Every step of the run meets the rule `P` in the state it is taken from. -/
def Admissible (P : σ → α → Prop) : σ → List α → Prop
  | _, [] => True
  | s, a :: rest => P s a ∧
    match step s a with
    | none => True
    | some t => Admissible P t rest

instance decidableAdmissible (P : σ → α → Prop) [∀ s a, Decidable (P s a)] (s : σ) (as : List α) :
    Decidable (Admissible step P s as) :=
  match as with
  | [] => isTrue trivial
  | a :: rest =>
    have : Decidable (match step s a with
        | none => True
        | some t => Admissible step P t rest) :=
      match step s a with
      | none => isTrue trivial
      | some t => decidableAdmissible P t rest
    inferInstanceAs (Decidable (P s a ∧ _))

theorem run_cons {s t : σ} {a : α} {rest : List α} :
    run step s (a :: rest) = some t ↔ ∃ u, step s a = some u ∧ run step u rest = some t := by
  simp only [run, Option.bind_eq_some_iff]

theorem run_append {s u : σ} {as bs : List α} :
    run step s (as ++ bs) = some u ↔ ∃ t, run step s as = some t ∧ run step t bs = some u := by
  induction as generalizing s with
  | nil => simp only [List.nil_append, run, Option.some.injEq, exists_eq_left']
  | cons a as ih =>
    simp only [List.cons_append, run, Option.bind_eq_some_iff, ih]
    constructor
    · rintro ⟨v, hv, t, hrest, hbs⟩
      exact ⟨t, ⟨v, hv, hrest⟩, hbs⟩
    · rintro ⟨t, ⟨v, hv, hrest⟩, hbs⟩
      exact ⟨v, hv, t, hrest, hbs⟩

theorem Admissible.tail {P : σ → α → Prop} {s u : σ} {a : α} {rest : List α}
    (h : Admissible step P s (a :: rest)) (hu : step s a = some u) : Admissible step P u rest := by
  have := h.2
  rw [hu] at this
  exact this

/-- A step in the middle of the run meets the rule where the labels before it lead. -/
theorem Admissible.middle {P : σ → α → Prop} {s t : σ} (as : List α) {a : α} {bs : List α}
    (h : Admissible step P s (as ++ a :: bs)) (hrun : run step s as = some t) : P t a := by
  induction as generalizing s with
  | nil =>
    cases hrun
    exact h.1
  | cons b rest ih =>
    obtain ⟨u, hu, hrest⟩ := (run_cons step).mp hrun
    exact ih (h.tail step hu) hrest

/-- What holds at the start and survives every step that meets the rule holds at
the end of every run whose steps all meet it. -/
theorem invariant_of_admissible {P : σ → α → Prop} {Inv : σ → Prop}
    (keep : ∀ s a t, Inv s → P s a → step s a = some t → Inv t)
    {s t : σ} {as : List α} (start : Inv s) (rule : Admissible step P s as)
    (h : run step s as = some t) : Inv t := by
  induction as generalizing s with
  | nil =>
    cases h
    exact start
  | cons a rest ih =>
    obtain ⟨u, hu, hrest⟩ := (run_cons step).mp h
    exact ih (keep s a u start rule.1 hu) (rule.tail step hu) hrest

/-- Where the rule together with an invariant gives `Q`, every step of a run that meets
the rule meets `Q`. -/
theorem Admissible.imp {P Q : σ → α → Prop} {Inv : σ → Prop}
    (keep : ∀ s a t, Inv s → P s a → step s a = some t → Inv t)
    (gives : ∀ s a, Inv s → P s a → Q s a) {s : σ} {as : List α} (start : Inv s)
    (rule : Admissible step P s as) : Admissible step Q s as := by
  induction as generalizing s with
  | nil => trivial
  | cons a rest ih =>
    refine ⟨gives s a start rule.1, ?_⟩
    cases hstep : step s a with
    | none => trivial
    | some t => exact ih (keep s a t start rule.1 hstep) (rule.tail step hstep)

/-- Two rules that come to the same under an invariant which the first of them keeps are met
by the same runs. -/
theorem admissible_congr {P Q : σ → α → Prop} {Inv : σ → Prop}
    (keep : ∀ s a t, Inv s → P s a → step s a = some t → Inv t)
    (same : ∀ s a, Inv s → (P s a ↔ Q s a)) {s : σ} {as : List α} (start : Inv s) :
    Admissible step P s as ↔ Admissible step Q s as := by
  induction as generalizing s with
  | nil => exact Iff.rfl
  | cons a rest ih =>
    have head := same s a start
    have tail : P s a → ∀ t, step s a = some t →
        (Admissible step P t rest ↔ Admissible step Q t rest) :=
      fun rule t ht => ih (keep s a t start rule ht)
    constructor
    · rintro ⟨rule, h⟩
      refine ⟨head.mp rule, ?_⟩
      cases hstep : step s a with
      | none => trivial
      | some t =>
        rw [hstep] at h
        exact (tail rule t hstep).mp h
    · rintro ⟨rule, h⟩
      refine ⟨head.mpr rule, ?_⟩
      cases hstep : step s a with
      | none => trivial
      | some t =>
        rw [hstep] at h
        exact (tail (head.mpr rule) t hstep).mpr h

theorem invariant {Inv : σ → Prop} (keep : ∀ s a t, Inv s → step s a = some t → Inv t)
    {s t : σ} {as : List α} (start : Inv s) (h : run step s as = some t) : Inv t := by
  induction as generalizing s with
  | nil =>
    cases h
    exact start
  | cons a rest ih =>
    obtain ⟨u, hu, hrest⟩ := (run_cons step).mp h
    exact ih (keep s a u start hu) hrest

/-- Where the rule keeps an invariant that gives `Q`, and a step that breaks the rule leads
to a state without `Q`, the runs that meet the rule are those with `Q` in every state. -/
theorem admissible_iff_throughout {P : σ → α → Prop} {Inv Q : σ → Prop}
    (keep : ∀ s a t, Inv s → P s a → step s a = some t → Inv t) (gives : ∀ s, Inv s → Q s)
    (broken : ∀ s a, Inv s → ¬ P s a → ∃ t, step s a = some t ∧ ¬ Q t) {s : σ} {as : List α}
    (start : Inv s) :
    Admissible step P s as ↔ ∀ bs cs t, as = bs ++ cs → run step s bs = some t → Q t := by
  induction as generalizing s with
  | nil =>
    refine iff_of_true trivial fun bs cs t hsplit hrun => ?_
    obtain ⟨rfl, -⟩ : bs = [] ∧ cs = [] := by simpa using hsplit.symm
    cases hrun
    exact gives s start
  | cons a rest ih =>
    constructor
    · intro rule bs cs t hsplit hrun
      cases bs with
      | nil =>
        cases hrun
        exact gives s start
      | cons b bs =>
        obtain ⟨rfl, rfl⟩ : a = b ∧ rest = bs ++ cs := by simpa using hsplit
        obtain ⟨u, hu, hrest⟩ := (run_cons step).mp hrun
        exact (ih (keep _ _ _ start rule.1 hu)).mp (rule.tail step hu) bs cs t rfl hrest
    · intro h
      have rule : P s a := by
        by_contra hrule
        obtain ⟨t, ht, hQ⟩ := broken s a start hrule
        exact hQ (h [a] rest t rfl ((run_cons step).mpr ⟨t, ht, rfl⟩))
      refine ⟨rule, ?_⟩
      cases hstep : step s a with
      | none => trivial
      | some u =>
        refine (ih (keep _ _ _ start rule hstep)).mpr fun bs cs t hsplit hrun => ?_
        refine h (a :: bs) cs t ?_ ((run_cons step).mpr ⟨u, hstep, hrun⟩)
        rw [hsplit, List.cons_append]

/-! ### A machine that follows another

Some labels of a machine are labels of another one, the rest are its own affair. -/

section Follow
variable {τ β : Type*} (step' : τ → β → Option τ) (view : α → Option β) (shown : σ → τ)

/-- A step does to what is shown what the other machine does, or leaves it. -/
def Follows (s : σ) (a : α) (t : σ) : Prop :=
  match view a with
  | none => shown t = shown s
  | some b => step' (shown s) b = some (shown t)

/-- A run that keeps to a rule is followed label by label. -/
theorem run_follows {P : σ → α → Prop} {Inv : σ → Prop}
    (keep : ∀ s a t, Inv s → P s a → step s a = some t → Inv t ∧ Follows step' view shown s a t)
    {s t : σ} {as : List α} (start : Inv s) (rule : Admissible step P s as)
    (h : run step s as = some t) :
    Inv t ∧ run step' (shown s) (as.filterMap view) = some (shown t) := by
  induction as generalizing s with
  | nil =>
    cases h
    exact ⟨start, rfl⟩
  | cons a rest ih =>
    obtain ⟨u, hu, hrest⟩ := (run_cons step).mp h
    obtain ⟨hinv, hfollows⟩ := keep s a u start rule.1 hu
    obtain ⟨hend, hrun⟩ := ih hinv (rule.tail step hu) hrest
    refine ⟨hend, ?_⟩
    unfold Follows at hfollows
    cases hview : view a with
    | none =>
      rw [hview] at hfollows
      rw [List.filterMap_cons_none hview, ← hfollows]
      exact hrun
    | some b =>
      rw [hview] at hfollows
      rw [List.filterMap_cons_some hview, run_cons]
      exact ⟨shown u, hfollows, hrun⟩

end Follow

/-! ### Counting steps -/

section Count

/-- The steps of the run that lead from a state to one as `p` says. -/
def count (p : σ → σ → Bool) : σ → List α → Nat
  | _, [] => 0
  | s, a :: rest =>
    match step s a with
    | none => 0
    | some t => (if p s t then 1 else 0) + count p t rest

/-- What no step undoes comes about in one step of the run, or in none. -/
theorem count_comes {P : σ → α → Prop} {Inv : σ → Prop} {q : σ → Bool}
    (keep : ∀ s a t, Inv s → P s a → step s a = some t → Inv t ∧ (q s = true → q t = true))
    {s t : σ} {as : List α} (start : Inv s) (rule : Admissible step P s as)
    (h : run step s as = some t) :
    (if q s then 1 else 0) + count step (fun s t => !q s && q t) s as = if q t then 1 else 0 := by
  induction as generalizing s with
  | nil =>
    cases h
    rfl
  | cons a rest ih =>
    obtain ⟨u, hu, hrest⟩ := (run_cons step).mp h
    obtain ⟨hinv, hstays⟩ := keep s a u start rule.1 hu
    have htail := ih hinv (rule.tail step hu) hrest
    rw [count, hu]
    dsimp only
    rw [← htail]
    cases hs : q s with
    | true => simp [hstays hs]
    | false => cases q u <;> simp

end Count

/-! ### A watch beside the machine

What a property of runs has to remember and the state does not keep is recorded beside
the state; the record sees every step and changes none. -/

section Watch
variable {γ : Type*} (note : σ → α → γ → γ)

/-- The machine with its record. -/
def watched (s : σ × γ) (a : α) : Option (σ × γ) := (step s.1 a).map fun t => (t, note s.1 a s.2)

theorem watched_eq_some {s t : σ × γ} {a : α} :
    watched step note s a = some t ↔ step s.1 a = some t.1 ∧ t.2 = note s.1 a s.2 := by
  obtain ⟨t, g⟩ := t
  simp only [watched, Option.map_eq_some_iff, Prod.mk.injEq]
  constructor
  · rintro ⟨u, hu, rfl, rfl⟩
    exact ⟨hu, rfl⟩
  · rintro ⟨ht, rfl⟩
    exact ⟨t, ht, rfl, rfl⟩

end Watch

/-! ### Many of a kind -/

/-- What one of many becomes, and what the others keep. -/
theorem forall_mem_set {β : Type*} {p q : β → Prop} {crew : List β} {i : Nat} {y : β}
    (h : ∀ x ∈ crew, p x) (keep : ∀ x, p x → q x) (hy : q y) : ∀ x ∈ crew.set i y, q x := by
  intro x hx
  rcases List.mem_or_eq_of_mem_set hx with hx | rfl
  · exact keep x (h x hx)
  · exact hy

/-- One of many that has a property is still there after one of them has moved, if the one
that moves keeps it. -/
theorem exists_mem_set {β : Type*} {p : β → Prop} {crew : List β} {i : Nat} {x y : β}
    (hi : crew[i]? = some x) (h : ∃ z ∈ crew, p z) (keep : p x → p y) :
    ∃ z ∈ crew.set i y, p z := by
  obtain ⟨hlt, -⟩ := List.getElem?_eq_some_iff.mp hi
  obtain ⟨z, hz, hp⟩ := h
  obtain ⟨j, hj⟩ := List.getElem?_of_mem hz
  by_cases hij : i = j
  · subst hij
    rw [hi] at hj
    cases hj
    exact ⟨y, List.mem_set hlt y, keep hp⟩
  · refine ⟨z, List.mem_of_getElem? (i := j) ?_, hp⟩
    rw [List.getElem?_set_ne hij]
    exact hj

/-- When one of many moves, the count of those in a phase moves with it. -/
theorem countP_move {β : Type*} (p : β → Bool) {crew : List β} {i : Nat} {x y : β}
    (h : crew[i]? = some x) :
    (crew.set i y).countP p + (if p x then 1 else 0) = crew.countP p + (if p y then 1 else 0) := by
  obtain ⟨hi, hx⟩ := List.getElem?_eq_some_iff.mp h
  have hpos : p x = true → 0 < crew.countP p :=
    fun hp => List.countP_pos_iff.mpr ⟨x, hx ▸ List.getElem_mem hi, hp⟩
  rw [List.countP_set hi, hx]
  split
  · have := hpos ‹_›
    omega
  · omega

/-- Where at most one of many is in a phase, two that are in it are the same. -/
theorem eq_of_countP_le_one {β : Type*} {p : β → Bool} {crew : List β} (h : crew.countP p ≤ 1)
    {i j : Nat} {x y : β} (hi : crew[i]? = some x) (hj : crew[j]? = some y) (hx : p x = true)
    (hy : p y = true) : i = j := by
  induction crew generalizing i j with
  | nil => cases hi
  | cons a rest ih =>
    have inRest : ∀ {k : Nat} {z : β}, rest[k]? = some z → p z = true → p a = true → False := by
      intro k z hk hz ha
      have : 0 < rest.countP p := List.countP_pos_iff.mpr ⟨z, List.mem_of_getElem? hk, hz⟩
      rw [List.countP_cons_of_pos ha] at h
      omega
    have below : rest.countP p ≤ 1 := by
      rw [List.countP_cons] at h
      omega
    cases i with
    | zero =>
      cases hi
      cases j with
      | zero => rfl
      | succ j => exact (inRest hj hy hx).elim
    | succ i =>
      cases j with
      | zero =>
        cases hj
        exact (inRest hi hx hy).elim
      | succ j => rw [ih below hi hj]

end DxNpuDriver.Machine
