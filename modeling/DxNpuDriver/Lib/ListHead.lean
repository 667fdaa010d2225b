import Mathlib.Data.List.Basic
import Mathlib.Logic.Function.Basic
import Mathlib.Tactic.Common

/-! Circular doubly linked lists through the nodes themselves.

Every node has two links, `next` and `prev`; a list is a ring of nodes through a head, and
a node that is in no list is linked to itself. What the links are is all there is, so that
a node can stand in one place only. A ring through a head, with all other nodes on their
own, is the list of its nodes (`Ring`): adding at the tail appends, taking a node out
erases it. -/
namespace DxNpuDriver

/-- The links of all nodes. -/
structure Links (ν : Type*) where
  next : ν → ν
  prev : ν → ν

namespace Links
variable {ν : Type*} [DecidableEq ν]

/-- No node is linked to another. -/
def lone : Links ν := ⟨id, id⟩

/-- `list_empty`, of a head or of an entry. -/
def empty (m : Links ν) (n : ν) : Bool := m.next n = n

/-- `list_add_tail`. -/
def addTail (m : Links ν) (new head : ν) : Links ν :=
  let last := m.prev head
  ⟨Function.update (Function.update m.next new head) last new,
    Function.update (Function.update m.prev head new) new last⟩

/-- `list_del_init`. -/
def delInit (m : Links ν) (entry : ν) : Links ν :=
  ⟨Function.update (Function.update m.next (m.prev entry) (m.next entry)) entry entry,
    Function.update (Function.update m.prev (m.next entry) (m.prev entry)) entry entry⟩

/-- The links lead from `a` over the nodes `xs` to `b`, and back. -/
def Chain (m : Links ν) : ν → List ν → ν → Prop
  | a, [], b => m.next a = b ∧ m.prev b = a
  | a, x :: xs, b => m.next a = x ∧ m.prev x = a ∧ Chain m x xs b

section Chain
variable {m m' : Links ν} {a b n : ν} {xs : List ν}

omit [DecidableEq ν] in
theorem Chain.congr (h : m.Chain a xs b) (hnext : ∀ n ∈ a :: xs, m'.next n = m.next n)
    (hprev : ∀ n ∈ xs ++ [b], m'.prev n = m.prev n) : m'.Chain a xs b := by
  induction xs generalizing a with
  | nil =>
    obtain ⟨hab, hba⟩ := h
    exact ⟨(hnext a List.mem_cons_self).trans hab, (hprev b List.mem_cons_self).trans hba⟩
  | cons x xs ih =>
    obtain ⟨hax, hxa, hrest⟩ := h
    refine ⟨(hnext a List.mem_cons_self).trans hax, (hprev x List.mem_cons_self).trans hxa, ?_⟩
    exact ih hrest (fun n hn => hnext n (List.mem_cons_of_mem a hn))
      fun n hn => hprev n (List.mem_cons_of_mem x hn)

omit [DecidableEq ν] in
theorem Chain.prev_mem (h : m.Chain a xs b) : m.prev b ∈ a :: xs := by
  induction xs generalizing a with
  | nil => exact h.2 ▸ List.mem_cons_self
  | cons x xs ih => exact List.mem_cons_of_mem a (ih h.2.2)

omit [DecidableEq ν] in
theorem Chain.next_mem (h : m.Chain a xs b) : m.next a ∈ xs ++ [b] := by
  cases xs with
  | nil => exact h.1 ▸ List.mem_cons_self
  | cons x xs => exact h.1 ▸ List.mem_cons_self

omit [DecidableEq ν] in
theorem chain_append {x : ν} {as bs : List ν} :
    m.Chain a (as ++ x :: bs) b ↔ m.Chain a as x ∧ m.Chain x bs b := by
  induction as generalizing a with
  | nil => simp only [List.nil_append, Chain, and_assoc]
  | cons c as ih => simp only [List.cons_append, Chain, ih, and_assoc]

/-- A new node before `b`. -/
theorem Chain.addTail (h : m.Chain a xs b) (hn : n ∉ a :: xs ++ [b]) (hnodup : (a :: xs).Nodup)
    (hb : b ∉ xs) : (m.addTail n b).Chain a (xs ++ [n]) b := by
  have hnb : n ≠ b := fun h => hn (by simp [h])
  induction xs generalizing a with
  | nil =>
    obtain ⟨hab, hba⟩ := h
    have hna : n ≠ a := fun h => hn (by simp [h])
    simp [Links.addTail, Chain, hba, hna, hnb.symm]
  | cons x xs ih =>
    obtain ⟨hax, hxa, hrest⟩ := h
    obtain ⟨ha, hnodup⟩ := List.nodup_cons.mp hnodup
    have hlast := hrest.prev_mem
    refine ⟨?_, ?_, ih hrest (fun h => hn (by simp_all)) hnodup fun h => hb (by simp [h])⟩
    · have hna : a ≠ n := fun h => hn (by simp [h])
      have hal : a ≠ m.prev b := fun h => ha (h ▸ hlast)
      simp [Links.addTail, hna, hal, hax]
    · have hnx : x ≠ n := fun h => hn (by simp [h])
      have hbx : x ≠ b := fun h => hb (by simp [h])
      simp [Links.addTail, hnx, hbx, hxa]

/-- The node is the first of the chain. -/
theorem Chain.delInit_first {x : ν} {bs : List ν} (h : m.Chain a (x :: bs) b)
    (hnodup : (a :: x :: bs).Nodup) (hb : b ∉ x :: bs) : (m.delInit x).Chain a bs b := by
  obtain ⟨hax, hxa, hrest⟩ := h
  obtain ⟨ha, hnodup⟩ := List.nodup_cons.mp hnodup
  obtain ⟨hx, hnodup⟩ := List.nodup_cons.mp hnodup
  have hxb : b ≠ x := fun h => hb (by simp [h])
  have hxa' : a ≠ x := fun h => ha (by simp [h])
  cases bs with
  | nil =>
    obtain ⟨hxb', hbx⟩ := hrest
    simp [Links.delInit, Chain, hxa, hxb', hxb, hxa']
  | cons y ys =>
    obtain ⟨hxy, hyx, hrest⟩ := hrest
    have hyx' : y ≠ x := fun h => hx (by simp [h])
    refine ⟨by simp [Links.delInit, hxa, hxy, hxa'], by simp [Links.delInit, hxa, hxy, hyx'], ?_⟩
    refine hrest.congr (fun n hn => ?_) fun n hn => ?_
    · have hna : n ≠ a := by rintro rfl; exact ha (List.mem_cons_of_mem x hn)
      have hnx : n ≠ x := by rintro rfl; exact hx hn
      simp [Links.delInit, hxa, hna, hnx]
    · have hny : n ≠ y := by
        rintro rfl
        rcases List.mem_append.mp hn with hn | hn
        · exact (List.nodup_cons.mp hnodup).1 hn
        · exact hb (by simp_all)
      have hnx : n ≠ x := by
        rintro rfl
        rcases List.mem_append.mp hn with hn | hn
        · exact hx (List.mem_cons_of_mem y hn)
        · exact hxb (List.mem_singleton.mp hn).symm
      simp [Links.delInit, hxy, hny, hnx]

/-- A node less between `a` and `b`. -/
theorem Chain.delInit {x : ν} {as bs : List ν} (h : m.Chain a (as ++ x :: bs) b)
    (hnodup : (a :: (as ++ x :: bs)).Nodup) (hb : b ∉ as ++ x :: bs) :
    (m.delInit x).Chain a (as ++ bs) b := by
  induction as generalizing a with
  | nil => exact h.delInit_first hnodup hb
  | cons c as ih =>
    obtain ⟨hac, hca, hrest⟩ := h
    obtain ⟨ha, hnodup⟩ := List.nodup_cons.mp hnodup
    have hrest' := chain_append.mp hrest
    have hprev := hrest'.1.prev_mem
    have hnext := hrest'.2.next_mem
    refine ⟨?_, ?_, ih hrest hnodup fun h => hb (List.mem_cons_of_mem c h)⟩
    · have hax : a ≠ x := fun h => ha (by simp [h])
      have hap : a ≠ m.prev x := by
        rintro rfl
        exact ha (by simp_all)
      simp [Links.delInit, hax, hap, hac]
    · have hcx : c ≠ x := by
        rintro rfl
        exact (List.nodup_cons.mp hnodup).1 (by simp)
      have hcn : c ≠ m.next x := by
        intro h
        rcases List.mem_append.mp (h ▸ hnext) with hmem | hmem
        · exact (List.nodup_cons.mp hnodup).1 (by simp [hmem])
        · exact hb (by simp_all)
      simp [Links.delInit, hcx, hcn, hca]

end Chain

/-- The nodes `xs`, in this order, are the list of `head`; every other node is on its own. -/
structure Ring (m : Links ν) (head : ν) (xs : List ν) : Prop where
  chain : m.Chain head xs head
  nodup : (head :: xs).Nodup
  lone : ∀ n ∉ head :: xs, m.next n = n

section Ring
variable {m : Links ν} {head n : ν} {xs : List ν}

omit [DecidableEq ν] in
theorem ring_lone : (lone : Links ν).Ring head [] :=
  ⟨⟨rfl, rfl⟩, by simp, fun _ _ => rfl⟩

omit [DecidableEq ν] in
theorem Ring.next_ne (r : m.Ring head xs) (hn : n ∈ xs) : m.next n ≠ n := by
  obtain ⟨as, bs, rfl⟩ := List.append_of_mem hn
  have hnext := (chain_append.mp r.chain).2.next_mem
  obtain ⟨hhead, hnodup⟩ := List.nodup_cons.mp r.nodup
  intro heq
  rw [heq] at hnext
  rcases List.mem_append.mp hnext with h | h
  · exact (List.nodup_cons.mp (List.nodup_append.mp hnodup).2.1).1 h
  · exact hhead (List.mem_singleton.mp h ▸ hn)

omit [DecidableEq ν] in
theorem Ring.next_head_eq_iff (r : m.Ring head xs) : m.next head = head ↔ xs = [] := by
  cases xs with
  | nil => exact iff_of_true r.chain.1 rfl
  | cons x xs =>
    refine iff_of_false (fun h => ?_) (by simp)
    have hx : x = head := r.chain.1.symm.trans h
    exact (List.nodup_cons.mp r.nodup).1 (hx ▸ List.mem_cons_self)

/-- `list_empty` of an entry tells whether it is in the list. -/
theorem Ring.empty_iff (r : m.Ring head xs) (hn : n ≠ head) : m.empty n = true ↔ n ∉ xs := by
  simp only [empty, decide_eq_true_eq]
  constructor
  · exact fun h hmem => r.next_ne hmem h
  · exact fun h => r.lone n (by simp [hn, h])

theorem Ring.addTail (r : m.Ring head xs) (hn : n ∉ head :: xs) :
    (m.addTail n head).Ring head (xs ++ [n]) where
  chain := r.chain.addTail (by simp_all) r.nodup (List.nodup_cons.mp r.nodup).1
  nodup := by
    rw [← List.cons_append, List.nodup_append]
    refine ⟨r.nodup, by simp, ?_⟩
    rintro a ha b hb rfl
    exact hn (List.mem_singleton.mp hb ▸ ha)
  lone k hk := by
    have hkn : k ≠ n := fun h => hk (by simp [h])
    have hlast : k ≠ m.prev head := by
      rintro rfl
      have := r.chain.prev_mem
      exact hk (by simp_all)
    simp only [Links.addTail, Function.update_of_ne hlast, Function.update_of_ne hkn]
    exact r.lone k fun h => hk (by simp_all)

theorem Ring.delInit {as bs : List ν} (r : m.Ring head (as ++ n :: bs)) :
    (m.delInit n).Ring head (as ++ bs) where
  chain := r.chain.delInit r.nodup (List.nodup_cons.mp r.nodup).1
  nodup := r.nodup.sublist (by simp)
  lone k hk := by
    by_cases hkn : k = n
    · subst hkn
      simp [Links.delInit]
    · have hprev : k ≠ m.prev n := by
        rintro rfl
        have := (chain_append.mp r.chain).1.prev_mem
        exact hk (by simp_all)
      simp only [Links.delInit, Function.update_of_ne hkn, Function.update_of_ne hprev]
      exact r.lone k fun h => hk (by simp_all)

theorem Ring.delFirst (r : m.Ring head (n :: xs)) : (m.delInit n).Ring head xs :=
  @Ring.delInit ν _ m head n [] xs r

/-- `list_for_each_entry_safe` with a `list_del_init` of each entry; out of fuel, `none`. -/
def delEach (head : ν) : Nat → Links ν → ν → ν → Option (Links ν)
  | 0, _, _, _ => none
  | fuel + 1, m, entry, tmp =>
    if entry = head then some m
    else
      let m := m.delInit entry
      delEach head fuel m tmp (m.next tmp)

theorem Ring.delEach (r : m.Ring head xs) {fuel : Nat} (hfuel : xs.length < fuel) :
    ∃ m', Links.delEach head fuel m (m.next head) (m.next (m.next head)) = some m' ∧
      m'.Ring head [] := by
  induction xs generalizing m fuel with
  | nil =>
    obtain ⟨fuel, rfl⟩ : ∃ k, fuel = k + 1 := ⟨fuel - 1, by simp at hfuel; omega⟩
    exact ⟨m, by simp [Links.delEach, r.chain.1], r⟩
  | cons x xs ih =>
    obtain ⟨fuel, rfl⟩ : ∃ k, fuel = k + 1 := ⟨fuel - 1, by simp at hfuel; omega⟩
    have hx : x ≠ head := by
      rintro rfl
      exact (List.nodup_cons.mp r.nodup).1 List.mem_cons_self
    have hfirst : m.next head = x := r.chain.1
    have hrest : (m.delInit x).next head = m.next x := by
      have hprev : m.prev x = head := r.chain.2.1
      simp [Links.delInit, hprev, hx.symm]
    have shorter := ih r.delFirst (by simpa using hfuel : xs.length < fuel)
    simp only [Links.delEach, hfirst, if_neg hx]
    rwa [hrest] at shorter

end Ring

end Links

end DxNpuDriver
