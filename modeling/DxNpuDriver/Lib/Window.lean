import Mathlib.Algebra.Order.Sub.Basic
import Mathlib.Data.List.Basic
import Mathlib.Tactic.Common

/-! Events counted in windows that start over.

A window has a start and counts the events that come at most `width` later; the first
event after that starts the next window, and what was counted is dropped. Whoever keeps
only a start and a count takes the count for the number of events of the last `width`,
which it is up to the dropped events that are not yet older than that (`carried`). -/
namespace DxNpuDriver

/-- Events of a history, the newest first. -/
structure Window (τ : Type*) where
  start : τ
  /-- Since the start. -/
  counted : List τ
  /-- Before it. -/
  dropped : List τ

namespace Window
variable {τ : Type*}

def opened (start : τ) : Window τ := ⟨start, [], []⟩

def count (w : Window τ) (now : τ) : Window τ := {w with counted := now :: w.counted}

/-- Every event, counted or dropped. -/
def events (w : Window τ) : List τ := w.counted ++ w.dropped

@[simp] theorem events_opened (start : τ) : (opened start).events = [] := rfl

@[simp] theorem events_count (w : Window τ) (now : τ) :
    (w.count now).events = now :: w.events := rfl

@[simp] theorem dropped_count (w : Window τ) (now : τ) : (w.count now).dropped = w.dropped := rfl

@[simp] theorem start_count (w : Window τ) (now : τ) : (w.count now).start = w.start := rfl

@[simp] theorem counted_count (w : Window τ) (now : τ) :
    (w.count now).counted = now :: w.counted := rfl

section Order
variable [LinearOrder τ]

/-- What is counted has come since the start, and nothing has come after `now`. -/
structure Dated (now : τ) (w : Window τ) : Prop where
  since : ∀ t ∈ w.counted, w.start ≤ t
  start : w.start ≤ now
  past : ∀ t ∈ w.events, t ≤ now

theorem opened_dated (start : τ) : Dated start (opened start) where
  since := by rintro _ ⟨⟩
  start := le_rfl
  past := by rintro _ ⟨⟩

theorem Dated.later {w : Window τ} {t now : τ} (h : Dated t w) (hle : t ≤ now) : Dated now w where
  since := h.since
  start := h.start.trans hle
  past e he := (h.past e he).trans hle

theorem Dated.count {w : Window τ} {now : τ} (h : Dated now w) : Dated now (w.count now) where
  since := List.forall_mem_cons.mpr ⟨h.start, h.since⟩
  start := h.start
  past := List.forall_mem_cons.mpr ⟨le_rfl, h.past⟩

end Order

variable [LinearOrder τ] [AddCommMonoid τ]

/-- The events of the last `width` before `now`. -/
def recent (width now : τ) (events : List τ) : Nat :=
  events.countP fun t => decide (now ≤ t + width)

/-- The window at `now`: it starts over when its time has run out. -/
def roll (width : τ) (w : Window τ) (now : τ) : Window τ :=
  if w.start + width < now then ⟨now, [], w.counted ++ w.dropped⟩ else w

/-- The dropped events that are not older than `width`. -/
def carried (width now : τ) (w : Window τ) : Nat := recent width now w.dropped

@[simp] theorem events_roll (width : τ) (w : Window τ) (now : τ) :
    (w.roll width now).events = w.events := by
  unfold roll
  split
  · rfl
  · rfl

theorem Dated.roll {w : Window τ} {width now : τ} (h : Dated now w) :
    Dated now (w.roll width now) := by
  refine ⟨?_, ?_, ?_⟩
  · unfold Window.roll
    split
    · rintro _ ⟨⟩
    · exact h.since
  · unfold Window.roll
    split
    · exact le_rfl
    · exact h.start
  · rw [events_roll]
    exact h.past

variable [IsOrderedAddMonoid τ] {width now : τ}

/-- A window that has just been looked at has not run out. -/
theorem le_start_roll (hwidth : 0 ≤ width) (w : Window τ) :
    now ≤ (w.roll width now).start + width := by
  unfold roll
  split
  · exact le_add_of_nonneg_right hwidth
  · exact not_lt.mp ‹_›

/-- What an open window counts is recent. -/
theorem recent_counted {w : Window τ} (since : ∀ t ∈ w.counted, w.start ≤ t)
    (hopen : now ≤ w.start + width) : recent width now w.counted = w.counted.length := by
  refine List.countP_eq_length.mpr fun t ht => decide_eq_true ?_
  exact hopen.trans (add_le_add_left (since t ht) width)

/-- **The count against the recent events.** They differ by what the last start has
dropped too early. -/
theorem recent_events (hwidth : 0 ≤ width) {w : Window τ} (h : Dated now w) :
    recent width now (w.roll width now).events =
      (w.roll width now).counted.length + (w.roll width now).carried width now := by
  have dated : Dated now (w.roll width now) := h.roll
  unfold events
  rw [recent, List.countP_append]
  exact congrArg (· + _) (recent_counted dated.since (le_start_roll hwidth w))

/-! ### Sparse histories -/

/-- No event is the last of more than `limit` within `width`. -/
def Sparse (width : τ) (limit : Nat) : List τ → Prop
  | [] => True
  | t :: rest => recent width t (t :: rest) ≤ limit ∧ Sparse width limit rest

/-- The events of an interval of length `width`. -/
def within (width from_ : τ) (events : List τ) : Nat :=
  events.countP fun t => decide (from_ ≤ t ∧ t ≤ from_ + width)

/-- A history is sparse when no interval of length `width` holds more than `limit` events,
wherever the interval is placed. -/
theorem sparse_iff_within [Sub τ] [OrderedSub τ] {limit : Nat} {events : List τ}
    (sorted : events.Pairwise (· ≥ ·)) :
    Sparse width limit events ↔ ∀ x, within width x events ≤ limit := by
  induction events with
  | nil => exact iff_of_true trivial fun _ => Nat.zero_le _
  | cons t rest ih =>
    obtain ⟨newest, sorted⟩ := List.pairwise_cons.mp sorted
    constructor
    · rintro ⟨hrecent, hrest⟩ x
      by_cases hin : x ≤ t ∧ t ≤ x + width
      · -- the interval ends no later than `width` after its first event
        refine le_trans (List.countP_mono_left fun y _ hy => ?_) hrecent
        have hy := of_decide_eq_true hy
        exact decide_eq_true (hin.2.trans (add_le_add_left hy.1 width))
      · rw [within, List.countP_cons_of_neg (by simpa using hin)]
        exact (ih sorted).mp hrest x
    · intro h
      refine ⟨le_trans (List.countP_mono_left fun y hy hle => ?_) (h (t - width)), ?_⟩
      · have hle := of_decide_eq_true hle
        have hyt : y ≤ t := (List.forall_mem_cons (p := (· ≤ t))).mpr ⟨le_rfl, newest⟩ y hy
        exact decide_eq_true ⟨tsub_le_iff_right.mpr hle, hyt.trans le_tsub_add⟩
      · refine (ih sorted).mpr fun x => le_trans ?_ (h x)
        exact (List.sublist_cons_self t rest).countP_le

end Window

end DxNpuDriver
