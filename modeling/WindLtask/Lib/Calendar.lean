import Mathlib.Data.List.Basic

/-!
# Calendars

A calendar holds items with the day on which they fall due.  Its history is the
list of items added and the list of items done, both with a day; when items are
taken on their own day only and the day never ends with items left, the items
done on a past day are those added for it, in the order of their addition.
-/

namespace WindLtask.Lib

variable {A : Type}

/-- The items of one day, in their order. -/
def onDay (day : ℕ) (items : List (ℕ × A)) : List A :=
  (items.filter fun item => item.1 = day).map Prod.snd

@[simp] theorem onDay_nil (day : ℕ) : onDay day ([] : List (ℕ × A)) = [] := rfl

@[simp] theorem onDay_append (day : ℕ) (items more : List (ℕ × A)) :
    onDay day (items ++ more) = onDay day items ++ onDay day more := by
  simp [onDay]

theorem onDay_map_same (day : ℕ) (as : List A) : onDay day (as.map (Prod.mk day)) = as := by
  induction as with
  | nil => rfl
  | cons a as ih => simpa [onDay] using ih

theorem onDay_map_other {day other : ℕ} (ne : other ≠ day) (as : List A) :
    onDay day (as.map (Prod.mk other)) = [] := by
  simp [onDay, ne]

theorem onDay_eq_nil_iff {day : ℕ} {items : List (ℕ × A)} :
    onDay day items = [] ↔ ∀ item ∈ items, item.1 ≠ day := by
  simp [onDay]

/-- The items that have still to be done, and today. -/
structure Calendar (A : Type) where
  now : ℕ
  pending : List (ℕ × A)

namespace Calendar

def start : Calendar A := { now := 0, pending := [] }

def add (c : Calendar A) (delay : ℕ) (a : A) : Calendar A :=
  { c with pending := c.pending ++ [(c.now + delay, a)] }

/-- The items of today. -/
def due (c : Calendar A) : List A := onDay c.now c.pending

/-- Take the items of today off the calendar. -/
def take (c : Calendar A) : Calendar A :=
  { c with pending := c.pending.filter fun item => item.1 ≠ c.now }

def advance (c : Calendar A) : Calendar A := { c with now := c.now + 1 }

@[simp] theorem add_now (c : Calendar A) (delay : ℕ) (a : A) : (c.add delay a).now = c.now := rfl

@[simp] theorem take_now (c : Calendar A) : c.take.now = c.now := rfl

@[simp] theorem advance_now (c : Calendar A) : c.advance.now = c.now + 1 := rfl

@[simp] theorem advance_pending (c : Calendar A) : c.advance.pending = c.pending := rfl

theorem onDay_take_now (c : Calendar A) : onDay c.now c.take.pending = [] := by
  simp [onDay_eq_nil_iff, take]

theorem onDay_take_other (c : Calendar A) {day : ℕ} (other : day ≠ c.now) :
    onDay day c.take.pending = onDay day c.pending := by
  simp only [onDay, take, List.filter_filter]
  congr 1
  apply List.filter_congr
  intro item _
  by_cases same : item.1 = day
  · simp [same, other]
  · simp [same]

/--
The history of a calendar: on each day the items done, those at hand and those
pending are the items added for that day, in the order of their addition.
-/
structure Kept (added done : List (ℕ × A)) (hand : List A) (c : Calendar A) : Prop where
  accounts : ∀ day,
    onDay day (done ++ hand.map (Prod.mk c.now) ++ c.pending) = onDay day added
  pending_ge : ∀ item ∈ c.pending, c.now ≤ item.1
  done_le : ∀ item ∈ done, item.1 ≤ c.now
  ordered : done.Pairwise fun first second => first.1 ≤ second.1

namespace Kept

variable {added done : List (ℕ × A)} {hand : List A} {c : Calendar A}

theorem start : Kept [] [] [] (Calendar.start : Calendar A) where
  accounts := fun _ => rfl
  pending_ge := by simp [Calendar.start]
  done_le := by simp
  ordered := List.Pairwise.nil

theorem add (kept : Kept added done hand c) (delay : ℕ) (a : A) :
    Kept (added ++ [(c.now + delay, a)]) done hand (c.add delay a) where
  accounts := by
    intro day
    rw [onDay_append day added, ← kept.accounts day, ← onDay_append]
    simp only [Calendar.add, List.append_assoc]
  pending_ge := by
    intro item member
    rcases List.mem_append.mp member with old | new
    · exact kept.pending_ge item old
    · obtain rfl : item = (c.now + delay, a) := by simpa using new
      exact Nat.le_add_right _ _
  done_le := kept.done_le
  ordered := kept.ordered

theorem take (kept : Kept added done [] c) : Kept added done c.due c.take where
  accounts := by
    intro day
    rw [← kept.accounts day]
    simp only [onDay_append, take_now, List.map_nil, List.append_nil]
    by_cases today : day = c.now
    · subst today
      rw [onDay_map_same, onDay_take_now, List.append_nil, due]
    · rw [onDay_map_other (Ne.symm today), onDay_take_other c today, List.append_nil]
  pending_ge := fun item member => kept.pending_ge item (List.mem_of_mem_filter member)
  done_le := kept.done_le
  ordered := kept.ordered

theorem finish {a : A} (kept : Kept added done (a :: hand) c) :
    Kept added (done ++ [(c.now, a)]) hand c where
  accounts := by
    intro day
    rw [← kept.accounts day]
    simp
  pending_ge := kept.pending_ge
  done_le := by
    intro item member
    rcases List.mem_append.mp member with old | new
    · exact kept.done_le item old
    · obtain rfl : item = (c.now, a) := by simpa using new
      exact Nat.le_refl _
  ordered := by
    rw [List.pairwise_append]
    refine ⟨kept.ordered, List.pairwise_singleton _ _, ?_⟩
    intro first early second last
    obtain rfl : second = (c.now, a) := by simpa using last
    exact kept.done_le first early

theorem advance (kept : Kept added done [] c) (empty : c.due = []) :
    Kept added done [] c.advance where
  accounts := fun day => by rw [← kept.accounts day]; rfl
  pending_ge := by
    intro item member
    have later := kept.pending_ge item member
    have other : item.1 ≠ c.now := onDay_eq_nil_iff.mp empty item member
    simp only [advance_now]
    omega
  done_le := fun item member => Nat.le_succ_of_le (kept.done_le item member)
  ordered := kept.ordered

/-- The items done on a past day are those added for it. -/
theorem past (kept : Kept added done hand c) {day : ℕ} (past : day < c.now) :
    onDay day done = onDay day added := by
  have none : onDay day c.pending = [] := by
    rw [onDay_eq_nil_iff]
    intro item member same
    exact absurd (kept.pending_ge item member) (by omega)
  rw [← kept.accounts day]
  simp [none, onDay_map_other (Nat.ne_of_gt past)]

/-- No item is done before its day. -/
theorem future (kept : Kept added done hand c) {day : ℕ} (future : c.now < day) :
    onDay day done = [] := by
  rw [onDay_eq_nil_iff]
  intro item member same
  exact absurd (kept.done_le item member) (by omega)

end Kept

end Calendar

end WindLtask.Lib
