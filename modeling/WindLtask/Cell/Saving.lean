import WindLtask.Cell.State
import WindLtask.Lib.Transition

/-!
# Saving a cell to the database

The part of `service/state_cell.lua` that stores a persistent state: `delay_save`
with its timer, the database call inside the timer callback, which yields, and
`S.exit`.  The last fields of the state are history: how many patches have been
applied, which updates have been issued, and what the cell was like at each call
of `ltask.quit`.
-/

set_option linter.unusedSectionVars false

namespace WindLtask

variable {K V : Type} [DecidableEq K]

/-- The entry of `conf.persistence` for a collection. -/
structure Orm (K : Type) where
  delay : Nat
  /-- the keys that are stored; all keys where it is absent -/
  fliter : Option (K → Bool)

/-- `fliter(t)`, the document of an update. -/
def Orm.document (orm : Orm K) (t : Table K V) : Table K V :=
  match orm.fliter with
  | none => t
  | some stored =>
      t.pairs.foldl (fun new entry => if stored entry.1 then new.set entry.1 entry.2 else new)
        .empty

/-- An update that the cell has issued, and the number of patches applied before it. -/
structure Update (K V : Type) where
  applied : Nat
  document : Table K V

/-- A call of `ltask.quit`: the cell at that moment, and the last update issued before it. -/
structure Quit (K V : Type) where
  applied : Nat
  t : Table K V
  last : Option (Update K V)

/-- A cell with its variables `timing` and `quit`, and the calls that it waits for. -/
structure Saver (K V : Type) where
  cell : Cell K V
  timing : Bool
  quit : Bool
  /-- the timeouts that have not fired -/
  timers : Nat
  /-- the timer callbacks that wait for the database -/
  saving : Nat
  /-- the `patch` requests that wait for the database -/
  patching : Nat
  applied : Nat
  updates : List (Update K V)
  quits : List (Quit K V)

namespace Saver

/-- What happens to a cell. -/
inductive Event (K V : Type) where
  | patch (diff : Diff K V)
  | fire
  /-- the database answers a timer callback, or its call fails -/
  | saved
  | saveFailed
  /-- the database answers a `patch` request, or its call fails -/
  | patchSaved
  | exit

/-- The cell once its chunk has run. -/
def start (cell : Cell K V) : Saver K V where
  cell := cell
  timing := false
  quit := false
  timers := 0
  saving := 0
  patching := 0
  applied := 0
  updates := []
  quits := []

/-- `db[collname].update(query, {["$set"] = fliter(t)})` up to its yield. -/
def update (orm : Orm K) (s : Saver K V) : Saver K V :=
  { s with updates := s.updates ++ [⟨s.applied, orm.document s.cell.t⟩] }

/-- `ltask.quit()` -/
def ltaskQuit (s : Saver K V) : Saver K V :=
  { s with quits := s.quits ++ [⟨s.applied, s.cell.t, s.updates.getLast?⟩] }

/-- `delay_save(delay)` -/
def delaySave (s : Saver K V) : Saver K V :=
  if s.timing = false then { s with timing := true, timers := s.timers + 1 } else s

/-- `S.patch(diff)` of a cell with this configuration, up to its yield. -/
def patch (conf : Option (Orm K)) (diff : Diff K V) (s : Saver K V) : Saver K V :=
  let (cell, taken) := s.cell.patch diff
  if taken then
    let s := { s with cell := cell, applied := s.applied + 1 }
    match conf with
    | some orm =>
        if 0 < orm.delay then delaySave s
        else { s.update orm with patching := s.patching + 1 }
    | none => s
  -- `ltdiff.patch` raises
  else { s with cell := cell }

/-- The effect of an event. -/
def next (conf : Option (Orm K)) (s : Saver K V) : Event K V → Saver K V
  | .patch diff => s.patch conf diff
  | .fire =>
      match conf with
      | some orm =>
          let s := { s with timers := s.timers - 1, timing := false }
          { s.update orm with saving := s.saving + 1 }
      | none => s
  | .saved =>
      let s := { s with saving := s.saving - 1 }
      if s.quit then s.ltaskQuit else s
  | .saveFailed => { s with saving := s.saving - 1 }
  | .patchSaved => { s with patching := s.patching - 1 }
  | .exit => if s.timing then { s with quit := true } else s.ltaskQuit

/-- What can happen. -/
def Enabled (s : Saver K V) : Event K V → Prop
  | .fire => 0 < s.timers
  | .saved | .saveFailed => 0 < s.saving
  | .patchSaved => 0 < s.patching
  | .patch _ | .exit => True

/-- One step of a cell. -/
def Step (conf : Option (Orm K)) (s : Saver K V) (event : Event K V) (s' : Saver K V) : Prop :=
  s.Enabled event ∧ s' = s.next conf event

/-! ## Nothing is lost -/

/-- The last update was issued after the last patch, from this table. -/
def Current (orm : Orm K) (applied : Nat) (t : Table K V) : Option (Update K V) → Prop
  | some last => last.applied = applied ∧ last.document = orm.document t
  | none => applied = 0

/-- A patch has been applied after the last update. -/
def Behind (applied : Nat) : Option (Update K V) → Prop
  | some last => last.applied < applied
  | none => 0 < applied

/-- Whenever the cell has called `ltask.quit`, its table was stored. -/
def Stored (orm : Orm K) (s : Saver K V) : Prop :=
  ∀ quit ∈ s.quits, Current orm quit.applied quit.t quit.last

/-- No answer of the database finds the cell about to quit with a new timer under way. -/
def Calm (s : Saver K V) : Event K V → Prop
  | .saved => ¬ (s.quit = true ∧ s.timing = true)
  | _ => True

/-- A timer is under way exactly as long as a patch is not in an update. -/
structure Timed (orm : Orm K) (s : Saver K V) : Prop where
  timers : s.timers = if s.timing then 1 else 0
  current : s.timing = false → Current orm s.applied s.cell.t s.updates.getLast?
  behind : s.timing = true → Behind s.applied s.updates.getLast?
  reached : ∀ update ∈ s.updates, update.applied ≤ s.applied

theorem patch_of_raise {cell : Cell K V} {diff : Diff K V} (raises : (cell.patch diff).2 = false) :
    (cell.patch diff).1.t = cell.t := by
  unfold Cell.patch at raises ⊢
  cases taken : tablePatch diff cell.t with
  | some t => simp [taken] at raises
  | none => simp

namespace Timed

variable {orm : Orm K} {s s' : Saver K V}

theorem start (orm : Orm K) (cell : Cell K V) : Timed orm (start cell) :=
  ⟨rfl, fun _ => rfl, fun timing => (nomatch timing), fun _ member => (nomatch member)⟩

/-- Every update is behind the next patch. -/
theorem behind_succ (timed : Timed orm s) : Behind (s.applied + 1) s.updates.getLast? := by
  cases last : s.updates.getLast? with
  | none => exact Nat.succ_pos _
  | some update =>
      exact Nat.lt_succ_of_le (timed.reached update (List.mem_of_getLast? last))

/-- A patch starts the timer unless it is running. -/
theorem patch (timed : Timed orm s) (delayed : 0 < orm.delay) (diff : Diff K V) :
    Timed orm (s.patch (some orm) diff) ∧ (s.patch (some orm) diff).quits = s.quits := by
  have reached : ∀ update ∈ s.updates, update.applied ≤ s.applied + 1 :=
    fun update member => Nat.le_succ_of_le (timed.reached update member)
  unfold Saver.patch
  cases result : s.cell.patch diff with
  | mk cell taken =>
      cases taken with
      | true =>
          simp only [if_pos delayed, ↓reduceIte]
          unfold delaySave
          have timers := timed.timers
          cases timing : s.timing with
          | false =>
              rw [timing] at timers
              exact ⟨⟨by simpa using timers, fun off => (nomatch off), fun _ => timed.behind_succ,
                reached⟩, rfl⟩
          | true =>
              rw [timing] at timers
              exact ⟨⟨timers, fun off => (nomatch off), fun _ => timed.behind_succ, reached⟩, rfl⟩
      | false =>
          refine ⟨⟨timed.timers, fun off => ?_, timed.behind, timed.reached⟩, rfl⟩
          have same : cell.t = s.cell.t := by
            have raised := patch_of_raise (show (s.cell.patch diff).2 = false by rw [result])
            rwa [result] at raised
          show Current orm s.applied cell.t s.updates.getLast?
          rw [same]
          exact timed.current off

/-- The timer that fires is the only one, and its update is from the present table. -/
theorem fire (timed : Timed orm s) (enabled : s.Enabled .fire) :
    Timed orm (s.next (some orm) .fire) ∧ (s.next (some orm) .fire).quits = s.quits := by
  have enabled : 0 < s.timers := enabled
  have single : s.timers = 1 := by
    have timers := timed.timers
    split at timers
    · exact timers
    · omega
  refine ⟨⟨by simp [next, update, single], fun _ => ?_, fun on => (nomatch on), ?_⟩, rfl⟩
  · simp [next, update, Current]
  · intro last member
    rcases List.mem_append.mp member with before | new
    · exact timed.reached last before
    · obtain rfl := List.mem_singleton.mp new
      exact Nat.le_refl _

/-- Calls that end, and the last words of the cell, do not touch the table or its timer. -/
theorem keep (timed : Timed orm s) (cell : s'.cell = s.cell) (timing : s'.timing = s.timing)
    (timers : s'.timers = s.timers) (applied : s'.applied = s.applied)
    (updates : s'.updates = s.updates) : Timed orm s' := by
  refine ⟨?_, ?_, ?_, ?_⟩
  · rw [timing, timers]
    exact timed.timers
  · rw [timing, cell, applied, updates]
    exact timed.current
  · rw [timing, applied, updates]
    exact timed.behind
  · rw [applied, updates]
    exact timed.reached

theorem step (timed : Timed orm s) (delayed : 0 < orm.delay) {event : Event K V}
    (taken : Step (some orm) s event s') : Timed orm s' := by
  obtain ⟨enabled, rfl⟩ := taken
  cases event with
  | patch diff => exact (timed.patch delayed diff).1
  | fire => exact (timed.fire enabled).1
  | saved =>
      unfold next
      cases s.quit with
      | true => exact timed.keep rfl rfl rfl rfl rfl
      | false => exact timed.keep rfl rfl rfl rfl rfl
  | saveFailed => exact timed.keep rfl rfl rfl rfl rfl
  | patchSaved => exact timed.keep rfl rfl rfl rfl rfl
  | exit =>
      simp only [next]
      split
      · exact timed.keep rfl rfl rfl rfl rfl
      · exact timed.keep rfl rfl rfl rfl rfl

end Timed

theorem Stored.ltaskQuit {orm : Orm K} {s : Saver K V} (stored : Stored orm s)
    (current : Current orm s.applied s.cell.t s.updates.getLast?) : Stored orm s.ltaskQuit := by
  intro quit member
  rcases List.mem_append.mp member with before | new
  · exact stored quit before
  · obtain rfl := List.mem_singleton.mp new
    exact current

/-- A calm step loses nothing. -/
theorem Stored.step {orm : Orm K} {s s' : Saver K V} (stored : Stored orm s)
    (timed : Timed orm s) (delayed : 0 < orm.delay) {event : Event K V} (calm : s.Calm event)
    (taken : Step (some orm) s event s') : Stored orm s' := by
  obtain ⟨enabled, rfl⟩ := taken
  cases event with
  | patch diff =>
      intro quit member
      rw [show (s.next (some orm) (.patch diff)).quits = s.quits from
        (timed.patch delayed diff).2] at member
      exact stored quit member
  | fire =>
      intro quit member
      rw [(timed.fire enabled).2] at member
      exact stored quit member
  | saved =>
      unfold next
      cases quit : s.quit with
      | false => exact stored
      | true =>
          have idle : s.timing = false := by
            simpa using fun timing => calm ⟨quit, timing⟩
          exact Stored.ltaskQuit (s := { s with quit := true, saving := s.saving - 1 }) stored
            (timed.current idle)
  | saveFailed => exact stored
  | patchSaved => exact stored
  | exit =>
      unfold next
      cases timing : s.timing with
      | false =>
          exact Stored.ltaskQuit (s := { s with timing := false }) stored (timed.current timing)
      | true => exact stored

/-- A configuration with a delay and no filter. -/
def room : Orm Nat := ⟨3, none⟩

/-- The change of the key 1 to a value. -/
def assign (v : Nat) : Diff Nat Nat := Diff.ofParts [] (.scalar 1 v .empty) []

end Saver

end WindLtask
