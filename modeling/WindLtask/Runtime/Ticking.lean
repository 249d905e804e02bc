import Mathlib.Data.Int.Notation
import WindLtask.Lib.Transition
import WindLtask.Runtime.Timer

/-!
# Ticks of the timer

`timer_update` and `timer_update_tick` of `ltask/src/timer.c` with the calls of
`ltask_timer_add` that come between.  `timer_execute` gives the lock up while it
dispatches, so a step goes from one release of the lock to the next.
-/

namespace WindLtask.Runtime

variable {A : Type}

/-- Which of its two calls of `timer_execute` has given up the lock. -/
inductive Turn where
  | beforeShift
  | afterShift
deriving DecidableEq

/-- The timer with the call of `timer_update` that is under way. -/
structure Clock (A : Type) where
  wheel : Timer A
  current : ℕ
  currentPoint : ℕ
  /-- the calls of `timer_shift` that the loop of `timer_update` has still to make -/
  left : ℕ
  turn : Option Turn
  /-- what `dispatch_list` has still to dispatch -/
  hand : List A
  /-- calls of `timer_shift` so far -/
  ticks : ℕ
  /-- timers added and timers dispatched, with the tick for which and at which -/
  added : List (ℕ × A)
  fired : List (ℕ × A)

inductive TimerEvent (A : Type) where
  | timerAdd (arg : A) (ti : ℤ)
  | timerUpdate (cp : ℕ)
  | tick
  | dispatch
  | resume

/-- A cast to `int`. -/
def toInt (i : ℤ) : ℤ := (i + 2147483648) % 4294967296 - 2147483648

namespace Clock

/-- `timer_init` -/
def init (walltime mono : ℕ) : Clock A :=
  { wheel := Timer.new, current := walltime % 100, currentPoint := mono, left := 0,
    turn := none, hand := [], ticks := 0, added := [], fired := [] }

/-- `timer_update_tick` from its second call of `timer_execute` on. -/
def executeAfter (s : Clock A) : Clock A :=
  match s.wheel.execute with
  | some (hand, wheel) => { s with wheel := wheel, hand := hand, turn := some .afterShift }
  | none => { s with turn := none }

/-- `timer_update_tick` from its first call of `timer_execute` on. -/
def executeBefore (s : Clock A) : Clock A :=
  match s.wheel.execute with
  | some (hand, wheel) => { s with wheel := wheel, hand := hand, turn := some .beforeShift }
  | none =>
      executeAfter { s with wheel := s.wheel.shift, ticks := s.ticks + 1, left := s.left - 1 }

/-- The events that can happen next; the timer service alone calls `timer_update`. -/
def allowed (s : Clock A) : TimerEvent A → Prop
  | .timerAdd _ _ => True
  | .timerUpdate _ => s.turn = none ∧ s.left = 0
  | .tick => s.turn = none ∧ 0 < s.left
  | .dispatch => s.hand ≠ []
  | .resume => s.turn ≠ none ∧ s.hand = []

instance : (s : Clock A) → (event : TimerEvent A) → Decidable (s.allowed event)
  | _, .timerAdd _ _ => .isTrue trivial
  | s, .timerUpdate _ => inferInstanceAs (Decidable (s.turn = none ∧ s.left = 0))
  | s, .tick => inferInstanceAs (Decidable (s.turn = none ∧ 0 < s.left))
  | s, .dispatch => inferInstanceAs (Decidable (s.hand ≠ []))
  | s, .resume => inferInstanceAs (Decidable (s.turn ≠ none ∧ s.hand = []))

def next (s : Clock A) : TimerEvent A → Clock A
  | .timerAdd arg ti =>
      -- `luaL_error(L, "Invalid timer %d", ti)`
      if ti < 0 ∨ ti ≠ toInt ti then s
      else { s with
        wheel := s.wheel.add arg ti.toNat, added := s.added ++ [(s.ticks + ti.toNat, arg)] }
  | .timerUpdate cp =>
      if cp < s.currentPoint then { s with currentPoint := cp }
      else if cp ≠ s.currentPoint then
        let diff := (cp - s.currentPoint) % word
        { s with currentPoint := cp, current := s.current + diff, left := diff }
      else s
  | .tick => s.executeBefore
  | .dispatch =>
      match s.hand with
      | arg :: hand => { s with hand := hand, fired := s.fired ++ [(s.ticks, arg)] }
      | [] => s
  | .resume =>
      match s.turn with
      | some .beforeShift => s.executeBefore
      | some .afterShift => s.executeAfter
      | none => s

/-- Runs of the timer from `timer_init`. -/
def Runs (walltime mono : ℕ) (steps : List (Clock A × TimerEvent A)) (s : Clock A) : Prop :=
  Lib.Run (fun s event t => allowed s event ∧ t = next s event) (init walltime mono) steps s

/-! ## The invariant -/

/-- The wheel shows a calendar, whose history is what was added and what was fired. -/
def Accounts (s : Clock A) : Prop :=
  ∃ c : Lib.Calendar A, c.now = s.ticks ∧ s.wheel.Shows c ∧ c.Kept s.added s.fired s.hand

structure Sound (s : Clock A) : Prop where
  calendar : s.Accounts
  idle : s.turn = none → s.hand = []
  turns : s.turn = some .beforeShift → 0 < s.left

theorem Sound.init (walltime mono : ℕ) : (init walltime mono : Clock A).Sound where
  calendar := ⟨Lib.Calendar.start, rfl, Timer.Shows.new, Lib.Calendar.Kept.start⟩
  idle := fun _ => rfl
  turns := fun busy => (by cases busy)

theorem lt_of_toInt {ti : ℤ} (valid : ¬ (ti < 0 ∨ ti ≠ toInt ti)) : ti.toNat < 2147483648 := by
  unfold toInt at valid
  omega

theorem Sound.executeAfter {s : Clock A} (calendar : s.Accounts) (empty : s.hand = []) :
    s.executeAfter.Sound := by
  obtain ⟨c, now, shows, kept⟩ := calendar
  unfold Clock.executeAfter
  split
  · next hand wheel found =>
      obtain ⟨rfl, shows'⟩ := shows.execute_some found
      exact ⟨⟨c.take, now, shows', (empty ▸ kept).take⟩, fun idle => (by cases idle),
        fun before => (by cases before)⟩
  · exact ⟨⟨c, now, shows, kept⟩, fun _ => empty, fun before => (by cases before)⟩

theorem Sound.executeBefore {s : Clock A} (sound : s.Sound) (empty : s.hand = [])
    (busy : 0 < s.left) : s.executeBefore.Sound := by
  obtain ⟨c, now, shows, kept⟩ := sound.calendar
  unfold Clock.executeBefore
  split
  · next hand wheel found =>
      obtain ⟨rfl, shows'⟩ := shows.execute_some found
      exact ⟨⟨c.take, now, shows', (empty ▸ kept).take⟩, fun idle => (by cases idle), fun _ => busy⟩
  · next found =>
      have due := shows.execute_none found
      refine Sound.executeAfter ⟨c.advance, ?_, shows.shift due, ?_⟩ empty
      · exact congrArg (· + 1) now
      · exact empty ▸ (empty ▸ kept : c.Kept s.added s.fired []).advance due

theorem Sound.next {s : Clock A} (sound : s.Sound) (event : TimerEvent A)
    (can : s.allowed event) : (s.next event).Sound := by
  obtain ⟨c, now, shows, kept⟩ := sound.calendar
  cases event with
  | timerAdd arg ti =>
      simp only [Clock.next]
      split
      · exact sound
      · next valid =>
          refine ⟨⟨c.add ti.toNat arg, now, shows.add (lt_of_toInt valid) arg, ?_⟩,
            sound.idle, sound.turns⟩
          rw [← now]
          exact kept.add ti.toNat arg
  | timerUpdate cp =>
      simp only [Clock.next]
      split
      · exact ⟨⟨c, now, shows, kept⟩, sound.idle, sound.turns⟩
      · split
        · refine ⟨⟨c, now, shows, kept⟩, sound.idle, fun before => ?_⟩
          rw [can.1] at before
          cases before
        · exact sound
  | tick => exact sound.executeBefore (sound.idle can.1) can.2
  | dispatch =>
      simp only [Clock.next]
      split
      · next arg hand taken =>
          rw [taken] at kept
          refine ⟨⟨c, now, shows, ?_⟩, fun idle => ?_, sound.turns⟩
          · rw [← now]
            exact kept.finish
          · rw [sound.idle idle] at taken
            cases taken
      · exact sound
  | resume =>
      simp only [Clock.next]
      split
      · next before => exact sound.executeBefore can.2 (sound.turns before)
      · exact Sound.executeAfter sound.calendar can.2
      · exact sound

theorem Sound.of_runs {walltime mono : ℕ} {steps : List (Clock A × TimerEvent A)} {s : Clock A}
    (run : Runs walltime mono steps s) : s.Sound := by
  refine Lib.Run.invariant (fun _ _ => True) Sound (Sound.init walltime mono) ?_ run
    fun _ _ => trivial
  rintro s event t sound - ⟨can, rfl⟩
  exact sound.next event can

/--
Every timer is dispatched once, at its own tick and never before or after it, and
the timers of one tick in the order in which they were added: whatever the delays,
past the wrap of the 32-bit time, and with timers added while others are dispatched.
-/
theorem fires_on_time {walltime mono : ℕ} {steps : List (Clock A × TimerEvent A)} {s : Clock A}
    (run : Runs walltime mono steps s) :
    (∀ day, day < s.ticks → Lib.onDay day s.fired = Lib.onDay day s.added) ∧
      (∀ day, s.ticks < day → Lib.onDay day s.fired = []) ∧
      (Lib.onDay s.ticks s.fired ++ s.hand <+: Lib.onDay s.ticks s.added) ∧
      s.fired.Pairwise fun first second => first.1 ≤ second.1 := by
  obtain ⟨c, now, shows, kept⟩ := (Sound.of_runs run).calendar
  rw [← now]
  refine ⟨fun day past => kept.past past, fun day future => kept.future future, ?_, kept.ordered⟩
  refine ⟨Lib.onDay c.now c.pending, ?_⟩
  rw [← kept.accounts c.now]
  simp [Lib.onDay_map_same]

/-- Timers with timeouts 1 and 0, and a third one added while the second is dispatched. -/
def sample : List (TimerEvent ℕ) :=
  [.timerAdd 7 1, .timerAdd 8 0, .timerUpdate 6, .tick, .timerAdd 9 0, .dispatch, .resume,
    .dispatch, .resume, .dispatch, .resume]

theorem fires_on_time_sample :
    (sample.foldl next (init 0 5)).fired = [(0, 8), (0, 9), (1, 7)] ∧
      Lib.onDay 0 (sample.foldl next (init 0 5)).fired =
        Lib.onDay 0 (sample.foldl next (init 0 5)).added := by
  have run : Runs 0 5 (Lib.trace next (init 0 5) sample) (sample.foldl next (init 0 5)) :=
    Lib.Run.of_legal (by decide)
  exact ⟨by decide, (fires_on_time run).1 0 (by decide)⟩

/-! ## Ticks and clock readings -/

/-- The reading of `systime_mono` that an event makes. -/
def reading : TimerEvent A → Option ℕ
  | .timerUpdate cp => some cp
  | _ => none

def readings (steps : List (Clock A × TimerEvent A)) : List ℕ :=
  steps.filterMap fun taken => reading taken.2

/-- The ticks between two readings; a reading that goes back counts for none. -/
def diff (point cp : ℕ) : ℕ := if cp < point then 0 else (cp - point) % word

def elapsed : ℕ → List ℕ → ℕ
  | _, [] => 0
  | point, cp :: cps => diff point cp + elapsed cp cps

theorem elapsed_append (point cp : ℕ) (cps : List ℕ) :
    elapsed point (cps ++ [cp]) =
      elapsed point cps + diff ((point :: cps).getLast (by simp)) cp := by
  induction cps generalizing point with
  | nil => simp [elapsed]
  | cons first cps ih =>
      rw [List.cons_append, elapsed, ih first, elapsed, Nat.add_assoc]
      simp

theorem executeAfter_counts (s : Clock A) :
    s.executeAfter.ticks = s.ticks ∧ s.executeAfter.left = s.left ∧
      s.executeAfter.current = s.current ∧ s.executeAfter.currentPoint = s.currentPoint ∧
      s.executeAfter.added = s.added := by
  unfold executeAfter
  split <;> simp

theorem executeBefore_counts (s : Clock A) (busy : 0 < s.left) :
    s.executeBefore.ticks + s.executeBefore.left = s.ticks + s.left ∧
      s.executeBefore.current = s.current ∧ s.executeBefore.currentPoint = s.currentPoint ∧
      s.executeBefore.added = s.added := by
  unfold executeBefore
  split
  · simp
  · obtain ⟨ticks, left, current, point, added⟩ := executeAfter_counts
      { s with wheel := s.wheel.shift, ticks := s.ticks + 1, left := s.left - 1 }
    refine ⟨?_, current, point, added⟩
    rw [ticks, left]
    change s.ticks + 1 + (s.left - 1) = s.ticks + s.left
    omega

/-- Only `timer_update` changes what there is to count, and by the difference of two readings. -/
theorem next_counts {s : Clock A} (sound : s.Sound) (event : TimerEvent A) (can : s.allowed event) :
    match reading event with
    | some cp =>
        (s.next event).ticks + (s.next event).left =
          s.ticks + s.left + diff s.currentPoint cp ∧
        (s.next event).current = s.current + diff s.currentPoint cp ∧
        (s.next event).currentPoint = cp
    | none =>
        (s.next event).ticks + (s.next event).left = s.ticks + s.left ∧
        (s.next event).current = s.current ∧ (s.next event).currentPoint = s.currentPoint := by
  cases event with
  | timerAdd arg ti =>
      simp only [reading, next]
      split <;> simp
  | timerUpdate cp =>
      have rest : s.left = 0 := can.2
      simp only [reading, next, diff]
      split_ifs with back moved
      · simp
      · simp [rest]
      · obtain rfl : cp = s.currentPoint := by omega
        simp
  | tick =>
      obtain ⟨counts, current, point, -⟩ := executeBefore_counts s can.2
      exact ⟨counts, current, point⟩
  | dispatch =>
      simp only [reading, next]
      split <;> simp
  | resume =>
      simp only [reading, next]
      split
      · next before =>
          obtain ⟨counts, current, point, -⟩ := executeBefore_counts s (sound.turns before)
          exact ⟨counts, current, point⟩
      · obtain ⟨ticks, left, current, point, -⟩ := executeAfter_counts s
        exact ⟨by rw [ticks, left], current, point⟩
      · simp

theorem counts_of_runs {walltime mono : ℕ} {steps : List (Clock A × TimerEvent A)} {s : Clock A}
    (run : Runs walltime mono steps s) :
    s.ticks + s.left = elapsed mono (readings steps) ∧
      s.current = walltime % 100 + elapsed mono (readings steps) ∧
      s.currentPoint = (mono :: readings steps).getLast (by simp) := by
  induction run with
  | nil => simp [init, readings, elapsed]
  | @snoc steps s t event before last ih =>
      obtain ⟨can, rfl⟩ := last
      obtain ⟨counts, current, point⟩ := ih
      have step := next_counts (Sound.of_runs before) event can
      cases read : reading event with
      | some cp =>
          have grown : readings (steps ++ [(s, event)]) = readings steps ++ [cp] := by
            simp [readings, read]
          rw [read] at step
          obtain ⟨counts', current', point'⟩ := step
          simp only [grown, elapsed_append, ← point]
          refine ⟨by omega, by omega, ?_⟩
          rw [point']
          simp
      | none =>
          have same : readings (steps ++ [(s, event)]) = readings steps := by
            simp [readings, read]
          rw [read] at step
          simp only [same]
          exact ⟨step.1.trans counts, step.2.1.trans current, step.2.2.trans point⟩

/-- A clock that never goes back and never jumps by `2 ^ 32`. -/
def Steady (point : ℕ) (cps : List ℕ) : Prop :=
  (point :: cps).IsChain fun earlier later => earlier ≤ later ∧ later < earlier + word

theorem elapsed_of_steady {point : ℕ} {cps : List ℕ} (steady : Steady point cps) :
    point + elapsed point cps = (point :: cps).getLast (by simp) := by
  induction cps generalizing point with
  | nil => simp [elapsed]
  | cons cp cps ih =>
      obtain ⟨⟨forward, short⟩, rest⟩ := List.isChain_cons_cons.mp steady
      have own : diff point cp = cp - point := by
        rw [diff, if_neg (by omega), Nat.mod_eq_of_lt (by omega)]
      have later := ih rest
      rw [elapsed, own, List.getLast_cons (by simp), ← later]
      omega

/-! ## The end of an update -/

/-- The events of the call of `timer_update` itself. -/
def Own : TimerEvent A → Prop
  | .tick | .dispatch | .resume => True
  | .timerAdd _ _ | .timerUpdate _ => False

/-- Dispatching after the shift comes before the next tick, which comes before its own shift. -/
def stage : Option Turn → ℕ
  | some .afterShift => 2
  | none => 1
  | some .beforeShift => 0

def work (s : Clock A) : ℕ :=
  2 * (s.wheel.links (.n (s.wheel.time &&& timeNearMask))).length + s.hand.length

/-- Less is left to do: fewer shifts, or a later stage of a tick, or less to dispatch. -/
def Less (t s : Clock A) : Prop :=
  Prod.Lex (· < ·) (Prod.Lex (· < ·) (· < ·)) (t.left, stage t.turn, work t)
    (s.left, stage s.turn, work s)

namespace Less

variable {s t : Clock A}

theorem wellFounded : WellFounded (Less : Clock A → Clock A → Prop) :=
  InvImage.wf _ (Prod.lex ⟨_, Nat.lt_wfRel.wf⟩
    ⟨_, (Prod.lex ⟨_, Nat.lt_wfRel.wf⟩ ⟨_, Nat.lt_wfRel.wf⟩).wf⟩).wf

theorem of_left (fewer : t.left < s.left) : Less t s := Prod.Lex.left _ _ fewer

theorem of_stage (same : t.left = s.left) (later : stage t.turn < stage s.turn) : Less t s := by
  unfold Less
  rw [same]
  exact Prod.Lex.right _ (Prod.Lex.left _ _ later)

theorem of_work (same : t.left = s.left) (turn : t.turn = s.turn) (fewer : work t < work s) :
    Less t s := by
  unfold Less
  rw [same, turn]
  exact Prod.Lex.right _ (Prod.Lex.right _ fewer)

/-- The list that a turn of `timer_execute` takes goes from the wheel into the hand. -/
theorem work_execute {wheel : Timer A} {hand : List A} (empty : s.hand = [])
    (turn : s.wheel.execute = some (hand, wheel)) :
    2 * (wheel.links (.n (wheel.time &&& timeNearMask))).length + hand.length < work s := by
  simp only [Timer.execute] at turn
  split at turn
  · cases turn
  · next full =>
      obtain ⟨rfl, rfl⟩ : _ = hand ∧ _ = wheel := by simpa using turn
      have positive := List.length_pos_iff.mpr full
      simp only [work, empty, Timer.linkClear, Function.update_self, List.length_nil,
        List.length_map]
      omega

theorem executeAfter (empty : s.hand = []) (after : s.turn = some .afterShift) :
    Less s.executeAfter s := by
  unfold Clock.executeAfter
  split
  · next hand wheel found => exact of_work rfl after.symm (work_execute empty found)
  · exact of_stage rfl (by rw [after]; exact Nat.one_lt_two)

theorem executeBefore (empty : s.hand = []) (before : s.turn ≠ some .afterShift)
    (busy : 0 < s.left) : Less s.executeBefore s := by
  unfold Clock.executeBefore
  split
  · next hand wheel found =>
      cases turn : s.turn with
      | none => exact of_stage rfl (by rw [turn]; exact Nat.one_pos)
      | some turn' =>
          cases turn' with
          | beforeShift => exact of_work rfl turn.symm (work_execute empty found)
          | afterShift => exact absurd turn before
  · apply of_left
    rw [(executeAfter_counts _).2.1]
    exact Nat.sub_lt busy Nat.one_pos

end Less

/-- While an update is under way, the lock can be taken or something dispatched. -/
theorem own_step {s : Clock A} (sound : s.Sound) (busy : ¬ (s.turn = none ∧ s.left = 0)) :
    ∃ event, Own event ∧ s.allowed event ∧ Less (s.next event) s ∧
      (s.next event).added = s.added := by
  by_cases full : s.hand = []
  · cases turn : s.turn with
    | none =>
        have left : 0 < s.left := Nat.pos_of_ne_zero fun zero => busy ⟨turn, zero⟩
        exact ⟨.tick, trivial, ⟨turn, left⟩, Less.executeBefore full (by simp [turn]) left,
          (executeBefore_counts s left).2.2.2⟩
    | some turn' =>
        refine ⟨.resume, trivial, ⟨by simp [turn], full⟩, ?_⟩
        cases turn' with
        | beforeShift =>
            have left := sound.turns turn
            simp only [next, turn]
            exact ⟨Less.executeBefore full (by simp [turn]) left,
              (executeBefore_counts s left).2.2.2⟩
        | afterShift =>
            simp only [next, turn]
            exact ⟨Less.executeAfter full turn, (executeAfter_counts s).2.2.2.2⟩
  · obtain ⟨arg, hand, taken⟩ := List.exists_cons_of_ne_nil full
    refine ⟨.dispatch, trivial, full, ?_⟩
    have step : s.next .dispatch =
        { s with hand := hand, fired := s.fired ++ [(s.ticks, arg)] } := by
      simp only [next, taken]
    rw [step]
    exact ⟨Less.of_work rfl rfl (by simp [work, taken]), rfl⟩

/-- An update during which no timer is added comes to its end. -/
theorem settles {s : Clock A} (sound : s.Sound) : ∃ events : List (TimerEvent A),
    (∀ event ∈ events, Own event) ∧ Lib.Legal allowed next s events ∧
      (events.foldl next s).turn = none ∧ (events.foldl next s).left = 0 ∧
      (events.foldl next s).added = s.added := by
  induction s using Less.wellFounded.induction with
  | _ s ih =>
      by_cases busy : s.turn = none ∧ s.left = 0
      · exact ⟨[], by simp, trivial, busy.1, busy.2, rfl⟩
      · obtain ⟨event, own, can, less, added⟩ := own_step sound busy
        obtain ⟨events, owns, legal, turn, left, same⟩ := ih _ less (sound.next event can)
        exact ⟨event :: events, List.forall_mem_cons.mpr ⟨own, owns⟩, ⟨can, legal⟩, turn, left,
          same.trans added⟩

theorem readings_trace (s : Clock A) (events : List (TimerEvent A)) :
    readings (Lib.trace next s events) = events.filterMap reading := by
  induction events generalizing s with
  | nil => rfl
  | cons event events ih =>
      simp only [Lib.trace, readings, List.filterMap_cons] at ih ⊢
      rw [ih]

theorem filterMap_own {events : List (TimerEvent A)} (owns : ∀ event ∈ events, Own event) :
    events.filterMap reading = [] := by
  rw [List.filterMap_eq_nil_iff]
  intro event member
  have own := owns event member
  cases event with
  | timerUpdate cp => exact own.elim
  | timerAdd arg ti => rfl
  | tick => rfl
  | dispatch => rfl
  | resume => rfl

/--
An update during which no timer is added ends, and then the ticks are the clock
reading: exactly the timers of the past ticks have been dispatched, and
`timer_now` is that reading too.
-/
theorem update_completes {walltime mono : ℕ} {steps : List (Clock A × TimerEvent A)}
    {s : Clock A} (run : Runs walltime mono steps s) (steady : Steady mono (readings steps)) :
    ∃ events : List (TimerEvent A), (∀ event ∈ events, Own event) ∧
      Lib.Legal allowed next s events ∧
      ∃ t, t = events.foldl next s ∧ t.turn = none ∧ t.left = 0 ∧
        mono + t.ticks = s.currentPoint ∧ t.current = walltime % 100 + t.ticks ∧
        (∀ day, day < t.ticks → Lib.onDay day t.fired = Lib.onDay day s.added) ∧
        ∀ day, t.ticks < day → Lib.onDay day t.fired = [] := by
  obtain ⟨events, owns, legal, turn, left, added⟩ := settles (Sound.of_runs run)
  refine ⟨events, owns, legal, _, rfl, turn, left, ?_⟩
  have longer : Runs walltime mono (steps ++ Lib.trace next s events) (events.foldl next s) :=
    Lib.Run.extend run legal
  have same : readings (steps ++ Lib.trace next s events) = readings steps := by
    have none := (readings_trace s events).trans (filterMap_own owns)
    simp only [readings, List.filterMap_append] at none ⊢
    rw [none, List.append_nil]
  obtain ⟨counts, current, -⟩ := counts_of_runs longer
  obtain ⟨-, -, point⟩ := counts_of_runs run
  obtain ⟨c, now, -, kept⟩ := (Sound.of_runs longer).calendar
  have ticks := elapsed_of_steady steady
  rw [same, left] at counts
  rw [same] at current
  rw [added] at kept
  refine ⟨by omega, by omega, ?_, ?_⟩
  · rw [← now]
    exact fun day past => kept.past past
  · rw [← now]
    exact fun day future => kept.future future

theorem update_completes_sample :
    ∃ events : List (TimerEvent ℕ), (∀ event ∈ events, Own event) ∧
      Lib.Legal allowed next ((sample.take 5).foldl next (init 0 5)) events ∧
      ∃ t, t = events.foldl next ((sample.take 5).foldl next (init 0 5)) ∧ t.ticks = 1 := by
  have run : Runs 0 5 (Lib.trace next (init 0 5) (sample.take 5))
      ((sample.take 5).foldl next (init 0 5)) := Lib.Run.of_legal (by decide)
  obtain ⟨events, owns, legal, t, here, -, -, ticks, -⟩ :=
    update_completes run (by rw [readings_trace]; unfold Steady; decide)
  refine ⟨events, owns, legal, t, here, ?_⟩
  have point : ((sample.take 5).foldl next (init 0 5)).currentPoint = 6 := by decide
  omega

end Clock

end WindLtask.Runtime
