import WindLtask.Manager.Effects

/-!
# The cells of the manager

`newstate` looks for its name before it yields in `ltask.spawn` and writes the
entry afterwards, without a second look.  The manager is run together with a
record of the cells that it has spawned and not told to exit, so that a cell that
drops out of the table `state` stays in sight.
-/

set_option linter.unusedSectionVars false

namespace WindLtask.Manager

variable {Name Addr Rid T D : Type} [DecidableEq Name] [DecidableEq Addr] [DecidableEq Rid]

/-- The cells that are told to exit. -/
def exits : List (Out Name Addr Rid T D) → List Addr
  | [] => []
  | .exit addr :: rest => addr :: exits rest
  | _ :: rest => exits rest

/-- The manager with the cells it has made. -/
structure Census (Name Addr Rid D : Type) where
  world : World Name Addr Rid D
  /-- the cells spawned and not told to exit, each with its name -/
  live : Addr → Option Name
  /-- how many `newstate` calls for a name have succeeded since its last release -/
  created : Name → Nat
  /-- the live cells whose entry was overwritten -/
  lost : List Addr

namespace Census

/-- The start: no cell. -/
def init : Census Name Addr Rid D where
  world := .init
  live := fun _ => none
  created := fun _ => 0
  lost := []

/-- The manager handles one message. -/
def next (c : Census Name Addr Rid D) (event : Event Name Addr Rid T D) :
    Census Name Addr Rid D :=
  let told := exits (c.world.proc.handle event).2
  let live := fun addr => if addr ∈ told then none else c.live addr
  match event with
  | .spawned rid addr =>
      match c.world.proc.spawning rid with
      | none => { c with world := c.world.next event, live := live }
      | some name =>
          { world := c.world.next event
            live := Function.update live addr (some name)
            created := Function.update c.created name (c.created name + 1)
            lost := c.lost ++ (c.world.proc.state name).toList.filter fun old => (live old).isSome }
  | .releasestate name =>
      { c with
        world := c.world.next event
        live := live
        created := Function.update c.created name 0 }
  | _ => { c with world := c.world.next event, live := live }

/-- What can happen; `ltask.spawn` gives a new cell an address that no other one has. -/
def Enabled (c : Census Name Addr Rid D) (event : Event Name Addr Rid T D) : Prop :=
  c.world.Enabled event ∧
    match event with
    | .spawned _ addr => c.live addr = none
    | _ => True

/-- One step of the manager and its clients. -/
def Step (c : Census Name Addr Rid D) (event : Event Name Addr Rid T D)
    (c' : Census Name Addr Rid D) : Prop :=
  c.Enabled event ∧ c' = c.next event

/-- At most one live cell for each name, and the table `state` has it. -/
structure OneCell (c : Census Name Addr Rid D) : Prop where
  /-- at most one `newstate` succeeds between two releases -/
  once : ∀ n, c.created n ≤ 1
  /-- no entry has been overwritten while its cell was live -/
  kept : c.lost = []
  /-- every live cell is found under its name -/
  reachable : ∀ addr n, c.live addr = some n → c.world.proc.state n = some addr

/-- The spawn of a cell returns while its name has no entry. -/
def Vacant (c : Census Name Addr Rid D) : Event Name Addr Rid T D → Prop
  | .spawned rid _ => ∀ name, c.world.proc.spawning rid = some name →
      c.world.proc.state name = none
  | _ => True

/-! ## What one step does -/

theorem exits_append (first second : List (Out Name Addr Rid T D)) :
    exits (first ++ second) = exits first ++ exits second := by
  induction first with
  | nil => rfl
  | cons out rest ih => cases out <;> simp [exits, ih]

theorem exits_granted (entries : List (Rid × List (Option Addr))) :
    exits (entries.map fun entry => (.granted entry.1 entry.2 : Out Name Addr Rid T D)) = [] := by
  induction entries with
  | nil => rfl
  | cons entry rest ih => exact ih

theorem exits_unlockFrom (rid : Rid) (entries : List (Name × Option D))
    (p : Process Name Addr Rid D) :
    exits (Process.unlockFrom (T := T) rid entries p).2 = [] := by
  generalize ended : Process.unlockFrom rid entries p = result
  have cases := Process.unlockFrom_cases (T := T) rid entries p
  rw [ended] at cases
  cases cases <;> rfl

/-- Only `releasestate` tells a cell to exit. -/
theorem exits_handle (p : Process Name Addr Rid D) (event : Event Name Addr Rid T D) :
    exits (p.handle event).2 =
      match event with
      | .releasestate name => (p.state name).toList
      | _ => [] := by
  simp only [Process.handle, Process.dispatchWakeup, exits_append, exits_granted,
    List.append_nil]
  cases event with
  | newstate rid name t =>
      simp only [Process.body, Process.newstate]
      split <;> rfl
  | spawned rid addr =>
      simp only [Process.body, Process.spawned]
      split <;> rfl
  | spawnFailed rid => rfl
  | releasestate name =>
      simp only [Process.body, Process.releasestate]
      split
      · next addr cell => simp [exits, cell]
      · next cell => simp [exits, cell]
  | lock rid names =>
      simp only [Process.body, Process.lock]
      split <;> rfl
  | unlock rid patchMap => exact exits_unlockFrom rid patchMap p
  | patched rid =>
      simp only [Process.body, Process.patched]
      split
      · rfl
      · exact exits_unlockFrom ..
  | patchFailed rid =>
      simp only [Process.body, Process.patchFailed]
      split <;> rfl

/-- What holds as long as no spawn has returned on an occupied name. -/
structure Counted (c : Census Name Addr Rid D) : Prop where
  sound : c.world.Sound
  /-- the live cells are those of the table `state` -/
  cells : ∀ addr n, c.live addr = some n ↔ c.world.proc.state n = some addr
  created : ∀ n, c.created n = if (c.world.proc.state n).isSome then 1 else 0
  kept : c.lost = []

namespace Counted

theorem init : Counted (init : Census Name Addr Rid D) where
  sound := World.sound_init
  cells := by simp [Census.init, World.init, Process.init]
  created := fun _ => rfl
  kept := rfl

theorem oneCell {c : Census Name Addr Rid D} (counted : Counted c) : OneCell c where
  once n := by
    rw [counted.created]
    split <;> omega
  kept := counted.kept
  reachable addr n := (counted.cells addr n).mp

/-- The table `state` after a step. -/
theorem state {c c' : Census Name Addr Rid D} (counted : Counted c)
    {event : Event Name Addr Rid T D} (taken : Step c event c') :
    c'.world.Sound ∧ c'.world.proc.state = c.world.stateAfter event := by
  have world : c'.world = c.world.next event := by
    rw [taken.2]
    cases event with
    | spawned rid addr =>
        simp only [next]
        split <;> rfl
    | _ => rfl
  have stepped : World.Step c.world event c'.world := ⟨taken.1.1, world⟩
  exact ⟨counted.sound.step stepped,
    World.state_of_moves counted.sound taken.1.1 (World.moves_of_step counted.sound stepped)⟩

/-- A step that makes no cell and tells none to exit. -/
theorem keep {c c' : Census Name Addr Rid D} (counted : Counted c) (sound : c'.world.Sound)
    (state : c'.world.proc.state = c.world.proc.state) (live : c'.live = c.live)
    (created : c'.created = c.created) (lost : c'.lost = c.lost) : Counted c' where
  sound := sound
  cells := by rw [state, live]; exact counted.cells
  created := by rw [state, created]; exact counted.created
  kept := lost.trans counted.kept

theorem step {c c' : Census Name Addr Rid D} (counted : Counted c)
    {event : Event Name Addr Rid T D} (vacant : c.Vacant event) (taken : Step c event c') :
    Counted c' := by
  obtain ⟨sound, state⟩ := counted.state taken
  obtain ⟨⟨enabled, fresh⟩, rfl⟩ := taken
  cases event with
  | spawned rid addr =>
      obtain ⟨name, asked⟩ := Option.isSome_iff_exists.mp enabled.1
      have absent := vacant name asked
      have told : exits (c.world.proc.handle (T := T) (.spawned rid addr)).2 = [] :=
        exits_handle ..
      simp only [World.stateAfter, asked] at state
      refine ⟨sound, fun a n => ?_, fun n => ?_, ?_⟩
      · rw [state]
        simp only [next, asked, told, List.not_mem_nil, if_false, Function.update_apply]
        by_cases here : n = name
        · subst here
          by_cases new : a = addr
          · simp [new]
          · simp [new, counted.cells, absent, Ne.symm new]
        · by_cases new : a = addr
          · subst new
            simp [here, enabled.2 n, Ne.symm here]
          · simp [here, new, counted.cells]
      · rw [state]
        simp only [next, asked, Function.update_apply]
        by_cases here : n = name
        · subst here
          simp [counted.created, absent]
        · simp [here, counted.created]
      · simp [next, asked, absent, counted.kept]
  | releasestate name =>
      have told : exits (c.world.proc.handle (T := T) (.releasestate name)).2 =
          (c.world.proc.state name).toList := exits_handle ..
      simp only [World.stateAfter] at state
      refine ⟨sound, fun a n => ?_, fun n => ?_, counted.kept⟩
      · rw [state]
        simp only [next, told, Option.mem_toList, Function.update_apply]
        by_cases here : n = name
        · subst here
          by_cases gone : c.world.proc.state n = some a
          · simp [gone]
          · simp [gone, counted.cells]
        · by_cases gone : c.world.proc.state name = some a
          · have other := (counted.cells a name).mpr gone
            have apart : c.world.proc.state n ≠ some a := by
              intro also
              have same := other.symm.trans ((counted.cells a n).mpr also)
              exact here (Option.some.inj same).symm
            simp [gone, here, apart]
          · simp [gone, here, counted.cells]
      · rw [state]
        simp only [next, Function.update_apply]
        by_cases here : n = name
        · simp [here]
        · simp [here, counted.created]
  | newstate | spawnFailed | lock | unlock | patched | patchFailed =>
      exact counted.keep sound state (by simp [next, exits_handle]) rfl rfl

end Counted

/-! ## Runs -/

/-- A spawn that returns on an occupied name loses a live cell. -/
theorem not_oneCell_of_occupied {c : Census Name Addr Rid D} (counted : Counted c)
    {event : Event Name Addr Rid T D} (occupied : ¬ c.Vacant event) : ¬ (c.next event).OneCell := by
  cases event with
  | spawned rid addr =>
      simp only [Vacant, not_forall] at occupied
      obtain ⟨name, asked, entry⟩ := occupied
      obtain ⟨old, cell⟩ := Option.ne_none_iff_exists'.mp entry
      have live := (counted.cells old name).mpr cell
      intro one
      have kept := one.kept
      simp [next, asked, cell, exits_handle, live] at kept
  | _ => exact absurd trivial occupied

/--
In a run of the manager each name has at most one live cell, no entry of a live
cell is overwritten and every live cell is found under its name, if and only if
the spawn of a `newstate` returns only while its name has no cell.
-/
theorem oneCell_iff_vacant {steps : List (Census Name Addr Rid D × Event Name Addr Rid T D)}
    {c : Census Name Addr Rid D} (run : Lib.Run Step init steps c) :
    (∀ v ∈ Lib.visited steps c, v.OneCell) ↔ ∀ taken ∈ steps, taken.1.Vacant taken.2 := by
  refine run.safe_iff Vacant Counted OneCell .init ?_ (fun _ counted => counted.oneCell) ?_
  · exact fun v event v' counted vacant taken => counted.step vacant taken
  · rintro v event v' counted occupied ⟨-, rfl⟩
    exact not_oneCell_of_occupied counted occupied

/-- Two names are created at the same time, and one of them is released. -/
def apartRun : List (Event Nat Nat Nat Unit Unit) :=
  [.newstate 1 7 (), .newstate 2 8 (), .spawned 2 40, .spawned 1 41, .releasestate 7]

theorem apartRun_legal :
    Lib.Legal Enabled next (init : Census Nat Nat Nat Unit) apartRun := by
  refine ⟨⟨rfl, trivial⟩, ⟨rfl, trivial⟩, ⟨⟨rfl, fun n absent => ?_⟩, rfl⟩,
    ⟨⟨rfl, fun n entry => ?_⟩, rfl⟩, ⟨trivial, trivial⟩, trivial⟩
  · exact Option.some_ne_none 40 absent.symm
  · exact World.new_of_single (by decide : 40 ≠ 41) 8 n entry

theorem oneCell_of_apartRun :
    (∀ v ∈ Lib.visited (Lib.trace next init apartRun)
        (apartRun.foldl next (init : Census Nat Nat Nat Unit)), v.OneCell) ↔
      ∀ taken ∈ Lib.trace next (init : Census Nat Nat Nat Unit) apartRun,
        taken.1.Vacant taken.2 :=
  oneCell_iff_vacant (Lib.Run.of_legal apartRun_legal)

/-- Two services create one name at the same time. -/
def twiceRun : List (Event Nat Nat Nat Unit Unit) :=
  [.newstate 1 7 (), .newstate 2 7 (), .spawned 1 40, .spawned 2 41]

theorem twiceRun_legal :
    Lib.Legal Enabled next (init : Census Nat Nat Nat Unit) twiceRun := by
  refine ⟨⟨rfl, trivial⟩, ⟨rfl, trivial⟩, ⟨⟨rfl, fun n absent => ?_⟩, rfl⟩,
    ⟨⟨rfl, fun n entry => ?_⟩, rfl⟩, trivial⟩
  · exact Option.some_ne_none 40 absent.symm
  · exact World.new_of_single (by decide : 40 ≠ 41) 7 n entry

/-- Both creations of one name succeed, and the first cell can no longer be found. -/
theorem cell_lost :
    ∃ (steps : List (Census Nat Nat Nat Unit × Event Nat Nat Nat Unit Unit))
      (c : Census Nat Nat Nat Unit),
      Lib.Run Step init steps c ∧ c.created 7 = 2 ∧ c.lost = [40] ∧ c.live 40 = some 7 ∧
        c.world.proc.state 7 = some 41 ∧ ¬ c.OneCell := by
  refine ⟨_, _, Lib.Run.of_legal twiceRun_legal, by decide, by decide, by decide, by decide, ?_⟩
  exact fun one => absurd (one.once 7) (by decide)

end Census

end WindLtask.Manager
