import WindLtask.Manager.Effects

/-!
# What an unlock leaves behind

`unlock` frees its names one by one around calls to their cells, and wakes the
queue once after the loop.  The manager is run together with a record of the
patch calls that each `unlock` has made, and of the `unlock` that has just ended,
with or without an error.
-/

set_option linter.unusedSectionVars false

namespace WindLtask.Manager

variable {Name Addr Rid T D : Type} [DecidableEq Name] [DecidableEq Addr] [DecidableEq Rid]

/-- The names with a patch, in the order of the loop. -/
def patches (entries : List (Name × Option D)) : List (Name × D) :=
  entries.filterMap fun entry => entry.2.map (entry.1, ·)

/-- The manager with the patch calls it has made. -/
structure Ledger (Name Addr Rid D : Type) where
  world : World Name Addr Rid D
  /-- the entries of an `unlock`, in the order in which `pairs` visits them -/
  patchMap : Rid → List (Name × Option D)
  /-- the patch call under way, if it went to the cell of its name -/
  calling : Rid → Option (Name × D)
  /-- the patch calls that have returned -/
  applied : Rid → List (Name × D)
  /-- the `unlock` that ended in the last step -/
  ended : Option Rid

/-- A pass grants nothing to a request that has ended. -/
theorem World.Passed.phase_of_finished {w w' : World Name Addr Rid D}
    {woken : List (Rid × List Name)} (pass : Passed w w' woken) {rid : Rid}
    (finished : w.phase rid = .finished) : w'.phase rid = .finished := by
  rw [pass.phase rid, finished]
  split <;> rfl

namespace Ledger

/-- The start: no `unlock`. -/
def init : Ledger Name Addr Rid D where
  world := .init
  patchMap := fun _ => []
  calling := fun _ => none
  applied := fun _ => []
  ended := none

/-- Record an arriving message. -/
def receive (l : Ledger Name Addr Rid D) :
    Event Name Addr Rid T D → Ledger Name Addr Rid D
  | .unlock rid patchMap =>
      { l with patchMap := Function.update l.patchMap rid patchMap, ended := none }
  | .patched rid =>
      { l with
        calling := Function.update l.calling rid none
        applied := Function.update l.applied rid (l.applied rid ++ (l.calling rid).toList)
        ended := none }
  | .patchFailed rid => { l with calling := Function.update l.calling rid none, ended := none }
  | _ => { l with ended := none }

/-- Record a message sent. -/
def send (l : Ledger Name Addr Rid D) : Out Name Addr Rid T D → Ledger Name Addr Rid D
  | .patch rid addr patch =>
      { l with
        calling := Function.update l.calling rid
          (match l.world.proc.patching rid with
          | some (name, _) =>
              if l.world.proc.state name = some addr then some (name, patch) else none
          | none => none) }
  | .unlocked rid | .unlockRaised rid _ => { l with ended := some rid }
  | _ => l

/-- The manager handles one message. -/
def next (l : Ledger Name Addr Rid D) (event : Event Name Addr Rid T D) :
    Ledger Name Addr Rid D :=
  (l.world.proc.handle event).2.foldl send { l.receive event with world := l.world.next event }

/-- One step of the manager and its clients. -/
def Step (l : Ledger Name Addr Rid D) (event : Event Name Addr Rid T D)
    (l' : Ledger Name Addr Rid D) : Prop :=
  l.world.Enabled event ∧ l' = l.next event

/-- What an `unlock` has to leave behind when it ends. -/
structure Settled (l : Ledger Name Addr Rid D) (rid : Rid) : Prop where
  /-- the loop has set all its names free -/
  freed : ∀ entry ∈ l.patchMap rid, ¬ l.world.Covers rid entry.1
  /-- a name of it that is locked now has been granted to another request -/
  free : ∀ entry ∈ l.patchMap rid, l.world.proc.isLocked entry.1 →
    ∃ other ≠ rid, l.world.Covers other entry.1
  /-- each patch has been applied once by the cell of its name -/
  applied : l.applied rid = patches (l.patchMap rid)
  /-- no request that could be granted is left in the queue -/
  woken : ∀ entry ∈ l.world.proc.waitting, l.world.proc.Blocked entry.2

/-- The name at which the loop makes its next patch call. -/
def nextPatch : List (Name × Option D) → Option Name
  | [] => none
  | (name, some _) :: _ => some name
  | (_, none) :: rest => nextPatch rest

/-- The loop comes to a name that has a cell, and the call of the cell returns. -/
def Calm (l : Ledger Name Addr Rid D) : Event Name Addr Rid T D → Prop
  | .unlock _ patchMap => ∀ name ∈ nextPatch patchMap, (l.world.proc.state name).isSome
  | .patched rid => ∀ name rest, l.world.proc.patching rid = some (name, rest) →
      ∀ other ∈ nextPatch rest, (l.world.proc.state other).isSome
  | .patchFailed _ => False
  | _ => True

/-! ## The messages of one step -/

theorem nextPatch_of_plain {before : List (Name × Option D)}
    (plain : ∀ entry ∈ before, entry.2 = none) (rest : List (Name × Option D)) :
    nextPatch (before ++ rest) = nextPatch rest := by
  induction before with
  | nil => rfl
  | cons entry before ih =>
      obtain ⟨name, patch⟩ := entry
      cases plain (name, patch) List.mem_cons_self
      exact ih fun other member => plain other (List.mem_cons_of_mem _ member)

theorem patches_of_plain {before : List (Name × Option D)}
    (plain : ∀ entry ∈ before, entry.2 = none) : patches before = [] := by
  refine List.filterMap_eq_nil_iff.mpr fun entry member => ?_
  rw [plain entry member]
  rfl

theorem patches_append (first second : List (Name × Option D)) :
    patches (first ++ second) = patches first ++ patches second :=
  List.filterMap_append ..

/-- Lock replies are no part of the record. -/
theorem foldl_send_granted (entries : List (Rid × List (Option Addr)))
    (l : Ledger Name Addr Rid D) :
    (entries.map fun entry => Out.granted (T := T) (D := D) entry.1 entry.2).foldl send l = l := by
  induction entries with
  | nil => rfl
  | cons entry rest ih => exact ih

theorem next_eq (l : Ledger Name Addr Rid D) (event : Event Name Addr Rid T D) :
    l.next event =
      (l.world.proc.body event).2.foldl send
        { l.receive event with world := l.world.next event } := by
  simp only [next, Process.handle, List.foldl_append, Process.dispatchWakeup]
  exact foldl_send_granted ..

/-- The messages that a handler outside `unlock` sends are no part of the record. -/
theorem next_idle (l : Ledger Name Addr Rid D) {event : Event Name Addr Rid T D}
    (other : event.actor = none ∨ ∃ rid names, event = .lock rid names) :
    l.next event = { l with world := l.world.next event, ended := none } := by
  rw [next_eq]
  cases event with
  | newstate rid name t =>
      simp only [Process.body, Process.newstate]
      split <;> rfl
  | spawned rid addr =>
      simp only [Process.body, Process.spawned]
      split <;> rfl
  | spawnFailed rid => rfl
  | releasestate name =>
      simp only [Process.body, Process.releasestate]
      split <;> rfl
  | lock rid names =>
      simp only [Process.body, Process.lock]
      split <;> rfl
  | unlock | patched | patchFailed => simp [Event.actor] at other

/-- What the loop of an `unlock` does from the entries still to visit. -/
inductive Turn (l : Ledger Name Addr Rid D) (event : Event Name Addr Rid T D) (rid : Rid)
    (entries : List (Name × Option D)) : Ledger Name Addr Rid D → Prop where
  /-- it yields in the call of the cell of `name` -/
  | parks (before rest : List (Name × Option D)) (name : Name) (patch : D)
      (shape : entries = before ++ (name, some patch) :: rest)
      (plain : ∀ entry ∈ before, entry.2 = none) (cell : (l.world.proc.state name).isSome) :
      Turn l event rid entries
        { l.receive event with
          world := l.world.giveBack rid (before.map Prod.fst) (some (name, rest))
            (.unlocking (name :: rest.map Prod.fst))
          calling := Function.update (l.receive event).calling rid (some (name, patch)) }
  /-- it raises at `name`, which has no cell -/
  | raises (before rest : List (Name × Option D)) (name : Name) (patch : D)
      (shape : entries = before ++ (name, some patch) :: rest)
      (plain : ∀ entry ∈ before, entry.2 = none) (noCell : l.world.proc.state name = none) :
      Turn l event rid entries
        { l.receive event with
          world := l.world.giveBack rid (before.map Prod.fst) none
            (.stuck (name :: rest.map Prod.fst))
          ended := some rid }
  /-- it ends and wakes the queue -/
  | ends (plain : ∀ entry ∈ entries, entry.2 = none) :
      Turn l event rid entries
        { l.receive event with
          world := World.pass { l.world.giveBack rid (entries.map Prod.fst) none .finished with
            finished := l.world.finished ++ [rid] }
          ended := some rid }

open World (Returns Moves) in
theorem turn_of_returns {l : Ledger Name Addr Rid D} (sound : l.world.Sound)
    {event : Event Name Addr Rid T D} {rid : Rid} {entries : List (Name × Option D)}
    (returns : Returns l.world rid event entries) (enabled : l.world.Enabled event) :
    Turn l event rid entries (l.next event) := by
  have body := World.body_of_returns sound returns enabled
  have moved := World.moves_of_step sound ⟨enabled, rfl⟩
  generalize after : l.world.next event = w' at moved
  cases moved with
  | parked _ other before rest name patch addr returns' plain cell =>
      obtain ⟨rfl, rfl⟩ := returns.unique returns'
      have turn : Turn l event rid (before ++ (name, some patch) :: rest) _ :=
        .parks before rest name patch rfl plain (by rw [cell]; rfl)
      rw [next_eq, body, Process.unlockFrom_of_plain rid plain, after]
      simpa [Process.unlockFrom, Process.freeAll, cell, send, World.giveBack] using turn
  | raised _ other before rest name patch returns' plain noCell =>
      obtain ⟨rfl, rfl⟩ := returns.unique returns'
      have turn : Turn l event rid (before ++ (name, some patch) :: rest) _ :=
        .raises before rest name patch rfl plain noCell
      rw [next_eq, body, Process.unlockFrom_of_plain rid plain, after]
      simpa [Process.unlockFrom, Process.freeAll, noCell, send] using turn
  | returned _ other others returns' plain =>
      obtain ⟨rfl, rfl⟩ := returns.unique returns'
      rw [next_eq, body, ← List.append_nil entries, Process.unlockFrom_of_plain rid plain, after,
        List.append_nil]
      exact .ends plain
  | _ => cases returns

/-- A patch call that raises ends its `unlock`. -/
theorem next_failed {l : Ledger Name Addr Rid D} (sound : l.world.Sound) {rid : Rid} {name : Name}
    {rest : List (Name × Option D)} (parked : l.world.proc.patching rid = some (name, rest)) :
    l.next (.patchFailed (T := T) rid) =
      { l.receive (.patchFailed (T := T) rid) with
        world := l.world.giveBack rid [] none (.stuck (name :: rest.map Prod.fst))
        ended := some rid } := by
  have enabled : l.world.Enabled (.patchFailed (T := T) rid) := by
    simp [World.Enabled, parked]
  have moved := World.moves_of_step sound ⟨enabled, rfl⟩
  simp only [next_eq, Process.body, Process.patchFailed, parked, moved.of_patchFailed parked]
  rfl

theorem world_foldl_send (outs : List (Out Name Addr Rid T D)) (l : Ledger Name Addr Rid D) :
    (outs.foldl send l).world = l.world := by
  induction outs generalizing l with
  | nil => rfl
  | cons out outs ih =>
      rw [List.foldl_cons, ih]
      cases out <;> rfl

theorem world_next (l : Ledger Name Addr Rid D) (event : Event Name Addr Rid T D) :
    (l.next event).world = l.world.next event :=
  world_foldl_send ..

/-- A turn of one `unlock` is recorded for its own request alone. -/
theorem Turn.other {l l' : Ledger Name Addr Rid D} {event : Event Name Addr Rid T D} {rid : Rid}
    {entries : List (Name × Option D)} (turn : Turn l event rid entries l') {other : Rid}
    (apart : other ≠ rid) :
    l'.patchMap other = (l.receive event).patchMap other ∧
      l'.calling other = (l.receive event).calling other ∧
      l'.applied other = (l.receive event).applied other := by
  cases turn <;> simp [apart]

theorem receive_ended {l : Ledger Name Addr Rid D} {event : Event Name Addr Rid T D} {rid : Rid}
    {entries : List (Name × Option D)} (returns : World.Returns l.world rid event entries) :
    (l.receive event).ended = none := by
  cases returns <;> rfl

/-- The loop goes on calmly exactly when the next name with a patch has a cell. -/
theorem calm_iff {l : Ledger Name Addr Rid D} {event : Event Name Addr Rid T D} {rid : Rid}
    {entries : List (Name × Option D)} (returns : World.Returns l.world rid event entries) :
    l.Calm event ↔ ∀ name ∈ nextPatch entries, (l.world.proc.state name).isSome := by
  cases returns with
  | start patchMap => exact Iff.rfl
  | resume name rest parked =>
      constructor
      · exact fun calm => calm name rest parked
      · intro cells other tail parked'
        rw [parked] at parked'
        cases parked'
        exact cells

/-- A message is recorded for its own request alone. -/
theorem receive_other (l : Ledger Name Addr Rid D) {event : Event Name Addr Rid T D} {rid : Rid}
    (other : event.actor ≠ some rid) :
    (l.receive event).patchMap rid = l.patchMap rid ∧
      (l.receive event).calling rid = l.calling rid ∧
      (l.receive event).applied rid = l.applied rid := by
  cases event with
  | unlock actor | patched actor | patchFailed actor =>
      have apart : rid ≠ actor := fun same => other (congrArg some same.symm)
      simp [receive, apart]
  | _ => exact ⟨rfl, rfl, rfl⟩

/-! ## What the record says -/

/-- The record of one request, as long as no `unlock` has raised. -/
structure Told (l : Ledger Name Addr Rid D) (rid : Rid) : Prop where
  calm : ∀ left, l.world.phase rid ≠ .stuck left
  fresh : (∀ left, l.world.phase rid ≠ .unlocking left) → l.world.phase rid ≠ .finished →
    l.applied rid = []
  parked : ∀ name rest, l.world.proc.patching rid = some (name, rest) →
    ∃ patch, l.calling rid = some (name, patch) ∧
      l.applied rid ++ (name, patch) :: patches rest = patches (l.patchMap rid)
  done : l.world.phase rid = .finished → l.applied rid = patches (l.patchMap rid)

/-- What holds as long as no `unlock` has raised. -/
structure Recorded (l : Ledger Name Addr Rid D) : Prop where
  sound : l.world.Sound
  owned : l.world.Owned
  told : ∀ rid, Told l rid
  settled : ∀ rid, l.ended = some rid → Settled l rid

/-- A request that the message does not belong to keeps its record. -/
theorem Told.other {l l' : Ledger Name Addr Rid D} {rid : Rid} (told : Told l rid)
    {event : Event Name Addr Rid T D} (effects : World.Effects l.world l'.world event)
    (other : event.actor ≠ some rid) (patchMap : l'.patchMap rid = l.patchMap rid)
    (calling : l'.calling rid = l.calling rid) (applied : l'.applied rid = l.applied rid) :
    Told l' rid := by
  have patching := effects.patching rid other
  rcases effects.phase rid other with same | ⟨names, was, now⟩
  · constructor
    · rw [same]
      exact told.calm
    · rw [same, applied]
      exact told.fresh
    · rw [patching, calling, applied, patchMap]
      exact told.parked
    · rw [same, applied, patchMap]
      exact told.done
  · constructor
    · simp [now]
    · rw [applied]
      exact fun _ _ => told.fresh (by simp [was]) (by simp [was])
    · rw [patching, calling, applied, patchMap]
      exact told.parked
    · simp [now]

/-- An `unlock` that is suspended in a patch call. -/
theorem Told.of_parked {l : Ledger Name Addr Rid D} {rid : Rid} {left : List Name} {name : Name}
    {patch : D} {rest : List (Name × Option D)} (phase : l.world.phase rid = .unlocking left)
    (parked : l.world.proc.patching rid = some (name, rest))
    (calling : l.calling rid = some (name, patch))
    (whole : l.applied rid ++ (name, patch) :: patches rest = patches (l.patchMap rid)) :
    Told l rid where
  calm := by simp [phase]
  fresh := fun looping => absurd phase (looping left)
  parked := by
    intro name' rest' parked'
    rw [parked] at parked'
    cases parked'
    exact ⟨patch, calling, whole⟩
  done := by simp [phase]

/-- An `unlock` that has ended without an error. -/
theorem Told.of_finished {l : Ledger Name Addr Rid D} {rid : Rid} (sound : l.world.Sound)
    (phase : l.world.phase rid = .finished) (whole : l.applied rid = patches (l.patchMap rid)) :
    Told l rid where
  calm := by simp [phase]
  fresh := fun _ running => absurd phase running
  parked := by
    intro name rest parked
    have unlocking := (sound.suspended rid _).mpr ⟨name, rest, parked, rfl⟩
    simp [phase] at unlocking
  done := fun _ => whole

/-- An `unlock` that has ended without an error has left nothing behind. -/
theorem Settled.of_finished {l : Ledger Name Addr Rid D} {rid : Rid} (owned : l.world.Owned)
    (phase : l.world.phase rid = .finished) (whole : l.applied rid = patches (l.patchMap rid))
    (blocked : ∀ entry ∈ l.world.proc.waitting, l.world.proc.Blocked entry.2) :
    Settled l rid := by
  have covers : ∀ n, ¬ l.world.Covers rid n := by
    intro n covered
    rw [World.Covers, phase] at covered
    cases covered
  refine ⟨fun entry _ => covers entry.1, fun entry _ locked => ?_, whole, blocked⟩
  obtain ⟨holder, covered⟩ := owned entry.1 ((Process.isLocked_iff _ _).mp locked)
  exact ⟨holder, fun same => covers entry.1 (same ▸ covered), covered⟩

/-- A name with a patch that is still covered has been left behind. -/
theorem not_settled_of_covers {l : Ledger Name Addr Rid D} {rid : Rid} {name : Name} {patch : D}
    (patched : (name, patch) ∈ patches (l.patchMap rid)) (covered : l.world.Covers rid name) :
    ¬ l.Settled rid := by
  intro settled
  obtain ⟨⟨other, change⟩, member, same⟩ := List.mem_filterMap.mp patched
  obtain ⟨d, -, pair⟩ := Option.map_eq_some_iff.mp same
  obtain rfl : other = name := congrArg Prod.fst pair
  exact settled.freed _ member covered

/-- A new request has no record. -/
theorem Told.asked {l : Ledger Name Addr Rid D} {rid : Rid} {names : List Name} (told : Told l rid)
    (idle : l.world.phase rid = .idle) {w : World Name Addr Rid D} (sound : w.Sound)
    (phase : w.phase rid = .held names ∨ w.phase rid = .queued names) :
    Told { l with world := w, ended := none } rid where
  calm := by rcases phase with held | queued <;> simp [*]
  fresh := fun _ _ => told.fresh (by simp [idle]) (by simp [idle])
  parked := by
    intro name rest parked
    have unlocking := (sound.suspended rid _).mpr ⟨name, rest, parked, rfl⟩
    rcases phase with held | queued <;> simp_all
  done := by rcases phase with held | queued <;> simp [*]

namespace Recorded

theorem init : Recorded (init : Ledger Name Addr Rid D) where
  sound := World.sound_init
  owned := World.Owned.init
  told := fun _ =>
    { calm := by simp [Ledger.init, World.init]
      fresh := fun _ _ => rfl
      parked := by simp [Ledger.init, World.init, Process.init]
      done := by simp [Ledger.init, World.init] }
  settled := by simp [Ledger.init]

/-- The patches of a loop are those made and those to come. -/
theorem received {l : Ledger Name Addr Rid D} (recorded : Recorded l)
    {event : Event Name Addr Rid T D} {rid : Rid} {entries : List (Name × Option D)}
    (returns : World.Returns l.world rid event entries) (enabled : l.world.Enabled event) :
    (l.receive event).applied rid ++ patches entries =
      patches ((l.receive event).patchMap rid) := by
  cases returns with
  | start patchMap =>
      obtain ⟨names, held, -⟩ := enabled
      have fresh := (recorded.told rid).fresh (by simp [held]) (by simp [held])
      simp [receive, fresh]
  | resume name rest parked =>
      obtain ⟨patch, calling, whole⟩ := (recorded.told rid).parked name rest parked
      simpa [receive, calling, patches] using whole

/-- A step outside the loops of `unlock`. -/
theorem idle {l : Ledger Name Addr Rid D} (recorded : Recorded l)
    {event : Event Name Addr Rid T D} (taken : Step l event (l.next event))
    (other : event.actor = none ∨ ∃ rid names, event = .lock rid names) :
    Recorded (l.next event) := by
  have stepped : World.Step l.world event (l.world.next event) := ⟨taken.1, rfl⟩
  have moved := World.moves_of_step recorded.sound stepped
  have effects := World.effects_of_moves recorded.sound taken.1 moved
  have sound := recorded.sound.step stepped
  rw [next_idle l other]
  refine ⟨sound, recorded.owned.moves recorded.sound taken.1 moved, fun rid => ?_, by simp⟩
  by_cases own : event.actor = some rid
  · rcases other with none | ⟨rid', names, rfl⟩
    · rw [none] at own
      cases own
    · obtain rfl : rid' = rid := Option.some.inj own
      exact (recorded.told rid').asked taken.1 sound moved.of_lock.1
  · exact (recorded.told rid).other effects own rfl rfl rfl

/-- A message that lets a loop run to its end, or to its next call. -/
theorem turned {l : Ledger Name Addr Rid D} (recorded : Recorded l)
    {event : Event Name Addr Rid T D} {rid : Rid} {entries : List (Name × Option D)}
    (returns : World.Returns l.world rid event entries) (taken : Step l event (l.next event))
    (calm : l.Calm event) : Recorded (l.next event) := by
  have whole := recorded.received returns taken.1
  have cells := (calm_iff returns).mp calm
  have stepped : World.Step l.world event (l.world.next event) := ⟨taken.1, rfl⟩
  have moved := World.moves_of_step recorded.sound stepped
  have effects := World.effects_of_moves recorded.sound taken.1 moved
  have sound := recorded.sound.step stepped
  have owned := recorded.owned.moves recorded.sound taken.1 moved
  rw [← world_next] at effects sound owned
  have turn := turn_of_returns recorded.sound returns taken.1
  have others : ∀ other, other ≠ rid → Told (l.next event) other := by
    intro other apart
    have notActor : event.actor ≠ some other := by
      rw [returns.actor]
      exact fun same => apart (Option.some.inj same).symm
    obtain ⟨patchMap, calling, applied⟩ := turn.other apart
    obtain ⟨patchMap', calling', applied'⟩ := l.receive_other notActor
    exact (recorded.told other).other effects notActor (patchMap.trans patchMap')
      (calling.trans calling') (applied.trans applied')
  generalize l.next event = l' at turn sound owned others
  cases turn with
  | parks before rest name patch shape plain cell =>
      rw [shape, patches_append, patches_of_plain plain] at whole
      refine ⟨sound, owned, fun other => ?_, ?_⟩
      · by_cases here : other = rid
        · subst here
          exact .of_parked (Function.update_self ..) (Function.update_self ..)
            (Function.update_self ..) whole
        · exact others other here
      · intro other ended
        rw [receive_ended returns] at ended
        cases ended
  | raises before rest name patch shape plain noCell =>
      have cell := cells name (by rw [shape, nextPatch_of_plain plain]; rfl)
      rw [noCell] at cell
      cases cell
  | ends plain =>
      rw [patches_of_plain plain, List.append_nil] at whole
      have soundBack := recorded.sound.returned returns taken.1
      have pass := World.pass_spec _ soundBack.waits soundBack.quiet
      have phase := pass.phase_of_finished
        (show Function.update l.world.phase rid .finished rid = .finished from
          Function.update_self ..)
      refine ⟨sound, owned, fun other => ?_, ?_⟩
      · by_cases here : other = rid
        · subst here
          exact .of_finished sound phase whole
        · exact others other here
      · intro other ended
        obtain rfl : rid = other := Option.some.inj ended
        exact .of_finished owned phase whole pass.blocked

theorem step {l l' : Ledger Name Addr Rid D} (recorded : Recorded l)
    {event : Event Name Addr Rid T D} (calm : l.Calm event) (taken : Step l event l') :
    Recorded l' := by
  obtain ⟨enabled, rfl⟩ := taken
  cases event with
  | newstate | spawned | spawnFailed | releasestate => exact recorded.idle ⟨enabled, rfl⟩ (.inl rfl)
  | lock rid names => exact recorded.idle ⟨enabled, rfl⟩ (.inr ⟨rid, names, rfl⟩)
  | unlock rid patchMap => exact recorded.turned (.start patchMap) ⟨enabled, rfl⟩ calm
  | patched rid =>
      obtain ⟨⟨name, rest⟩, parked⟩ := Option.isSome_iff_exists.mp enabled
      exact recorded.turned (.resume name rest parked) ⟨enabled, rfl⟩ calm
  | patchFailed rid => exact calm.elim

/-- An `unlock` that raises keeps a name of its patch map. -/
theorem not_settled {l : Ledger Name Addr Rid D} (recorded : Recorded l)
    {event : Event Name Addr Rid T D} (enabled : l.world.Enabled event)
    (notCalm : ¬ l.Calm event) :
    ∃ rid, (l.next event).ended = some rid ∧ ¬ (l.next event).Settled rid := by
  have returning : ∀ {rid : Rid} {entries : List (Name × Option D)},
      World.Returns l.world rid event entries →
      (l.next event).ended = some rid ∧ ¬ (l.next event).Settled rid := by
    intro rid entries returns
    have whole := recorded.received returns enabled
    rw [calm_iff returns] at notCalm
    have turn := turn_of_returns recorded.sound returns enabled
    generalize l.next event = l' at turn
    cases turn with
    | parks before rest name patch shape plain cell =>
        rw [shape, nextPatch_of_plain plain] at notCalm
        exact absurd (fun other next => Option.some.inj next ▸ cell) notCalm
    | raises before rest name patch shape plain noCell =>
        have patched : (name, patch) ∈ patches ((l.receive event).patchMap rid) := by
          rw [← whole, shape, patches_append]
          exact List.mem_append_right _ (List.mem_append_right _ List.mem_cons_self)
        exact ⟨rfl, not_settled_of_covers patched
          (by simp [World.Covers, World.giveBack, Phase.covered])⟩
    | ends plain =>
        rw [← List.append_nil entries, nextPatch_of_plain plain] at notCalm
        exact absurd (fun other next => by cases next) notCalm
  cases event with
  | unlock rid patchMap => exact ⟨rid, returning (.start patchMap)⟩
  | patched rid =>
      obtain ⟨⟨name, rest⟩, parked⟩ := Option.isSome_iff_exists.mp enabled
      exact ⟨rid, returning (.resume name rest parked)⟩
  | patchFailed rid =>
      obtain ⟨⟨name, rest⟩, parked⟩ := Option.isSome_iff_exists.mp enabled
      obtain ⟨patch, calling, whole⟩ := (recorded.told rid).parked name rest parked
      have patched : (name, patch) ∈ patches (l.patchMap rid) := by
        rw [← whole]
        exact List.mem_append_right _ List.mem_cons_self
      have ended := next_failed (T := T) recorded.sound parked
      have covered : (l.next (.patchFailed (T := T) rid)).world.Covers rid name := by
        simp [ended, World.Covers, World.giveBack, Phase.covered]
      exact ⟨rid, by rw [ended], not_settled_of_covers (by rw [ended]; exact patched) covered⟩
  | _ => exact absurd trivial notCalm

end Recorded

/-! ## Runs -/

/--
In a run of the manager every `unlock` that ends has freed all its names, has had
each of its patches applied once and has woken every request it made grantable,
if and only if its loop only comes to names whose cells are there and no patch
call raises.
-/
theorem settled_iff_calm {steps : List (Ledger Name Addr Rid D × Event Name Addr Rid T D)}
    {l : Ledger Name Addr Rid D} (run : Lib.Run Step init steps l) :
    (∀ v ∈ Lib.visited steps l, ∀ rid, v.ended = some rid → v.Settled rid) ↔
      ∀ taken ∈ steps, taken.1.Calm taken.2 := by
  refine run.safe_iff Calm Recorded (fun v => ∀ rid, v.ended = some rid → v.Settled rid) .init ?_
    (fun _ recorded => recorded.settled) ?_
  · exact fun v event v' recorded calm taken => recorded.step calm taken
  · rintro v event v' recorded notCalm ⟨enabled, rfl⟩ settled
    obtain ⟨rid, ended, not⟩ := recorded.not_settled enabled notCalm
    exact not (settled rid ended)

/-- Two names are created, locked together and given back, one with a patch. -/
def payRun : List (Event Nat Nat Nat Unit Nat) :=
  [.newstate 1 7 (), .spawned 1 40, .newstate 2 8 (), .spawned 2 41, .lock 0 [7, 8], .lock 3 [7],
    .unlock 0 [(8, none), (7, some 5)], .patched 0]

/-- The name `8` is released while it is granted together with `7`. -/
def strandRun : List (Event Nat Nat Nat Unit Nat) :=
  [.newstate 1 7 (), .spawned 1 40, .newstate 2 8 (), .spawned 2 41, .lock 0 [7, 8], .lock 3 [7],
    .releasestate 8, .unlock 0 [(8, some 6), (7, some 5)]]

theorem payRun_legal :
    Lib.Legal (fun l event => l.world.Enabled event) next (init : Ledger Nat Nat Nat Nat)
      payRun := by
  refine ⟨rfl, ⟨rfl, fun n absent => ?_⟩, rfl, ⟨rfl, fun n entry => ?_⟩, rfl, rfl,
    ⟨[7, 8], rfl, by decide, by simp [or_comm]⟩, rfl, trivial⟩
  · exact Option.some_ne_none 40 absent.symm
  · exact World.new_of_single (by decide : 40 ≠ 41) 7 n entry

theorem settled_of_payRun :
    (∀ v ∈ Lib.visited (Lib.trace next init payRun)
        (payRun.foldl next (init : Ledger Nat Nat Nat Nat)),
        ∀ rid, v.ended = some rid → v.Settled rid) ↔
      ∀ taken ∈ Lib.trace next (init : Ledger Nat Nat Nat Nat) payRun, taken.1.Calm taken.2 :=
  settled_iff_calm (Lib.Run.of_legal payRun_legal)

theorem strandRun_legal :
    Lib.Legal (fun l event => l.world.Enabled event) next (init : Ledger Nat Nat Nat Nat)
      strandRun := by
  refine ⟨rfl, ⟨rfl, fun n absent => ?_⟩, rfl, ⟨rfl, fun n entry => ?_⟩, rfl, rfl, trivial,
    ⟨[7, 8], rfl, by decide, by simp [or_comm]⟩, trivial⟩
  · exact Option.some_ne_none 40 absent.symm
  · exact World.new_of_single (by decide : 40 ≠ 41) 7 n entry

/--
An `unlock` that comes to a released name raises: both its names stay locked, the
patch of the other one is not applied, and the request for it stays in the queue.
-/
theorem names_stranded :
    ∃ (steps : List (Ledger Nat Nat Nat Nat × Event Nat Nat Nat Unit Nat))
      (l : Ledger Nat Nat Nat Nat),
      Lib.Run Step init steps l ∧ l.ended = some 0 ∧ l.world.proc.isLocked 7 ∧
        l.world.proc.isLocked 8 ∧ l.world.Covers 0 7 ∧ l.applied 0 = [] ∧
        l.world.proc.waitting = [(3, [7])] ∧ ¬ l.Settled 0 := by
  have covered : (strandRun.foldl next init).world.Covers 0 7 := by
    simp only [World.Covers]
    decide
  refine ⟨_, _, Lib.Run.of_legal strandRun_legal, by decide, by decide, by decide, covered,
    by decide, by decide, fun settled => ?_⟩
  exact settled.freed (7, some 5) (by decide) covered

end Ledger

end WindLtask.Manager
