import WindLtask.Manager.World

/-!
# What one step of the manager does

Every message is unfolded once.  The results say which part of the process and
of the history changes, and the later modules never look inside a handler.
-/

set_option linter.unusedSectionVars false

namespace WindLtask.Manager

variable {Name Addr Rid T D : Type} [DecidableEq Name] [DecidableEq Rid]

namespace Process

/-- The process after the names in `names` have been set free. -/
def freeAll (names : List Name) (p : Process Name Addr Rid D) : Process Name Addr Rid D :=
  { p with locked := fun n => if n ∈ names then some false else p.locked n }

theorem freeAll_nil (p : Process Name Addr Rid D) : freeAll [] p = p := by
  simp [freeAll]

theorem freeAll_cons (name : Name) (rest : List Name) (p : Process Name Addr Rid D) :
    freeAll (name :: rest) p = freeAll rest (p.free name) := by
  have same : (fun n => if n ∈ name :: rest then some false else p.locked n) =
      fun n => if n ∈ rest then some false else Function.update p.locked name (some false) n := by
    funext n
    by_cases inRest : n ∈ rest
    · simp [inRest]
    · by_cases here : n = name <;> simp [inRest, here]
  simp only [freeAll, free, same]

/-- The loop passes the names without a patch and stops in the first `patch` call. -/
theorem unlockFrom_of_plain (rid : Rid) {before : List (Name × Option D)}
    (plain : ∀ entry ∈ before, entry.2 = none) (rest : List (Name × Option D))
    (p : Process Name Addr Rid D) :
    unlockFrom (T := T) rid (before ++ rest) p =
      unlockFrom rid rest (freeAll (before.map Prod.fst) p) := by
  induction before generalizing p with
  | nil => rw [List.map_nil, freeAll_nil, List.nil_append]
  | cons entry before ih =>
      obtain ⟨name, patch⟩ := entry
      cases plain (name, patch) List.mem_cons_self
      rw [List.map_cons, freeAll_cons]
      exact ih (fun other member => plain other (List.mem_cons_of_mem _ member)) (p.free name)

/-- The ways in which the loop of `unlock` can go on from the entries still to visit. -/
inductive Unlocks (rid : Rid) (entries : List (Name × Option D)) (p : Process Name Addr Rid D) :
    Process Name Addr Rid D × List (Out Name Addr Rid T D) → Prop where
  /-- it yields in the call that patches the cell of `name` -/
  | suspend (before rest : List (Name × Option D)) (name : Name) (patch : D) (addr : Addr)
      (shape : entries = before ++ (name, some patch) :: rest)
      (plain : ∀ entry ∈ before, entry.2 = none) (cell : p.state name = some addr) :
      Unlocks rid entries p
        ({ freeAll (before.map Prod.fst) p with
            patching := Function.update p.patching rid (some (name, rest)) },
          [.patch rid addr patch])
  /-- it raises because `name` has no cell any more -/
  | raise (before rest : List (Name × Option D)) (name : Name) (patch : D)
      (shape : entries = before ++ (name, some patch) :: rest)
      (plain : ∀ entry ∈ before, entry.2 = none) (noCell : p.state name = none) :
      Unlocks rid entries p
        (freeAll (before.map Prod.fst) p, [.unlockRaised rid (name :: rest.map Prod.fst)])
  /-- it ends and wakes the queue -/
  | finish (plain : ∀ entry ∈ entries, entry.2 = none) :
      Unlocks rid entries p ((freeAll (entries.map Prod.fst) p).tryWakup, [.unlocked rid])

theorem unlockFrom_cases (rid : Rid) (entries : List (Name × Option D))
    (p : Process Name Addr Rid D) :
    Unlocks (T := T) rid entries p (unlockFrom rid entries p) := by
  induction entries generalizing p with
  | nil =>
      have done : Unlocks (T := T) rid [] p _ := .finish (by simp)
      rwa [List.map_nil, freeAll_nil] at done
  | cons entry rest ih =>
      obtain ⟨name, patch⟩ := entry
      cases patch with
      | some patch =>
          cases cell : p.state name with
          | some addr =>
              have done : Unlocks (T := T) rid _ p _ :=
                .suspend [] rest name patch addr rfl (by simp) cell
              simpa [unlockFrom, cell, freeAll_nil] using done
          | none =>
              have done : Unlocks (T := T) rid _ p _ :=
                .raise [] rest name patch rfl (by simp) cell
              simpa [unlockFrom, cell, freeAll_nil] using done
      | none =>
          have plainCons {before : List (Name × Option D)}
              (plain : ∀ entry ∈ before, entry.2 = none) :
              ∀ entry ∈ (name, (none : Option D)) :: before, entry.2 = none := by
            simpa using plain
          have later := ih (p.free name)
          simp only [unlockFrom]
          generalize unlockFrom rid rest (p.free name) = result at later
          cases later with
          | suspend before tail other patch addr shape plain cell =>
              rw [← freeAll_cons]
              exact .suspend ((name, none) :: before) tail other patch addr (by rw [shape]; rfl)
                (plainCons plain) cell
          | raise before tail other patch shape plain noCell =>
              rw [← freeAll_cons]
              exact .raise ((name, none) :: before) tail other patch (by rw [shape]; rfl)
                (plainCons plain) noCell
          | finish plain =>
              rw [← freeAll_cons]
              exact .finish (plainCons plain)

end Process

namespace World

open Process

/-! ## The pass and its history -/

/-- Run the woken coroutines and record their replies. -/
def dispatch (w : World Name Addr Rid D) : World Name Addr Rid D :=
  (w.proc.dispatchWakeup (T := Unit)).2.foldl send
    { w with proc := (w.proc.dispatchWakeup (T := Unit)).1 }

/-- `try_wakup()` at the end of a handler, followed by the woken coroutines. -/
def pass (w : World Name Addr Rid D) : World Name Addr Rid D :=
  dispatch { w with proc := w.proc.tryWakup }

/-- The history after the requests `woken` have been granted, in this order. -/
structure Passed (w w' : World Name Addr Rid D) (woken : List (Rid × List Name)) : Prop where
  proc : ∃ q, Woken w.proc q woken ∧ w'.proc = { q with wakeupQueue := [] }
  blocked : ∀ entry ∈ w'.proc.waitting, w'.proc.Blocked entry.2
  phase : ∀ rid, w'.phase rid =
    if rid ∈ woken.map Prod.fst then (w.phase rid).grant else w.phase rid
  requests : w'.requests = w.requests
  replies : w'.replies = w.replies ++
    woken.map fun entry => ⟨entry.1, entry.2.map w.proc.state, w.proc.state⟩
  finished : w'.finished = w.finished

theorem grant_grant (phase : Phase Name) : phase.grant.grant = phase.grant := by
  cases phase <;> rfl

theorem grant_eq_unlocking {phase : Phase Name} {left : List Name} :
    phase.grant = .unlocking left ↔ phase = .unlocking left := by
  cases phase <;> simp [Phase.grant]

/-- Sending lock replies records each of them and moves its request to `held`. -/
theorem foldl_send_granted (entries : List (Rid × List (Option Addr)))
    (w : World Name Addr Rid D) :
    (entries.map fun entry => Out.granted (T := T) (D := D) entry.1 entry.2).foldl send w =
      { w with
        phase := fun rid =>
          if rid ∈ entries.map Prod.fst then (w.phase rid).grant else w.phase rid
        replies := w.replies ++ entries.map fun entry => ⟨entry.1, entry.2, w.proc.state⟩ } := by
  induction entries generalizing w with
  | nil => simp
  | cons entry rest ih =>
      rw [List.map_cons, List.foldl_cons, ih]
      simp only [send, List.append_assoc, List.map_cons, List.singleton_append]
      congr 1
      funext rid
      by_cases same : rid = entry.1
      · subst same
        simp [grant_grant]
      · rw [Function.update_of_ne same]
        exact if_congr (by simp [same]) rfl rfl

theorem pass_spec (w : World Name Addr Rid D) (waits : w.proc.Waits)
    (quiet : w.proc.wakeupQueue = []) :
    Passed w w.pass (grants w.proc.locked w.proc.waitting) := by
  obtain ⟨done, blocked⟩ := tryWakup_spec waits
  have shape : w.pass = _ := foldl_send_granted (T := Unit) w.proc.tryWakup.wakeupQueue
    { w with proc := { w.proc.tryWakup with wakeupQueue := [] } }
  have queue := done.queue
  rw [quiet, List.nil_append] at queue
  rw [shape]
  constructor
  · exact ⟨_, done, rfl⟩
  · exact blocked
  · intro rid
    exact if_congr (by rw [queue, List.map_map]; rfl) rfl rfl
  · rfl
  · simp [queue, done.state]
  · rfl

/-! ## The history agrees with the process -/

/-- What the history and the process say of each other, in every reachable state. -/
structure Sound (w : World Name Addr Rid D) : Prop where
  waits : w.proc.Waits
  quiet : w.proc.wakeupQueue = []
  queued : ∀ rid names, (rid, names) ∈ w.proc.waitting ↔ w.phase rid = .queued names
  suspended : ∀ rid left, w.phase rid = .unlocking left ↔
    ∃ name rest, w.proc.patching rid = some (name, rest) ∧ left = name :: rest.map Prod.fst
  distinct : ∀ rid left, w.phase rid = .unlocking left → left.Nodup
  requested : ∀ rid, rid ∈ w.requests.map Prod.fst ↔ w.phase rid ≠ .idle
  once : (w.requests.map Prod.fst).Nodup
  named : ∀ rid names, w.phase rid = .queued names ∨ w.phase rid = .held names →
    (rid, names) ∈ w.requests
  replied : ∀ rid, rid ∈ w.replies.map Reply.rid ↔
    w.phase rid ≠ .idle ∧ ∀ names, w.phase rid ≠ .queued names
  repliedOnce : (w.replies.map Reply.rid).Nodup
  answers : ∀ reply ∈ w.replies, ∃ names, (reply.rid, names) ∈ w.requests ∧
    reply.list = names.map reply.cells
  finished : ∀ rid, rid ∈ w.finished ↔ w.phase rid = .finished
  finishedOnce : w.finished.Nodup

/-! ## One step -/

/-- The message lets the `unlock` of `rid` run over `entries`, a name already patched first. -/
inductive Returns (w : World Name Addr Rid D) (rid : Rid) :
    Event Name Addr Rid T D → List (Name × Option D) → Prop where
  | start (patchMap : List (Name × Option D)) : Returns w rid (.unlock rid patchMap) patchMap
  | resume (name : Name) (rest : List (Name × Option D))
      (parked : w.proc.patching rid = some (name, rest)) :
      Returns w rid (.patched rid) ((name, none) :: rest)

/-- The world once `rid` has given back `names` and stands at `phase`. -/
def giveBack (w : World Name Addr Rid D) (rid : Rid) (names : List Name)
    (parked : Option (Name × List (Name × Option D))) (phase : Phase Name) :
    World Name Addr Rid D :=
  { w with
    proc := { freeAll names w.proc with
      patching := Function.update w.proc.patching rid parked }
    phase := Function.update w.phase rid phase }

/-- The effects that a message can have. -/
inductive Moves (w : World Name Addr Rid D) : Event Name Addr Rid T D →
    World Name Addr Rid D → Prop where
  | createRaised (rid : Rid) (name : Name) (t : T) (taken : (w.proc.state name).isSome) :
      Moves w (.newstate rid name t) w
  | creating (rid : Rid) (name : Name) (t : T) (absent : w.proc.state name = none) :
      Moves w (.newstate rid name t)
        { w with proc := { w.proc with
            spawning := Function.update w.proc.spawning rid (some name) } }
  | createFailed (rid : Rid) :
      Moves w (.spawnFailed rid)
        { w with proc := { w.proc with spawning := Function.update w.proc.spawning rid none } }
  | created (rid : Rid) (addr : Addr) (name : Name) (asked : w.proc.spawning rid = some name) :
      Moves w (.spawned rid addr)
        (pass { w with proc := { w.proc with
            state := Function.update w.proc.state name (some addr)
            locked := Function.update w.proc.locked name (some false)
            spawning := Function.update w.proc.spawning rid none } })
  | released (name : Name) :
      Moves w (.releasestate name)
        { w with proc := { w.proc with state := Function.update w.proc.state name none } }
  | granted (rid : Rid) (names : List Name) (ready : ¬ w.proc.Blocked names) :
      Moves w (.lock rid names)
        { w with
          proc := { w.proc with locked := lockAll names w.proc.locked }
          phase := Function.update w.phase rid (.held names)
          requests := w.requests ++ [(rid, names)]
          replies := w.replies ++ [⟨rid, names.map w.proc.state, w.proc.state⟩] }
  | queued (rid : Rid) (names : List Name) (blocked : w.proc.Blocked names) :
      Moves w (.lock rid names)
        { w with
          proc := { w.proc with
            waitting := w.proc.waitting ++ [(rid, names)]
            sessionWaiting := Function.update w.proc.sessionWaiting rid true }
          phase := Function.update w.phase rid (.queued names)
          requests := w.requests ++ [(rid, names)] }
  /-- the `unlock` yields in the call that patches the cell of `name` -/
  | parked (event : Event Name Addr Rid T D) (rid : Rid) (before rest : List (Name × Option D))
      (name : Name) (patch : D) (addr : Addr)
      (returns : Returns w rid event (before ++ (name, some patch) :: rest))
      (plain : ∀ entry ∈ before, entry.2 = none) (cell : w.proc.state name = some addr) :
      Moves w event (w.giveBack rid (before.map Prod.fst) (some (name, rest))
        (.unlocking (name :: rest.map Prod.fst)))
  /-- the `unlock` raises because `name` has no cell any more -/
  | raised (event : Event Name Addr Rid T D) (rid : Rid) (before rest : List (Name × Option D))
      (name : Name) (patch : D)
      (returns : Returns w rid event (before ++ (name, some patch) :: rest))
      (plain : ∀ entry ∈ before, entry.2 = none) (noCell : w.proc.state name = none) :
      Moves w event (w.giveBack rid (before.map Prod.fst) none
        (.stuck (name :: rest.map Prod.fst)))
  /-- the `unlock` ends and wakes the queue -/
  | returned (event : Event Name Addr Rid T D) (rid : Rid) (entries : List (Name × Option D))
      (returns : Returns w rid event entries) (plain : ∀ entry ∈ entries, entry.2 = none) :
      Moves w event (pass { w.giveBack rid (entries.map Prod.fst) none .finished with
        finished := w.finished ++ [rid] })
  | failed (rid : Rid) (name : Name) (rest : List (Name × Option D))
      (parked : w.proc.patching rid = some (name, rest)) :
      Moves w (.patchFailed rid) (w.giveBack rid [] none (.stuck (name :: rest.map Prod.fst)))

/-! A message that no `unlock` waits for has the effect of its own handler. -/

section Handlers

variable {w w' : World Name Addr Rid D} {rid : Rid}

theorem Moves.of_lock {names : List Name} (moved : Moves (T := T) w (.lock rid names) w') :
    (w'.phase rid = .held names ∨ w'.phase rid = .queued names) ∧
      w'.proc.spawning = w.proc.spawning := by
  cases moved with
  | granted _ _ ready => exact ⟨.inl (by simp), rfl⟩
  | queued _ _ blocked => exact ⟨.inr (by simp), rfl⟩
  | parked _ _ _ _ _ _ _ returns => cases returns
  | raised _ _ _ _ _ _ returns => cases returns
  | returned _ _ _ returns => cases returns

theorem Moves.of_newstate {name : Name} {t : T} (moved : Moves w (.newstate rid name t) w') :
    ((w.proc.state name).isSome ∧ w' = w) ∨
      (w.proc.state name = none ∧ w' = { w with proc := { w.proc with
        spawning := Function.update w.proc.spawning rid (some name) } }) := by
  cases moved with
  | createRaised _ _ _ taken => exact .inl ⟨taken, rfl⟩
  | creating _ _ _ absent => exact .inr ⟨absent, rfl⟩
  | parked _ _ _ _ _ _ _ returns => cases returns
  | raised _ _ _ _ _ _ returns => cases returns
  | returned _ _ _ returns => cases returns

theorem Moves.of_spawnFailed (moved : Moves (T := T) w (.spawnFailed rid) w') :
    w' = { w with proc := { w.proc with
      spawning := Function.update w.proc.spawning rid none } } := by
  cases moved with
  | createFailed _ => rfl
  | parked _ _ _ _ _ _ _ returns => cases returns
  | raised _ _ _ _ _ _ returns => cases returns
  | returned _ _ _ returns => cases returns

theorem Moves.of_spawned {addr : Addr} {name : Name} (asked : w.proc.spawning rid = some name)
    (moved : Moves (T := T) w (.spawned rid addr) w') :
    w' = pass { w with proc := { w.proc with
      state := Function.update w.proc.state name (some addr)
      locked := Function.update w.proc.locked name (some false)
      spawning := Function.update w.proc.spawning rid none } } := by
  cases moved with
  | created _ _ other asked' =>
      rw [asked] at asked'
      cases asked'
      rfl
  | parked _ _ _ _ _ _ _ returns => cases returns
  | raised _ _ _ _ _ _ returns => cases returns
  | returned _ _ _ returns => cases returns

theorem Moves.of_releasestate {name : Name} (moved : Moves (T := T) w (.releasestate name) w') :
    w' = { w with proc := { w.proc with
      state := Function.update w.proc.state name none } } := by
  cases moved with
  | released _ => rfl
  | parked _ _ _ _ _ _ _ returns => cases returns
  | raised _ _ _ _ _ _ returns => cases returns
  | returned _ _ _ returns => cases returns

theorem Moves.of_patchFailed {name : Name} {rest : List (Name × Option D)}
    (suspended : w.proc.patching rid = some (name, rest))
    (moved : Moves (T := T) w (.patchFailed rid) w') :
    w' = w.giveBack rid [] none (.stuck (name :: rest.map Prod.fst)) := by
  cases moved with
  | failed _ other tail suspended' =>
      rw [suspended] at suspended'
      cases suspended'
      rfl
  | parked _ _ _ _ _ _ _ returns => cases returns
  | raised _ _ _ _ _ _ returns => cases returns
  | returned _ _ _ returns => cases returns

end Handlers

/-- `settle` has nothing to do where the history already shows the suspended loops. -/
theorem settle_eq_self {w : World Name Addr Rid D}
    (agree : ∀ rid left name rest, w.phase rid = .unlocking left →
      w.proc.patching rid = some (name, rest) → left = name :: rest.map Prod.fst) :
    w.settle = w := by
  have same : (fun rid => (w.phase rid).park (w.proc.patching rid)) = w.phase := by
    funext rid
    cases phase : w.phase rid with
    | unlocking left =>
        cases parked : w.proc.patching rid with
        | none => rfl
        | some entry =>
            obtain ⟨name, rest⟩ := entry
            rw [agree rid left name rest phase parked]
            rfl
    | _ => rfl
  rw [settle, same]

/-- After a pass the suspended loops are those from before. -/
theorem settle_pass {w : World Name Addr Rid D} (waits : w.proc.Waits)
    (quiet : w.proc.wakeupQueue = [])
    (agree : ∀ rid left name rest, w.phase rid = .unlocking left →
      w.proc.patching rid = some (name, rest) → left = name :: rest.map Prod.fst) :
    w.pass.settle = w.pass := by
  have done := pass_spec w waits quiet
  apply settle_eq_self
  intro rid left name rest atPhase atProc
  obtain ⟨q, scanned, proc⟩ := done.proc
  rw [proc] at atProc
  refine agree rid left name rest ?_ (by rw [← scanned.patching]; exact atProc)
  rw [done.phase rid] at atPhase
  split at atPhase
  · exact grant_eq_unlocking.mp atPhase
  · exact atPhase

theorem foldl_send_dispatch (w : World Name Addr Rid D) (q : Process Name Addr Rid D) :
    (q.dispatchWakeup (T := T)).2.foldl send { w with proc := (q.dispatchWakeup (T := T)).1 } =
      dispatch { w with proc := q } := by
  simp only [dispatch, dispatchWakeup, foldl_send_granted]

theorem dispatchWakeup_quiet {p : Process Name Addr Rid D} (quiet : p.wakeupQueue = []) :
    p.dispatchWakeup (T := T) = (p, []) := by
  obtain ⟨state, locked, waitting, sessions, queue, spawning, patching⟩ := p
  cases quiet
  rfl

theorem next_eq {w : World Name Addr Rid D} {event : Event Name Addr Rid T D}
    {q : Process Name Addr Rid D} {outs : List (Out Name Addr Rid T D)}
    (done : w.proc.body event = (q, outs)) :
    w.next event = settle ((q.dispatchWakeup (T := T)).2.foldl send
      (outs.foldl send { w.receive event with proc := (q.dispatchWakeup (T := T)).1 })) := by
  simp only [next, handle, done, List.foldl_append]

/-- A handler that wakes no coroutine. -/
theorem next_quiet {w : World Name Addr Rid D} {event : Event Name Addr Rid T D}
    {q : Process Name Addr Rid D} {outs : List (Out Name Addr Rid T D)}
    (done : w.proc.body event = (q, outs)) (quiet : q.wakeupQueue = []) :
    w.next event = settle (outs.foldl send { w.receive event with proc := q }) := by
  rw [next_eq done, dispatchWakeup_quiet quiet]
  rfl

namespace Sound

variable {w : World Name Addr Rid D}

theorem agree (sound : Sound w) (rid : Rid) (left : List Name) (name : Name)
    (rest : List (Name × Option D)) (phase : w.phase rid = .unlocking left)
    (parked : w.proc.patching rid = some (name, rest)) : left = name :: rest.map Prod.fst := by
  obtain ⟨other, tail, parked', shape⟩ := (sound.suspended rid left).mp phase
  rw [parked] at parked'
  cases parked'
  exact shape

theorem patching_of_held (sound : Sound w) {rid : Rid} {names : List Name}
    (held : w.phase rid = .held names) : w.proc.patching rid = none := by
  cases parked : w.proc.patching rid with
  | none => rfl
  | some entry =>
      have phase := (sound.suspended rid _).mpr ⟨entry.1, entry.2, parked, rfl⟩
      rw [held] at phase
      cases phase

end Sound

/-- A handler that touches neither the phases nor the suspended loops. -/
theorem next_idle {w : World Name Addr Rid D} {event : Event Name Addr Rid T D} (sound : Sound w)
    {q : Process Name Addr Rid D} {outs : List (Out Name Addr Rid T D)}
    (done : w.proc.body event = (q, outs)) (quiet : q.wakeupQueue = [])
    (same : q.patching = w.proc.patching)
    (silent : outs.foldl send { w.receive event with proc := q } = { w with proc := q }) :
    w.next event = { w with proc := q } := by
  rw [next_quiet done quiet, silent]
  exact settle_eq_self fun rid left name rest phase parked =>
    sound.agree rid left name rest phase (same ▸ parked)

/-- While `rid` gives back its names, the other suspended loops stay as they are. -/
theorem settle_giveBack {w : World Name Addr Rid D} (sound : Sound w) (rid : Rid)
    (names : List Name) (parked : Option (Name × List (Name × Option D))) (phase : Phase Name)
    (shown : phase.park parked = phase) :
    (w.giveBack rid names parked phase).settle = w.giveBack rid names parked phase := by
  have same : (fun other => (Function.update w.phase rid phase other).park
      (Function.update w.proc.patching rid parked other)) = Function.update w.phase rid phase := by
    funext other
    by_cases here : other = rid
    · subst here
      simpa using shown
    · simp only [Function.update_of_ne here]
      have whole := congrArg (fun world => World.phase world other) (settle_eq_self sound.agree)
      exact whole
  simp only [settle, giveBack, same]

/-- Where one request moves to a phase that is not `unlocking`, the others still agree. -/
theorem agree_update {w : World Name Addr Rid D} (sound : Sound w) (rid : Rid)
    {phase : Phase Name} (moved : ∀ left, phase ≠ .unlocking left) (other : Rid)
    (left : List Name) (name : Name) (rest : List (Name × Option D))
    (atPhase : Function.update w.phase rid phase other = .unlocking left)
    (parked : w.proc.patching other = some (name, rest)) : left = name :: rest.map Prod.fst := by
  by_cases here : other = rid
  · subst here
    rw [Function.update_self] at atPhase
    exact absurd atPhase (moved left)
  · rw [Function.update_of_ne here] at atPhase
    exact sound.agree other left name rest atPhase parked

/-- Giving back names ends no other suspended loop. -/
theorem agree_giveBack {w : World Name Addr Rid D} (sound : Sound w) (rid : Rid)
    (names : List Name) (other : Rid) (left : List Name) (name : Name)
    (rest : List (Name × Option D))
    (phase : (w.giveBack rid names none .finished).phase other = .unlocking left)
    (parked : (w.giveBack rid names none .finished).proc.patching other = some (name, rest)) :
    left = name :: rest.map Prod.fst := by
  by_cases here : other = rid
  · subst here
    simp [giveBack] at phase
  · exact sound.agree other left name rest (by simpa [giveBack, here] using phase)
      (by simpa [giveBack, here] using parked)

/-- The rest of `newstate`, once the cell is there. -/
theorem moves_of_spawned {w : World Name Addr Rid D} (sound : Sound w) (rid : Rid) (addr : Addr)
    (name : Name) (asked : w.proc.spawning rid = some name) :
    Moves (T := T) w (.spawned rid addr) (w.next (.spawned (T := T) rid addr)) := by
  have moved := Moves.created (T := T) rid addr name asked
  have still := settle_pass
    (w := { w with proc := { w.proc with
      state := Function.update w.proc.state name (some addr)
      locked := Function.update w.proc.locked name (some false)
      spawning := Function.update w.proc.spawning rid none } })
    ⟨sound.waits.session, sound.waits.distinct⟩ sound.quiet sound.agree
  have shape := foldl_send_dispatch (T := T) w (tryWakup { w.proc with
    state := Function.update w.proc.state name (some addr)
    locked := Function.update w.proc.locked name (some false)
    spawning := Function.update w.proc.spawning rid none })
  have result : w.proc.body (.spawned (T := T) rid addr) = (tryWakup { w.proc with
      state := Function.update w.proc.state name (some addr)
      locked := Function.update w.proc.locked name (some false)
      spawning := Function.update w.proc.spawning rid none }, [.created rid]) := by
    simp [body, spawned, asked]
  rw [← still] at moved
  rw [next_eq result]
  convert moved using 2
  exact shape

/-- A message that resumes an `unlock` runs its loop with no call outstanding. -/
theorem body_of_returns {w : World Name Addr Rid D} {event : Event Name Addr Rid T D} {rid : Rid}
    {entries : List (Name × Option D)} (sound : Sound w) (returns : Returns w rid event entries)
    (enabled : w.Enabled event) :
    w.proc.body event = unlockFrom rid entries
      { w.proc with patching := Function.update w.proc.patching rid none } := by
  cases returns with
  | start patchMap =>
      obtain ⟨names, held, -, -⟩ := enabled
      rw [← sound.patching_of_held held, Function.update_eq_self]
      rfl
  | resume name rest parked => simp [body, patched, parked, unlockFrom]

/-- A message lets one `unlock` run over one list of entries. -/
theorem Returns.unique {w : World Name Addr Rid D} {event : Event Name Addr Rid T D}
    {rid other : Rid} {entries others : List (Name × Option D)}
    (left : Returns w rid event entries) (right : Returns w other event others) :
    rid = other ∧ entries = others := by
  cases left with
  | start patchMap =>
      cases right
      exact ⟨rfl, rfl⟩
  | resume name rest parked =>
      cases right with
      | resume name' rest' parked' =>
          rw [parked] at parked'
          cases parked'
          exact ⟨rfl, rfl⟩

/-- The loop of `unlock`, however its message started it. -/
theorem moves_of_returns {w : World Name Addr Rid D} {event : Event Name Addr Rid T D} {rid : Rid}
    {entries : List (Name × Option D)} (sound : Sound w) (returns : Returns w rid event entries)
    (body : w.proc.body event = unlockFrom rid entries
      { w.proc with patching := Function.update w.proc.patching rid none })
    (received : ∃ left, w.receive event =
      { w with phase := Function.update w.phase rid (.unlocking left) }) :
    Moves w event (w.next event) := by
  obtain ⟨left, received⟩ := received
  have cases := unlockFrom_cases (T := T) rid entries
    { w.proc with patching := Function.update w.proc.patching rid none }
  rw [← body] at cases
  generalize result : w.proc.body event = r at cases
  cases cases with
  | suspend before rest name patch addr shape plain cell =>
      subst shape
      have moved := Moves.parked event rid before rest name patch addr returns plain cell
      rw [← settle_giveBack sound rid _ _ _ rfl] at moved
      rw [next_eq result, received]
      convert moved using 1
      simp only [settle, giveBack, dispatchWakeup, send, freeAll, sound.quiet, List.map_nil,
        List.foldl_nil, List.foldl_cons, Function.update_idem]
      congr 1
      funext other
      by_cases here : other = rid
      · subst here
        simp [Phase.park]
      · simp [here]
  | raise before rest name patch shape plain noCell =>
      subst shape
      have moved := Moves.raised event rid before rest name patch returns plain noCell
      rw [← settle_giveBack sound rid _ _ _ rfl] at moved
      rw [next_eq result, received]
      convert moved using 1
      simp [settle, giveBack, dispatchWakeup, send, freeAll, sound.quiet]
  | finish plain =>
      have moved := Moves.returned event rid entries returns plain
      have still := settle_pass
        (w := { w.giveBack rid (entries.map Prod.fst) none .finished with
          finished := w.finished ++ [rid] })
        ⟨sound.waits.session, sound.waits.distinct⟩ sound.quiet
        (agree_giveBack sound rid (entries.map Prod.fst))
      rw [← still] at moved
      have shape := foldl_send_dispatch (T := T)
        { w.giveBack rid (entries.map Prod.fst) none .finished with
          finished := w.finished ++ [rid] }
        (w.giveBack rid (entries.map Prod.fst) none .finished).proc.tryWakup
      rw [next_eq result, received]
      convert moved using 2
      rw [pass, ← shape]
      simp [giveBack, send, freeAll]

/-- Every step has one of the effects. -/
theorem moves_of_step {w w' : World Name Addr Rid D} {event : Event Name Addr Rid T D}
    (sound : Sound w) (step : Step w event w') : Moves w event w' := by
  obtain ⟨enabled, rfl⟩ := step
  cases event with
  | newstate rid name t =>
      cases cell : w.proc.state name with
      | some addr =>
          have result : w.proc.body (.newstate rid name t) = (w.proc, [.createRaised rid]) := by
            simp [body, newstate, cell]
          rw [next_idle sound result sound.quiet rfl rfl]
          exact .createRaised rid name t (by rw [cell]; rfl)
      | none =>
          have result : w.proc.body (.newstate rid name t) = ({ w.proc with
              spawning := Function.update w.proc.spawning rid (some name) },
              [.spawn rid name t]) := by
            simp [body, newstate, cell]
          rw [next_idle sound result sound.quiet rfl rfl]
          exact .creating rid name t cell
  | spawned rid addr =>
      obtain ⟨name, asked⟩ := Option.isSome_iff_exists.mp enabled.1
      exact moves_of_spawned sound rid addr name asked
  | spawnFailed rid =>
      have result : w.proc.body (.spawnFailed (T := T) rid) = ({ w.proc with
          spawning := Function.update w.proc.spawning rid none }, [.createRaised rid]) := rfl
      rw [next_idle sound result sound.quiet rfl rfl]
      exact .createFailed rid
  | releasestate name =>
      have moved := Moves.released (T := T) (w := w) name
      cases cell : w.proc.state name with
      | some addr =>
          have result : w.proc.body (.releasestate (T := T) name) = ({ w.proc with
              state := Function.update w.proc.state name none }, [.exit addr]) := by
            simp [body, releasestate, cell]
          rwa [next_idle sound result sound.quiet rfl rfl]
      | none =>
          have result : w.proc.body (.releasestate (T := T) name) = (w.proc, []) := by
            simp [body, releasestate, cell]
          rw [← cell, Function.update_eq_self] at moved
          rwa [next_idle sound result sound.quiet rfl rfl]
  | lock rid names =>
      by_cases blocked : w.proc.Blocked names
      · have attempt := (w.proc.tryLock_eq_none_iff names).mpr blocked
        have result : w.proc.body (.lock (T := T) rid names) = ({ w.proc with
            waitting := w.proc.waitting ++ [(rid, names)]
            sessionWaiting := Function.update w.proc.sessionWaiting rid true }, []) := by
          simp [body, lock, attempt]
        rw [next_quiet result sound.quiet]
        have still := settle_eq_self (w := { w with
            proc := { w.proc with
              waitting := w.proc.waitting ++ [(rid, names)]
              sessionWaiting := Function.update w.proc.sessionWaiting rid true }
            phase := Function.update w.phase rid (.queued names)
            requests := w.requests ++ [(rid, names)] })
          (agree_update sound rid (by simp))
        simp only [List.foldl_nil, receive]
        rw [still]
        exact .queued rid names blocked
      · have attempt := tryLock_of_not_blocked blocked
        have result : w.proc.body (.lock (T := T) rid names) = ({ w.proc with
            locked := lockAll names w.proc.locked }, [.granted rid (names.map w.proc.state)]) := by
          simp [body, lock, attempt, querystates]
        rw [next_quiet result sound.quiet]
        have still := settle_eq_self (w := { w with
            proc := { w.proc with locked := lockAll names w.proc.locked }
            phase := Function.update w.phase rid (.held names)
            requests := w.requests ++ [(rid, names)]
            replies := w.replies ++ [⟨rid, names.map w.proc.state, w.proc.state⟩] })
          (agree_update sound rid (by simp))
        simp only [List.foldl_cons, List.foldl_nil, send, receive, Function.update_self,
          Phase.grant, Function.update_idem]
        rw [still]
        exact .granted rid names blocked
  | unlock rid patchMap =>
      have returns : Returns w rid (.unlock (T := T) rid patchMap) patchMap := .start patchMap
      exact moves_of_returns sound returns (body_of_returns sound returns enabled)
        ⟨patchMap.map Prod.fst, rfl⟩
  | patched rid =>
      obtain ⟨⟨name, rest⟩, parked⟩ := Option.isSome_iff_exists.mp enabled
      have returns : Returns w rid (.patched (T := T) rid) ((name, none) :: rest) :=
        .resume name rest parked
      refine moves_of_returns sound returns (body_of_returns sound returns enabled)
        ⟨name :: rest.map Prod.fst, ?_⟩
      have phase := (sound.suspended rid _).mpr ⟨name, rest, parked, rfl⟩
      rw [← phase, Function.update_eq_self]
      rfl
  | patchFailed rid =>
      obtain ⟨⟨name, rest⟩, parked⟩ := Option.isSome_iff_exists.mp enabled
      have moved := Moves.failed (T := T) rid name rest parked
      rw [← settle_giveBack sound rid _ _ _ rfl] at moved
      have result : w.proc.body (.patchFailed (T := T) rid) = ({ w.proc with
          patching := Function.update w.proc.patching rid none },
          [.unlockRaised rid (name :: rest.map Prod.fst)]) := by
        simp [body, patchFailed, parked]
      rw [next_quiet result sound.quiet]
      rwa [giveBack, freeAll_nil] at moved

end World

end WindLtask.Manager
