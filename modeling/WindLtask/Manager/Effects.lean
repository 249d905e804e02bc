import WindLtask.Manager.Grants

/-!
# What a step means for the others

Seen from a request that did not send the message, a step of the manager does
little: the request may be granted from the queue, and cells may come and go.
-/

set_option linter.unusedSectionVars false

namespace WindLtask.Manager

variable {Name Addr Rid T D : Type} [DecidableEq Name] [DecidableEq Rid]

/-- The lock request that a message belongs to. -/
def Event.actor : Event Name Addr Rid T D → Option Rid
  | .lock rid _ | .unlock rid _ | .patched rid | .patchFailed rid => some rid
  | _ => none

namespace World

open Process

variable {w w' : World Name Addr Rid D}

/-- The request is as it was, or has been granted from the queue. -/
def Waited (before after : Phase Name) : Prop :=
  after = before ∨ ∃ names, before = .queued names ∧ after = .held names

/-- What a step leaves alone, and where new replies and cells come from. -/
structure Effects (w w' : World Name Addr Rid D) (event : Event Name Addr Rid T D) : Prop where
  phase : ∀ rid, event.actor ≠ some rid → Waited (w.phase rid) (w'.phase rid)
  patching : ∀ rid, event.actor ≠ some rid → w'.proc.patching rid = w.proc.patching rid
  replies : ∀ reply ∈ w.replies, reply ∈ w'.replies
  fresh : ∀ reply ∈ w'.replies, reply ∈ w.replies ∨
    ∀ n addr, reply.cells n = some addr → w'.proc.state n = some addr
  state : ∀ n addr, w'.proc.state n = some addr → w.proc.state n = some addr ∨
    ∃ rid, event = .spawned rid addr ∧ w.proc.spawning rid = some n

/-- A grant that no step but its own `unlock` moves covers the same names. -/
theorem Waited.covered {before after : Phase Name} (waited : Waited before after)
    (granted : ∀ names, before ≠ .queued names) : after = before := by
  rcases waited with same | ⟨names, was, -⟩
  · exact same
  · exact absurd was (granted names)

/-- A pass on top of a handler. -/
theorem Effects.pass {event : Event Name Addr Rid T D} {middle : World Name Addr Rid D}
    (sound : Sound middle) (below : Effects w middle event)
    (own : ∀ rid, event.actor = some rid → middle.phase rid = .finished) :
    Effects w middle.pass event ∧ middle.pass.proc.patching = middle.proc.patching ∧
      middle.pass.proc.spawning = middle.proc.spawning ∧
      ∀ rid, event.actor = some rid → middle.pass.phase rid = .finished := by
  have pass := pass_spec middle sound.waits sound.quiet
  obtain ⟨q, scanned, proc⟩ := pass.proc
  have state : middle.pass.proc.state = middle.proc.state := by rw [proc]; exact scanned.state
  have patching : middle.pass.proc.patching = middle.proc.patching := by
    rw [proc]; exact scanned.patching
  have phase : ∀ rid, Waited (middle.phase rid) (middle.pass.phase rid) := by
    intro rid
    rw [pass.phase rid]
    split
    · next inWoken =>
      obtain ⟨⟨first, names⟩, member, same⟩ := List.mem_map.mp inWoken
      cases same
      have was := (sound.queued first names).mp
        (scanned.perm.mem_iff.mpr (List.mem_append_left _ member))
      exact .inr ⟨names, was, by rw [was]; rfl⟩
    · exact .inl rfl
  refine ⟨⟨?_, ?_, ?_, ?_, ?_⟩, patching, by rw [proc]; exact scanned.spawning, ?_⟩
  · intro rid other
    rcases below.phase rid other with same | ⟨names, was, now⟩
    · exact same ▸ phase rid
    · refine .inr ⟨names, was, ?_⟩
      rw [(phase rid).covered (by simp [now]), now]
  · intro rid other
    rw [patching]
    exact below.patching rid other
  · intro reply member
    rw [pass.replies]
    exact List.mem_append_left _ (below.replies reply member)
  · intro reply member
    rw [pass.replies] at member
    rw [state]
    rcases List.mem_append.mp member with old | new
    · exact below.fresh reply old
    · obtain ⟨entry, -, rfl⟩ := List.mem_map.mp new
      exact .inr fun n addr cell => cell
  · intro n addr cell
    rw [state] at cell
    exact below.state n addr cell
  · intro rid here
    rw [(phase rid).covered (by simp [own rid here]), own rid here]

/-- A handler that moves one request only. -/
theorem Effects.giveBack {event : Event Name Addr Rid T D} {rid : Rid}
    (acts : event.actor = some rid) (names : List Name)
    (parked : Option (Name × List (Name × Option D))) (phase : Phase Name)
    (finished : List Rid) :
    Effects w { w.giveBack rid names parked phase with finished := finished } event where
  phase := by
    intro other apart
    have apart : other ≠ rid := fun same => apart (same ▸ acts)
    exact .inl (by simp [World.giveBack, apart])
  patching := by
    intro other apart
    have apart : other ≠ rid := fun same => apart (same ▸ acts)
    simp [World.giveBack, apart]
  replies := fun _ member => member
  fresh := fun _ member => .inl member
  state := fun _ _ cell => .inl cell

theorem Returns.actor {event : Event Name Addr Rid T D} {rid : Rid}
    {entries : List (Name × Option D)} (returns : Returns w rid event entries) :
    event.actor = some rid := by
  cases returns <;> rfl

/-- The effects of every step. -/
theorem effects_of_moves (sound : Sound w) {event : Event Name Addr Rid T D}
    (enabled : w.Enabled event) (moved : Moves w event w') : Effects w w' event := by
  have self : Effects w w event := ⟨fun _ _ => .inl rfl, fun _ _ => rfl, fun _ member => member,
    fun _ member => .inl member, fun _ _ cell => .inl cell⟩
  cases moved with
  | createRaised rid name t taken => exact self
  | creating rid name t absent =>
      exact ⟨self.phase, self.patching, self.replies, self.fresh, self.state⟩
  | createFailed rid =>
      exact ⟨self.phase, self.patching, self.replies, self.fresh, self.state⟩
  | released name =>
      refine ⟨self.phase, self.patching, self.replies, fun _ member => .inl member, ?_⟩
      intro n addr cell
      by_cases here : n = name
      · subst here
        simp at cell
      · exact .inl (by simpa [here] using cell)
  | created rid addr name asked =>
      have before := sound.created rid addr name
      refine (Effects.pass before ⟨self.phase, self.patching, self.replies,
        fun _ member => .inl member, ?_⟩ (by simp [Event.actor])).1
      intro n a cell
      by_cases here : n = name
      · subst here
        have same : addr = a := by simpa using cell
        exact .inr ⟨rid, by rw [same], asked⟩
      · exact .inl (by simpa [here] using cell)
  | granted rid names ready =>
      refine ⟨?_, self.patching, fun reply member => List.mem_append_left _ member, ?_, self.state⟩
      · intro other apart
        have apart : other ≠ rid := fun same => apart (by rw [same]; rfl)
        exact .inl (by simp [apart])
      · intro reply member
        rcases List.mem_append.mp member with old | new
        · exact .inl old
        · have same : reply = ⟨rid, names.map w.proc.state, w.proc.state⟩ := by simpa using new
          exact .inr (by rw [same]; exact fun _ _ cell => cell)
  | queued rid names blocked =>
      refine ⟨?_, self.patching, self.replies, self.fresh, self.state⟩
      intro other apart
      have apart : other ≠ rid := fun same => apart (by rw [same]; rfl)
      exact .inl (by simp [apart])
  | parked _ rid before rest name patch addr returns plain cell =>
      exact .giveBack returns.actor _ _ _ _
  | raised _ rid before rest name patch returns plain noCell =>
      exact .giveBack returns.actor _ _ _ _
  | returned _ rid entries returns plain =>
      have soundBack := sound.returned returns enabled
      refine (Effects.pass soundBack (.giveBack returns.actor _ _ _ _) ?_).1
      intro other acts
      rw [returns.actor] at acts
      cases acts
      simp [World.giveBack]
  | failed rid name rest parked => exact .giveBack rfl _ _ _ _

/-- The table `state` once the message has been handled. -/
def stateAfter (w : World Name Addr Rid D) : Event Name Addr Rid T D → Name → Option Addr
  | .spawned rid addr =>
      match w.proc.spawning rid with
      | some name => Function.update w.proc.state name (some addr)
      | none => w.proc.state
  | .releasestate name => Function.update w.proc.state name none
  | _ => w.proc.state

theorem Returns.stateAfter {event : Event Name Addr Rid T D} {rid : Rid}
    {entries : List (Name × Option D)} (returns : Returns w rid event entries) :
    w.stateAfter event = w.proc.state := by
  cases returns <;> rfl

/-- Cells come from `newstate` and go with `releasestate`; no other message touches them. -/
theorem state_of_moves (sound : Sound w) {event : Event Name Addr Rid T D}
    (enabled : w.Enabled event) (moved : Moves w event w') :
    w'.proc.state = w.stateAfter event := by
  cases moved with
  | created rid addr name asked =>
      have before := sound.created rid addr name
      obtain ⟨q, scanned, proc⟩ := (pass_spec _ before.waits before.quiet).proc
      rw [proc]
      simp only [stateAfter, asked, scanned.state]
  | parked _ rid before rest name patch addr returns plain cell => exact returns.stateAfter.symm
  | raised _ rid before rest name patch returns plain noCell => exact returns.stateAfter.symm
  | returned _ rid entries returns plain =>
      have soundBack := sound.returned returns enabled
      obtain ⟨q, scanned, proc⟩ := (pass_spec _ soundBack.waits soundBack.quiet).proc
      rw [proc]
      exact scanned.state.trans returns.stateAfter.symm
  | _ => rfl

end World

end WindLtask.Manager
