import Mathlib.Data.List.Nodup
import WindLtask.Manager.Steps

/-!
# The history of a run is sound

Every step keeps what the history and the process say of each other.  The lemmas
follow the effects of a step: a handler that leaves the queue alone, a request
that is granted or queued, a grant that gives names back, and the pass.
-/

set_option linter.unusedSectionVars false

namespace WindLtask.Manager

variable {Name Addr Rid T D : Type} [DecidableEq Name] [DecidableEq Rid]

namespace World

open Process

/-- The start is sound. -/
theorem sound_init : Sound (init : World Name Addr Rid D) where
  waits := ⟨by simp [init, Process.init], by simp [init, Process.init]⟩
  quiet := rfl
  queued := by simp [init, Process.init]
  suspended := by simp [init, Process.init]
  distinct := by simp [init]
  requested := by simp [init]
  once := by simp [init]
  named := by simp [init]
  replied := by simp [init]
  repliedOnce := by simp [init]
  answers := by simp [init]
  finished := by simp [init]
  finishedOnce := by simp [init]

namespace Sound

variable {w w' : World Name Addr Rid D}

/-- A request that was never made is in no list. -/
theorem fresh (sound : Sound w) {rid : Rid} (idle : w.phase rid = .idle) :
    rid ∉ w.requests.map Prod.fst ∧ rid ∉ w.replies.map Reply.rid ∧
      rid ∉ w.proc.waitting.map Prod.fst := by
  refine ⟨?_, ?_, ?_⟩
  · rw [sound.requested rid]
    exact fun asked => asked idle
  · rw [sound.replied rid]
    exact fun replied => replied.1 idle
  · intro waiting
    obtain ⟨⟨first, names⟩, member, same⟩ := List.mem_map.mp waiting
    cases same
    rw [(sound.queued first names).mp member] at idle
    cases idle

/-- Writes to the tables `state`, `locked` and to the spawns leave the history sound. -/
theorem keep (sound : Sound w) (q : Process Name Addr Rid D)
    (waitting : q.waitting = w.proc.waitting)
    (sessions : q.sessionWaiting = w.proc.sessionWaiting)
    (queue : q.wakeupQueue = w.proc.wakeupQueue) (patching : q.patching = w.proc.patching) :
    Sound { w with proc := q } where
  waits := ⟨by rw [waitting, sessions]; exact sound.waits.session,
    by rw [waitting]; exact sound.waits.distinct⟩
  quiet := queue.trans sound.quiet
  queued := by simpa only [waitting] using sound.queued
  suspended := by simpa only [patching] using sound.suspended
  distinct := sound.distinct
  requested := sound.requested
  once := sound.once
  named := sound.named
  replied := sound.replied
  repliedOnce := sound.repliedOnce
  answers := sound.answers
  finished := sound.finished
  finishedOnce := sound.finishedOnce

/-- What a lock request does to the process, its phase and the replies. -/
inductive Asked (w : World Name Addr Rid D) (rid : Rid) (names : List Name) :
    Process Name Addr Rid D → Phase Name → List (Reply Name Addr Rid) → Prop where
  /-- it is granted at once -/
  | granted : Asked w rid names { w.proc with locked := lockAll names w.proc.locked }
      (.held names) (w.replies ++ [⟨rid, names.map w.proc.state, w.proc.state⟩])
  /-- it joins the queue -/
  | enqueued : Asked w rid names
      { w.proc with
        waitting := w.proc.waitting ++ [(rid, names)]
        sessionWaiting := Function.update w.proc.sessionWaiting rid true }
      (.queued names) w.replies

/-- A lock request that has not been made before. -/
theorem asked (sound : Sound w) {rid : Rid} (idle : w.phase rid = .idle) {names : List Name}
    {q : Process Name Addr Rid D} {phase : Phase Name} {replies : List (Reply Name Addr Rid)}
    (asked : Asked w rid names q phase replies) :
    Sound { w with
      proc := q
      phase := Function.update w.phase rid phase
      requests := w.requests ++ [(rid, names)]
      replies := replies } := by
  obtain ⟨notAsked, notReplied, notWaiting⟩ := sound.fresh idle
  have absent : ∀ list, (rid, list) ∉ w.proc.waitting := fun list member =>
    notWaiting (List.mem_map_of_mem member)
  have suspended : q.patching = w.proc.patching := by cases asked <;> rfl
  have now : phase ≠ .idle ∧ (∀ left, phase ≠ .unlocking left) ∧ phase ≠ .finished := by
    cases asked <;> simp
  constructor
  · cases asked with
    | granted => exact ⟨sound.waits.session, sound.waits.distinct⟩
    | enqueued =>
        constructor
        · intro entry member
          by_cases here : entry.1 = rid
          · simp [here]
          · have old : entry ∈ w.proc.waitting := by
              rcases List.mem_append.mp member with old | new
              · exact old
              · exact absurd (congrArg Prod.fst (List.mem_singleton.mp new)) here
            simpa [here] using sound.waits.session entry old
        · simpa using List.Nodup.concat notWaiting sound.waits.distinct
  · cases asked <;> exact sound.quiet
  · intro other list
    by_cases here : other = rid
    · subst here
      cases asked with
      | granted => simp [absent list]
      | enqueued => simp [absent list, eq_comm]
    · cases asked <;> simpa [here] using sound.queued other list
  · intro other left
    by_cases here : other = rid
    · subst here
      have off := sound.suspended other left
      rw [idle] at off
      simpa [suspended, now.2.1 left] using off
    · simpa [here, suspended] using sound.suspended other left
  · intro other left
    by_cases here : other = rid
    · subst here
      simp [now.2.1 left]
    · simpa [here] using sound.distinct other left
  · intro other
    by_cases here : other = rid
    · subst here
      simp [now.1]
    · simpa [here] using sound.requested other
  · simpa using List.Nodup.concat notAsked sound.once
  · intro other list
    by_cases here : other = rid
    · subst here
      intro named
      have same : list = names := by
        cases asked <;> simpa [eq_comm] using named
      simp [same]
    · simp only [Function.update_of_ne here]
      exact fun phase => List.mem_append_left _ (sound.named other list phase)
  · intro other
    have old := sound.replied other
    by_cases here : other = rid
    · subst here
      rw [idle] at old
      cases asked with
      | granted => simp
      | enqueued => simpa using old
    · cases asked <;> simpa [here] using old
  · cases asked with
    | granted => simpa using List.Nodup.concat notReplied sound.repliedOnce
    | enqueued => exact sound.repliedOnce
  · intro reply member
    have old : reply ∈ w.replies → ∃ list, (reply.rid, list) ∈ w.requests ++ [(rid, names)] ∧
        reply.list = list.map reply.cells := by
      intro member
      obtain ⟨list, asked, shape⟩ := sound.answers reply member
      exact ⟨list, List.mem_append_left _ asked, shape⟩
    cases asked with
    | granted =>
        rcases List.mem_append.mp member with earlier | new
        · exact old earlier
        · obtain rfl := List.mem_singleton.mp new
          exact ⟨names, by simp, rfl⟩
    | enqueued => exact old member
  · intro other
    by_cases here : other = rid
    · subst here
      have off := sound.finished other
      rw [idle] at off
      simpa [now.2.2] using off
    · simpa [here] using sound.finished other
  · exact sound.finishedOnce

/-- The phases that an `unlock` of an outstanding grant can reach. -/
inductive Reached (rid : Rid) (finished : List Rid) :
    Option (Name × List (Name × Option D)) → Phase Name → List Rid → Prop where
  | parked (name : Name) (rest : List (Name × Option D))
      (distinct : (name :: rest.map Prod.fst).Nodup) :
      Reached rid finished (some (name, rest)) (.unlocking (name :: rest.map Prod.fst)) finished
  | stuck (left : List Name) : Reached rid finished none (.stuck left) finished
  | finished : Reached rid finished none .finished (finished ++ [rid])

/-- A grant that gives names back. -/
theorem giveBack (sound : Sound w) {rid : Rid}
    (outstanding : (∃ names, w.phase rid = .held names) ∨ ∃ left, w.phase rid = .unlocking left)
    (names : List Name) {parked : Option (Name × List (Name × Option D))} {phase : Phase Name}
    {finished : List Rid} (reached : Reached rid w.finished parked phase finished) :
    Sound { w.giveBack rid names parked phase with finished := finished } := by
  have open' : w.phase rid ≠ .idle ∧ (∀ list, w.phase rid ≠ .queued list) ∧
      w.phase rid ≠ .finished := by
    rcases outstanding with ⟨list, at'⟩ | ⟨list, at'⟩ <;> simp [at']
  have other_phase : phase ≠ .idle ∧ (∀ list, phase ≠ .queued list) ∧
      ∀ list, phase ≠ .held list := by
    cases reached <;> simp
  constructor
  · exact ⟨sound.waits.session, sound.waits.distinct⟩
  · exact sound.quiet
  · intro other list
    by_cases here : other = rid
    · subst here
      have absent : (other, list) ∉ w.proc.waitting := fun member =>
        open'.2.1 list ((sound.queued other list).mp member)
      simp [World.giveBack, freeAll, absent, other_phase.2.1]
    · simpa [World.giveBack, freeAll, here] using sound.queued other list
  · intro other left
    by_cases here : other = rid
    · subst here
      cases reached with
      | parked name rest distinct =>
          simp only [World.giveBack, freeAll, Function.update_self, Phase.unlocking.injEq]
          constructor
          · rintro rfl
            exact ⟨name, rest, rfl, rfl⟩
          · rintro ⟨name', rest', same, rfl⟩
            cases same
            rfl
      | stuck left => simp [World.giveBack, freeAll]
      | finished => simp [World.giveBack, freeAll]
    · simpa [World.giveBack, freeAll, here] using sound.suspended other left
  · intro other left
    by_cases here : other = rid
    · subst here
      cases reached with
      | parked name rest distinct =>
          simp only [World.giveBack, Function.update_self, Phase.unlocking.injEq]
          rintro rfl
          exact distinct
      | stuck left => simp [World.giveBack]
      | finished => simp [World.giveBack]
    · simpa [World.giveBack, here] using sound.distinct other left
  · intro other
    by_cases here : other = rid
    · subst here
      simpa [World.giveBack, other_phase.1, open'.1] using sound.requested other
    · simpa [World.giveBack, here] using sound.requested other
  · exact sound.once
  · intro other list
    by_cases here : other = rid
    · subst here
      simp [World.giveBack, other_phase]
    · simpa [World.giveBack, here] using sound.named other list
  · intro other
    by_cases here : other = rid
    · subst here
      simpa [World.giveBack, other_phase, open'] using sound.replied other
    · simpa [World.giveBack, here] using sound.replied other
  · exact sound.repliedOnce
  · exact sound.answers
  · intro other
    have was := sound.finished other
    by_cases here : other = rid
    · subst here
      cases reached <;> simp [World.giveBack, open'.2.2, was]
    · cases reached <;> simpa [World.giveBack, here] using was
  · cases reached with
    | parked name rest distinct => exact sound.finishedOnce
    | stuck left => exact sound.finishedOnce
    | finished =>
        have absent : rid ∉ w.finished := by
          rw [sound.finished rid]
          exact open'.2.2
        simpa using List.Nodup.concat absent sound.finishedOnce

/-- The pass grants queued requests, each once. -/
theorem passed (sound : Sound w) {woken : List (Rid × List Name)} (pass : Passed w w' woken) :
    Sound w' := by
  obtain ⟨q, scanned, proc⟩ := pass.proc
  have inQueue : ∀ entry ∈ woken, w.phase entry.1 = .queued entry.2 := fun entry member =>
    (sound.queued entry.1 entry.2).mp (scanned.perm.mem_iff.mpr (List.mem_append_left _ member))
  have wokenKeys : ∀ rid, rid ∈ woken.map Prod.fst ↔ ∃ names, (rid, names) ∈ woken := by
    simp
  have keys := (scanned.perm.map Prod.fst).nodup_iff.mp sound.waits.distinct
  rw [List.map_append, List.nodup_append] at keys
  obtain ⟨wokenOnce, keptOnce, disjoint⟩ := keys
  have phaseOf : ∀ rid, (∃ names, (rid, names) ∈ woken ∧ w.phase rid = .queued names ∧
      w'.phase rid = .held names) ∨ (rid ∉ woken.map Prod.fst ∧ w'.phase rid = w.phase rid) := by
    intro rid
    by_cases inWoken : rid ∈ woken.map Prod.fst
    · obtain ⟨names, member⟩ := (wokenKeys rid).mp inWoken
      have was := inQueue _ member
      refine .inl ⟨names, member, was, ?_⟩
      rw [pass.phase rid, if_pos inWoken, was]
      rfl
    · exact .inr ⟨inWoken, by rw [pass.phase rid, if_neg inWoken]⟩
  constructor
  · rw [proc]
    constructor
    · intro entry member
      have notWoken : entry.1 ∉ woken.map Prod.fst := fun inWoken =>
        disjoint entry.1 inWoken entry.1 (List.mem_map_of_mem member) rfl
      rw [scanned.sessions entry.1]
      simp [sound.waits.session entry (scanned.kept.subset member), notWoken]
    · exact keptOnce
  · rw [proc]
  · intro rid names
    rw [proc]
    rcases phaseOf rid with ⟨list, member, was, now⟩ | ⟨notWoken, same⟩
    · rw [now]
      constructor
      · intro kept
        exact absurd rfl (disjoint rid (List.mem_map_of_mem member) rid
          (List.mem_map_of_mem (f := Prod.fst) kept))
      · intro phase
        cases phase
    · rw [same, ← sound.queued rid names, scanned.perm.mem_iff, List.mem_append]
      exact ⟨.inr, fun either => either.resolve_left fun member =>
        notWoken (List.mem_map_of_mem member)⟩
  · intro rid left
    rw [proc]
    have was := sound.suspended rid left
    rw [← scanned.patching] at was
    rcases phaseOf rid with ⟨list, member, queued, now⟩ | ⟨-, same⟩
    · rw [queued] at was
      rw [now]
      simpa using was
    · rw [same]
      exact was
  · intro rid left
    rcases phaseOf rid with ⟨list, member, queued, now⟩ | ⟨-, same⟩
    · simp [now]
    · rw [same]
      exact sound.distinct rid left
  · intro rid
    rw [pass.requests, sound.requested rid]
    rcases phaseOf rid with ⟨list, member, queued, now⟩ | ⟨-, same⟩
    · simp [queued, now]
    · rw [same]
  · rw [pass.requests]
    exact sound.once
  · intro rid names
    rw [pass.requests]
    rcases phaseOf rid with ⟨list, member, queued, now⟩ | ⟨-, same⟩
    · rw [now]
      intro phase
      have here : list = names := by simpa using phase
      exact here ▸ sound.named rid list (.inl queued)
    · rw [same]
      exact sound.named rid names
  · intro rid
    have was := sound.replied rid
    rw [pass.replies, List.map_append, List.mem_append, was, List.map_map]
    rcases phaseOf rid with ⟨list, member, queued, now⟩ | ⟨notWoken, same⟩
    · rw [now]
      have new : rid ∈ woken.map (Reply.rid ∘ fun entry =>
          ⟨entry.1, entry.2.map w.proc.state, w.proc.state⟩) := by
        simpa using ⟨list, member⟩
      simp [new]
    · rw [same]
      have old : rid ∉ woken.map (Reply.rid ∘ fun entry =>
          ⟨entry.1, entry.2.map w.proc.state, w.proc.state⟩) := by
        simpa using notWoken
      simp [old]
  · rw [pass.replies, List.map_append, List.map_map]
    refine List.nodup_append.mpr ⟨sound.repliedOnce, by simpa [Function.comp_def] using wokenOnce,
      ?_⟩
    intro rid inOld other inNew same
    subst same
    obtain ⟨entry, member, rfl⟩ := List.mem_map.mp inNew
    exact ((sound.replied entry.1).mp inOld).2 entry.2 (inQueue entry member)
  · intro reply member
    rw [pass.requests]
    rw [pass.replies] at member
    rcases List.mem_append.mp member with old | new
    · exact sound.answers reply old
    · obtain ⟨entry, inWoken, rfl⟩ := List.mem_map.mp new
      exact ⟨entry.2, sound.named _ _ (.inl (inQueue entry inWoken)), rfl⟩
  · intro rid
    rw [pass.finished, sound.finished rid]
    rcases phaseOf rid with ⟨list, member, queued, now⟩ | ⟨-, same⟩
    · simp [queued, now]
    · rw [same]
  · rw [pass.finished]
    exact sound.finishedOnce

/-- The names that a message lets an `unlock` give back are those of an outstanding grant. -/
theorem outstanding (sound : Sound w) {event : Event Name Addr Rid T D} {rid : Rid}
    {entries : List (Name × Option D)} (returns : Returns w rid event entries)
    (enabled : w.Enabled event) :
    ((∃ names, w.phase rid = .held names) ∨ ∃ left, w.phase rid = .unlocking left) ∧
      (entries.map Prod.fst).Nodup ∧ ∀ n, n ∈ entries.map Prod.fst ↔ w.Covers rid n := by
  cases returns with
  | start patchMap =>
      obtain ⟨names, held, distinct, same⟩ := enabled
      refine ⟨.inl ⟨names, held⟩, distinct, ?_⟩
      intro n
      rw [Covers, held]
      exact same n
  | resume name rest parked =>
      have phase := (sound.suspended rid _).mpr ⟨name, rest, parked, rfl⟩
      refine ⟨.inr ⟨_, phase⟩, sound.distinct rid _ phase, ?_⟩
      intro n
      rw [Covers, phase]
      rfl

/-- A cell that has come up is entered under its name, which is free. -/
theorem created (sound : Sound w) (rid : Rid) (addr : Addr) (name : Name) :
    Sound { w with proc := { w.proc with
      state := Function.update w.proc.state name (some addr)
      locked := Function.update w.proc.locked name (some false)
      spawning := Function.update w.proc.spawning rid none } } :=
  sound.keep _ rfl rfl rfl rfl

/-- An `unlock` has given back all its names, and is about to wake the queue. -/
theorem returned (sound : Sound w) {event : Event Name Addr Rid T D} {rid : Rid}
    {entries : List (Name × Option D)} (returns : Returns w rid event entries)
    (enabled : w.Enabled event) :
    Sound { w.giveBack rid (entries.map Prod.fst) none .finished with
      finished := w.finished ++ [rid] } :=
  sound.giveBack (sound.outstanding returns enabled).1 _ .finished

/-- Every effect keeps the history sound. -/
theorem moves (sound : Sound w) {event : Event Name Addr Rid T D} (enabled : w.Enabled event)
    (moved : Moves w event w') : Sound w' := by
  cases moved with
  | createRaised rid name t taken => exact sound
  | creating rid name t absent => exact sound.keep _ rfl rfl rfl rfl
  | createFailed rid => exact sound.keep _ rfl rfl rfl rfl
  | released name => exact sound.keep _ rfl rfl rfl rfl
  | created rid addr name asked =>
      have before := sound.created rid addr name
      have pass := pass_spec _ before.waits before.quiet
      exact before.passed pass
  | granted rid names ready => exact sound.asked enabled .granted
  | queued rid names blocked => exact sound.asked enabled .enqueued
  | parked _ rid before rest name patch addr returns plain cell =>
      obtain ⟨open', distinct, -⟩ := sound.outstanding returns enabled
      have tail : (name :: rest.map Prod.fst).Nodup := by
        rw [List.map_append, List.nodup_append] at distinct
        exact distinct.2.1
      exact sound.giveBack open' _ (.parked name rest tail)
  | raised _ rid before rest name patch returns plain noCell =>
      exact sound.giveBack (sound.outstanding returns enabled).1 _ (.stuck _)
  | returned _ rid entries returns plain =>
      have before := sound.returned returns enabled
      have pass := pass_spec _ before.waits before.quiet
      exact before.passed pass
  | failed rid name rest parked =>
      have phase := (sound.suspended rid _).mpr ⟨name, rest, parked, rfl⟩
      exact sound.giveBack (.inr ⟨_, phase⟩) _ (.stuck _)

theorem step (sound : Sound w) {event : Event Name Addr Rid T D} (taken : Step w event w') :
    Sound w' :=
  sound.moves taken.1 (moves_of_step sound taken)

end Sound

end World

end WindLtask.Manager
