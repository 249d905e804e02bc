import WindLtask.Manager.Exclusion
import WindLtask.Worker.Starre

/-!
# Complete grants

`try_lock` takes a name without a cell for a free name, so a request for it can
be granted, with a hole in its reply.  A run has complete replies only if and
only if every request that `lock` or `try_wakup` finds free names states that
all have a cell.
-/

set_option linter.unusedSectionVars false

namespace WindLtask

/-! ## The loop of `starre.query` over a complete reply -/

namespace Query

variable {Name Addr K V : Type} [DecidableEq Name] [DecidableEq K] [DecidableEq V]

/-- The answer of a cell goes through the loop body, whatever the caches are at that moment. -/
def Loop (q : Query Name Addr K V) (given : Cache Name K V × Answer K V)
    (q' : Query Name Addr K V) : Prop :=
  ∃ name addr, q.awaits = some (name, addr) ∧ (q.receive given.1 name given.2).2 = some q'

end Query

namespace Manager

variable {Name Addr Rid T D : Type} [DecidableEq Name] [DecidableEq Rid]

namespace World

open Process

variable {w w' : World Name Addr Rid D}

/-- The names of a request are fixed when it arrives. -/
theorem Sound.names_eq (sound : Sound w) {rid : Rid} {first second : List Name}
    (left : (rid, first) ∈ w.requests) (right : (rid, second) ∈ w.requests) : first = second :=
  congrArg Prod.snd (List.inj_on_of_nodup_map sound.once left right rfl)

/-- While a grant covers a name, the cell of the name is the one in its reply, or it is gone. -/
def Addressed (w : World Name Addr Rid D) : Prop :=
  ∀ reply ∈ w.replies, ∀ n addr, w.Covers reply.rid n → w.proc.state n = some addr →
    reply.cells n = some addr

namespace Addressed

theorem init : Addressed (init : World Name Addr Rid D) := by
  simp [Addressed, World.init]

theorem passed (sound : Sound w) (addressed : Addressed w) {woken : List (Rid × List Name)}
    (pass : Passed w w' woken) : Addressed w' := by
  obtain ⟨q, scanned, proc⟩ := pass.proc
  have state : w'.proc.state = w.proc.state := by rw [proc]; exact scanned.state
  intro reply member n addr covered cell
  rw [state] at cell
  rw [pass.replies] at member
  rcases List.mem_append.mp member with old | new
  · rcases (covers_passed sound pass reply.rid n).mp covered with was | ⟨names, inWoken, -⟩
    · exact addressed reply old n addr was cell
    · have queued := (sound.queued reply.rid names).mp
        (scanned.perm.mem_iff.mpr (List.mem_append_left _ inWoken))
      exact absurd queued (((sound.replied reply.rid).mp (List.mem_map_of_mem old)).2 names)
  · obtain ⟨entry, -, rfl⟩ := List.mem_map.mp new
    exact cell

theorem giveBack (sound : Sound w) (addressed : Addressed w) {event : Event Name Addr Rid T D}
    {rid : Rid} (before rest : List (Name × Option D))
    (returns : Returns w rid event (before ++ rest)) (enabled : w.Enabled event)
    (parked : Option (Name × List (Name × Option D))) (phase : Phase Name)
    (left : phase.covered = rest.map Prod.fst) :
    Addressed (w.giveBack rid (before.map Prod.fst) parked phase) := by
  intro reply member n addr covered cell
  have was := ((covers_giveBack sound returns enabled parked left reply.rid n).mp covered).1
  exact addressed reply member n addr was cell

/-- Every step that completes no `newstate` of a granted name keeps the addresses. -/
theorem moves (sound : Sound w) (addressed : Addressed w) {event : Event Name Addr Rid T D}
    (enabled : w.Enabled event) (clear : w.NewstateClear event) (moved : Moves w event w') :
    Addressed w' := by
  cases moved with
  | createRaised rid name t taken => exact addressed
  | creating rid name t absent => exact addressed
  | createFailed rid => exact addressed
  | released name =>
      intro reply member n addr covered cell
      by_cases here : n = name
      · subst here
        simp at cell
      · exact addressed reply member n addr covered (by simpa [here] using cell)
  | created rid addr name asked =>
      have before := sound.created rid addr name
      have pass := pass_spec _ before.waits before.quiet
      refine passed before ?_ pass
      intro reply member n a covered cell
      have apart : n ≠ name := fun same => clear name asked reply.rid (same ▸ covered)
      exact addressed reply member n a covered (by simpa [apart] using cell)
  | granted rid names ready =>
      have fresh := (sound.fresh enabled).2.1
      intro reply member n addr covered cell
      rcases List.mem_append.mp member with old | new
      · have apart : reply.rid ≠ rid := by
          intro same
          exact fresh (same ▸ List.mem_map_of_mem old)
        have was := (covers_update rid (.held names) reply.rid n).mp covered
        rw [if_neg apart] at was
        exact addressed reply old n addr was cell
      · have same : reply = ⟨rid, names.map w.proc.state, w.proc.state⟩ := by simpa using new
        subst same
        exact cell
  | queued rid names blocked =>
      intro reply member n addr covered cell
      have was := (covers_update rid (.queued names) reply.rid n).mp covered
      split at was
      · cases was
      · exact addressed reply member n addr was cell
  | parked _ rid before rest name patch addr returns plain cell =>
      exact addressed.giveBack sound _ _ returns enabled _ _ rfl
  | raised _ rid before rest name patch returns plain noCell =>
      exact addressed.giveBack sound _ _ returns enabled _ _ rfl
  | returned _ rid entries returns plain =>
      have soundBack := sound.returned returns enabled
      have pass := pass_spec _ soundBack.waits soundBack.quiet
      have back := addressed.giveBack sound entries [] (by rwa [List.append_nil]) enabled none
        .finished rfl
      exact passed soundBack back pass
  | failed rid name rest parked =>
      exact addressed.giveBack (T := T) sound [] _ (.resume name rest parked) enabled none
        (.stuck (name :: rest.map Prod.fst)) rfl

end Addressed

end World

end Manager

end WindLtask
