import Mathlib.Data.List.Pairwise
import WindLtask.Manager.Sound

/-!
# Mutual exclusion of lock grants

`newstate` writes `locked[name] = false` without looking at who holds the name.
That is the only write that can free a name behind the back of its grant: a run
keeps every granted name locked, for one grant, exactly as long as no `newstate`
completes on a name that a grant covers.
-/

set_option linter.unusedSectionVars false

namespace WindLtask.Manager

variable {Name Addr Rid T D : Type} [DecidableEq Name] [DecidableEq Rid]

namespace World

open Process

variable {w w' : World Name Addr Rid D}

/-- Every granted name is locked, for one grant alone. -/
structure Exclusive (w : World Name Addr Rid D) : Prop where
  single : ∀ n first second, w.Covers first n → w.Covers second n → first = second
  marked : ∀ rid n, w.Covers rid n → w.proc.locked n = some true

/-- The message does not complete a `newstate` of a name that a grant covers. -/
def NewstateClear (w : World Name Addr Rid D) : Event Name Addr Rid T D → Prop
  | .spawned rid _ => ∀ name, w.proc.spawning rid = some name → ∀ holder, ¬ w.Covers holder name
  | _ => True

/-! ## What a step does to the coverage -/

theorem covers_update (rid : Rid) (phase : Phase Name) (other : Rid) (n : Name) :
    World.Covers { w with phase := Function.update w.phase rid phase } other n ↔
      if other = rid then n ∈ phase.covered else w.Covers other n := by
  by_cases here : other = rid
  · subst here
    simp [Covers]
  · simp [Covers, here]

/-- The names that a grant has given back are no longer covered by it. -/
theorem covers_giveBack (sound : Sound w) {event : Event Name Addr Rid T D} {rid : Rid}
    {before rest : List (Name × Option D)} (returns : Returns w rid event (before ++ rest))
    (enabled : w.Enabled event) (parked : Option (Name × List (Name × Option D)))
    {phase : Phase Name} (left : phase.covered = rest.map Prod.fst) (other : Rid) (n : Name) :
    (w.giveBack rid (before.map Prod.fst) parked phase).Covers other n ↔
      w.Covers other n ∧ ¬ (other = rid ∧ n ∈ before.map Prod.fst) := by
  obtain ⟨-, distinct, names⟩ := sound.outstanding returns enabled
  rw [List.map_append, List.nodup_append] at distinct
  by_cases here : other = rid
  · subst here
    have split := names n
    rw [List.map_append, List.mem_append] at split
    simp only [Covers, World.giveBack, Function.update_self, left, true_and]
    constructor
    · intro inRest
      exact ⟨split.mp (.inr inRest), fun inBefore => distinct.2.2 n inBefore n inRest rfl⟩
    · rintro ⟨covered, notBefore⟩
      exact (split.mpr covered).resolve_left notBefore
  · simp [Covers, World.giveBack, here]

/-- A pass adds the names of the requests that it grants. -/
theorem covers_passed (sound : Sound w) {woken : List (Rid × List Name)}
    (pass : Passed w w' woken) (rid : Rid) (n : Name) :
    w'.Covers rid n ↔ w.Covers rid n ∨ ∃ names, (rid, names) ∈ woken ∧ n ∈ names := by
  obtain ⟨q, scanned, -⟩ := pass.proc
  have inQueue : ∀ names, (rid, names) ∈ woken → w.phase rid = .queued names := fun names member =>
    (sound.queued rid names).mp (scanned.perm.mem_iff.mpr (List.mem_append_left _ member))
  rw [Covers, Covers, pass.phase rid]
  by_cases inWoken : rid ∈ woken.map Prod.fst
  · obtain ⟨⟨first, names⟩, member, same⟩ := List.mem_map.mp inWoken
    cases same
    have was := inQueue names member
    rw [if_pos inWoken, was]
    constructor
    · exact fun covered => .inr ⟨names, member, covered⟩
    · rintro (covered | ⟨other, also, inOther⟩)
      · cases covered
      · have same := inQueue other also
        rw [was] at same
        cases same
        exact inOther
  · rw [if_neg inWoken]
    constructor
    · exact .inl
    · rintro (covered | ⟨names, member, -⟩)
      · exact covered
      · exact absurd (List.mem_map_of_mem member) inWoken

/-! ## The step lemma -/

namespace Exclusive

theorem init : Exclusive (init : World Name Addr Rid D) where
  single := by simp [Covers, World.init, Phase.covered]
  marked := by simp [Covers, World.init, Phase.covered]

/-- The pass grants only names that no grant covers. -/
theorem passed (sound : Sound w) (exclusive : Exclusive w) {woken : List (Rid × List Name)}
    (pass : Passed w w' woken) : Exclusive w' := by
  obtain ⟨q, scanned, proc⟩ := pass.proc
  have keys := (scanned.perm.map Prod.fst).nodup_iff.mp sound.waits.distinct
  rw [List.map_append, List.nodup_append] at keys
  have notCovered : ∀ rid names, (rid, names) ∈ woken → ∀ n ∈ names, ∀ holder,
      ¬ w.Covers holder n := fun rid names member n inNames holder covered =>
    scanned.ready _ member ⟨n, inNames, exclusive.marked holder n covered⟩
  constructor
  · intro n first second inFirst inSecond
    rw [covers_passed sound pass] at inFirst inSecond
    rcases inFirst with inFirst | ⟨names, member, inNames⟩
    · rcases inSecond with inSecond | ⟨names, member, inNames⟩
      · exact exclusive.single n first second inFirst inSecond
      · exact absurd inFirst (notCovered second names member n inNames first)
    · rcases inSecond with inSecond | ⟨others, also, inOthers⟩
      · exact absurd inSecond (notCovered first names member n inNames second)
      · by_contra different
        have pair : (first, names) ≠ (second, others) := fun same =>
          different (congrArg Prod.fst same)
        have symmetric : Std.Symm fun left right : Rid × List Name => ∀ m ∈ left.2, m ∉ right.2 :=
          ⟨fun left right apart m inRight inLeft => apart m inLeft inRight⟩
        exact scanned.apart.forall member also pair n inNames inOthers
  · intro rid n covered
    rw [covers_passed sound pass] at covered
    rw [proc]
    rw [scanned.locked n]
    rcases covered with covered | ⟨names, member, inNames⟩
    · split
      · rfl
      · exact exclusive.marked rid n covered
    · rw [if_pos (List.mem_flatMap.mpr ⟨_, member, inNames⟩)]

/-- Giving back names frees no name of another grant. -/
theorem giveBack (sound : Sound w) (exclusive : Exclusive w) {event : Event Name Addr Rid T D}
    {rid : Rid} (before rest : List (Name × Option D))
    (returns : Returns w rid event (before ++ rest)) (enabled : w.Enabled event)
    (parked : Option (Name × List (Name × Option D))) (phase : Phase Name)
    (left : phase.covered = rest.map Prod.fst) :
    Exclusive (w.giveBack rid (before.map Prod.fst) parked phase) := by
  have covers := covers_giveBack sound returns enabled parked left
  have names := (sound.outstanding returns enabled).2.2
  constructor
  · intro n first second inFirst inSecond
    exact exclusive.single n first second ((covers _ _).mp inFirst).1 ((covers _ _).mp inSecond).1
  · intro other n covered
    obtain ⟨was, notBack⟩ := (covers other n).mp covered
    have notFreed : n ∉ before.map Prod.fst := by
      intro freed
      have owner : w.Covers rid n := (names n).mp (by
        rw [List.map_append]
        exact List.mem_append_left _ freed)
      exact notBack ⟨exclusive.single n other rid was owner, freed⟩
    simp only [World.giveBack, freeAll, if_neg notFreed]
    exact exclusive.marked other n was

/-- A step that completes no `newstate` of a granted name keeps the grants exclusive. -/
theorem moves (sound : Sound w) (exclusive : Exclusive w) {event : Event Name Addr Rid T D}
    (enabled : w.Enabled event) (clear : w.NewstateClear event) (moved : Moves w event w') :
    Exclusive w' := by
  cases moved with
  | createRaised rid name t taken => exact exclusive
  | creating rid name t absent => exact ⟨exclusive.single, exclusive.marked⟩
  | createFailed rid => exact ⟨exclusive.single, exclusive.marked⟩
  | released name => exact ⟨exclusive.single, exclusive.marked⟩
  | created rid addr name asked =>
      have before := sound.created rid addr name
      have pass := pass_spec _ before.waits before.quiet
      refine passed before ⟨exclusive.single, ?_⟩ pass
      intro holder n covered
      have apart : n ≠ name := fun same => clear name asked holder (same ▸ covered)
      simpa [apart] using exclusive.marked holder n covered
  | granted rid names ready =>
      have covers := covers_update (w := w) rid (.held names)
      have notCovered : ∀ n ∈ names, ∀ holder, ¬ w.Covers holder n :=
        fun n inNames holder covered => ready ⟨n, inNames, exclusive.marked holder n covered⟩
      constructor
      · intro n first second inFirst inSecond
        have inFirst := (covers first n).mp inFirst
        have inSecond := (covers second n).mp inSecond
        split at inFirst <;> split at inSecond
        · next here there => exact here.trans there.symm
        · exact absurd inSecond (notCovered n inFirst second)
        · exact absurd inFirst (notCovered n inSecond first)
        · exact exclusive.single n first second inFirst inSecond
      · intro other n covered
        have covered := (covers other n).mp covered
        simp only [lockAll_apply]
        split at covered
        · rw [if_pos (by simpa [Phase.covered] using covered)]
        · split
          · rfl
          · exact exclusive.marked other n covered
  | queued rid names blocked =>
      have covers := covers_update (w := w) rid (.queued names)
      have none_new : ∀ other n, World.Covers
          { w with phase := Function.update w.phase rid (.queued names) } other n →
            w.Covers other n := by
        intro other n covered
        have covered := (covers other n).mp covered
        split at covered
        · cases covered
        · exact covered
      constructor
      · intro n first second inFirst inSecond
        exact exclusive.single n first second (none_new _ _ inFirst) (none_new _ _ inSecond)
      · intro other n covered
        exact exclusive.marked other n (none_new _ _ covered)
  | parked _ rid before rest name patch addr returns plain cell =>
      exact exclusive.giveBack sound _ _ returns enabled _ _ rfl
  | raised _ rid before rest name patch returns plain noCell =>
      exact exclusive.giveBack sound _ _ returns enabled _ _ rfl
  | returned _ rid entries returns plain =>
      have soundBack := sound.returned returns enabled
      have pass := pass_spec _ soundBack.waits soundBack.quiet
      have back := exclusive.giveBack sound entries [] (by rwa [List.append_nil]) enabled none
        .finished
        rfl
      exact passed soundBack ⟨back.single, back.marked⟩ pass
  | failed rid name rest parked =>
      exact exclusive.giveBack (T := T) sound [] _ (.resume name rest parked) enabled none
        (.stuck (name :: rest.map Prod.fst)) rfl

end Exclusive

/-- Every locked name is covered by a grant. -/
def Owned (w : World Name Addr Rid D) : Prop :=
  ∀ n, w.proc.locked n = some true → ∃ rid, w.Covers rid n

namespace Owned

theorem init : Owned (init : World Name Addr Rid D) := by
  simp [Owned, World.init, Process.init]

theorem passed (sound : Sound w) (owned : Owned w) {woken : List (Rid × List Name)}
    (pass : Passed w w' woken) : Owned w' := by
  obtain ⟨q, scanned, proc⟩ := pass.proc
  intro n locked
  rw [proc] at locked
  rw [scanned.locked n] at locked
  split at locked
  · next inWoken =>
    obtain ⟨⟨rid, names⟩, member, inNames⟩ := List.mem_flatMap.mp inWoken
    exact ⟨rid, (covers_passed sound pass rid n).mpr (.inr ⟨names, member, inNames⟩)⟩
  · obtain ⟨rid, covered⟩ := owned n locked
    exact ⟨rid, (covers_passed sound pass rid n).mpr (.inl covered)⟩

theorem giveBack (sound : Sound w) (owned : Owned w) {event : Event Name Addr Rid T D}
    {rid : Rid} (before rest : List (Name × Option D))
    (returns : Returns w rid event (before ++ rest)) (enabled : w.Enabled event)
    (parked : Option (Name × List (Name × Option D))) (phase : Phase Name)
    (left : phase.covered = rest.map Prod.fst) :
    Owned (w.giveBack rid (before.map Prod.fst) parked phase) := by
  intro n locked
  simp only [World.giveBack, freeAll] at locked
  split at locked
  · simp at locked
  · next notFreed =>
    obtain ⟨other, covered⟩ := owned n locked
    exact ⟨other, (covers_giveBack sound returns enabled parked left other n).mpr
      ⟨covered, fun back => notFreed back.2⟩⟩

/-- Every step keeps the locked names covered. -/
theorem moves (sound : Sound w) (owned : Owned w) {event : Event Name Addr Rid T D}
    (enabled : w.Enabled event) (moved : Moves w event w') : Owned w' := by
  cases moved with
  | createRaised rid name t taken => exact owned
  | creating rid name t absent => exact owned
  | createFailed rid => exact owned
  | released name => exact owned
  | created rid addr name asked =>
      have before := sound.created rid addr name
      have pass := pass_spec _ before.waits before.quiet
      refine passed before ?_ pass
      intro n locked
      have apart : n ≠ name := by
        rintro rfl
        simp at locked
      exact owned n (by simpa [apart] using locked)
  | granted rid names ready =>
      intro n locked
      have locked : lockAll names w.proc.locked n = some true := locked
      rw [lockAll_apply] at locked
      by_cases inNames : n ∈ names
      · exact ⟨rid, (covers_update rid (.held names) rid n).mpr (by simpa [Phase.covered])⟩
      · rw [if_neg inNames] at locked
        obtain ⟨other, covered⟩ := owned n locked
        have apart : other ≠ rid := by
          rintro rfl
          rw [Covers, show w.phase other = .idle from enabled] at covered
          cases covered
        exact ⟨other, (covers_update rid (.held names) other n).mpr (by rwa [if_neg apart])⟩
  | queued rid names blocked =>
      intro n locked
      obtain ⟨other, covered⟩ := owned n locked
      have apart : other ≠ rid := by
        rintro rfl
        rw [Covers, show w.phase other = .idle from enabled] at covered
        cases covered
      exact ⟨other, (covers_update rid (.queued names) other n).mpr (by rwa [if_neg apart])⟩
  | parked _ rid before rest name patch addr returns plain cell =>
      exact owned.giveBack sound _ _ returns enabled _ _ rfl
  | raised _ rid before rest name patch returns plain noCell =>
      exact owned.giveBack sound _ _ returns enabled _ _ rfl
  | returned _ rid entries returns plain =>
      have soundBack := sound.returned returns enabled
      have pass := pass_spec _ soundBack.waits soundBack.quiet
      have back := owned.giveBack sound entries [] (by rwa [List.append_nil]) enabled none .finished
        rfl
      exact passed soundBack back pass
  | failed rid name rest parked =>
      exact owned.giveBack (T := T) sound [] _ (.resume name rest parked) enabled none
        (.stuck (name :: rest.map Prod.fst)) rfl

end Owned

end World

end WindLtask.Manager
