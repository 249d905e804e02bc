import WindLtask.Manager.Exclusion

/-!
# The wait queue

Runs in which requests name created states, every `patch` call succeeds, and
nothing is released.  There the queue neither loses nor repeats a wake-up, and
between two `unlock`s no queued request is free to go.
-/

set_option linter.unusedSectionVars false

namespace WindLtask.Manager

variable {Name Addr Rid T D : Type} [DecidableEq Name] [DecidableEq Rid]

namespace World

open Process

variable {w w' : World Name Addr Rid D}

/-- Locks of created names, `newstate` of fresh names, and no release. -/
def Fixed (w : World Name Addr Rid D) : Event Name Addr Rid T D → Prop
  | .newstate _ name _ => w.proc.state name = none ∧ ∀ rid, w.proc.spawning rid ≠ some name
  | .releasestate _ => False
  | .lock _ names => ∀ n ∈ names, (w.proc.state n).isSome
  | _ => True

/-- In addition every `patch` call succeeds. -/
def Orderly (w : World Name Addr Rid D) (event : Event Name Addr Rid T D) : Prop :=
  w.Fixed event ∧ ∀ rid, event ≠ .patchFailed rid

/-- `rid` has been granted and its `unlock` has not completed. -/
def Outstanding (w : World Name Addr Rid D) (rid : Rid) : Prop :=
  rid ∈ w.replies.map Reply.rid ∧ rid ∉ w.finished

/-- What the wait queue owes its clients. -/
structure Served (w : World Name Addr Rid D) : Prop where
  /-- `try_wakup` returns, whatever the tables are when it is called -/
  ends : ∀ p : Process Name Addr Rid D, p.waitting = w.proc.waitting →
    ∃ q, ∀ fuel, p.waitting.length < fuel → wakupLoop fuel 0 p = some q
  /-- a request is queued, granted or finished, and never two of these -/
  stands : ∀ rid names, (rid, names) ∈ w.requests →
    ((rid, names) ∈ w.proc.waitting ∧ ¬ w.Outstanding rid ∧ rid ∉ w.finished) ∨
    ((rid, names) ∉ w.proc.waitting ∧ w.Outstanding rid ∧ rid ∉ w.finished) ∨
    ((rid, names) ∉ w.proc.waitting ∧ ¬ w.Outstanding rid ∧ rid ∈ w.finished)
  queuedOnce : w.proc.waitting.Nodup ∧ ∀ entry ∈ w.proc.waitting, entry ∈ w.requests
  grantedOnce : (w.replies.map Reply.rid).Nodup
  /-- a reply holds the addresses of the names of its own request -/
  own : ∀ reply ∈ w.replies, ∃ names, (reply.rid, names) ∈ w.requests ∧
    reply.list = names.map w.proc.state ∧ ∀ n ∈ names, (w.proc.state n).isSome
  /-- a name is marked locked exactly when one outstanding grant covers it -/
  marked : ∀ n, w.proc.locked n = some true ↔ ∃! rid, w.Outstanding rid ∧ w.Covers rid n
  /-- with no `unlock` suspended, a queued request waits for a granted name -/
  held : (∀ rid, w.proc.patching rid = none) → ∀ entry ∈ w.proc.waitting,
    ∃ n ∈ entry.2, ∃ rid, w.Outstanding rid ∧ w.Covers rid n

/-- What a run over fixed states keeps besides the history and the exclusion. -/
structure Stocked (w : World Name Addr Rid D) : Prop where
  cells : ∀ entry ∈ w.requests, ∀ n ∈ entry.2, (w.proc.state n).isSome
  fresh : ∀ rid name, w.proc.spawning rid = some name → w.proc.state name = none
  alone : ∀ first second name, w.proc.spawning first = some name →
    w.proc.spawning second = some name → first = second
  covered : ∀ rid n, w.Covers rid n → (w.proc.state n).isSome
  own : ∀ reply ∈ w.replies, ∃ names, (reply.rid, names) ∈ w.requests ∧
    reply.list = names.map w.proc.state

/-- With no `unlock` suspended, every queued request is blocked. -/
def Blocking (w : World Name Addr Rid D) : Prop :=
  (∀ rid, w.proc.patching rid = none) → ∀ entry ∈ w.proc.waitting, w.proc.Blocked entry.2

namespace Stocked

theorem init : Stocked (init : World Name Addr Rid D) where
  cells := by simp [World.init]
  fresh := by simp [World.init, Process.init]
  alone := by simp [World.init, Process.init]
  covered := by simp [Covers, World.init, Phase.covered]
  own := by simp [World.init]

theorem passed (sound : Sound w) (stocked : Stocked w) {woken : List (Rid × List Name)}
    (pass : Passed w w' woken) : Stocked w' := by
  obtain ⟨q, scanned, proc⟩ := pass.proc
  have state : w'.proc.state = w.proc.state := by rw [proc]; exact scanned.state
  have spawning : w'.proc.spawning = w.proc.spawning := by rw [proc]; exact scanned.spawning
  have asked : ∀ entry ∈ woken, entry ∈ w.requests := fun entry member =>
    sound.named entry.1 entry.2 (.inl ((sound.queued entry.1 entry.2).mp
      (scanned.perm.mem_iff.mpr (List.mem_append_left _ member))))
  constructor
  · rw [pass.requests, state]
    exact stocked.cells
  · rw [spawning, state]
    exact stocked.fresh
  · rw [spawning]
    exact stocked.alone
  · intro rid n now
    rw [state]
    rcases (covers_passed sound pass rid n).mp now with before | ⟨names, member, inNames⟩
    · exact stocked.covered rid n before
    · exact stocked.cells _ (asked _ member) n inNames
  · intro reply member
    rw [pass.requests, state]
    rw [pass.replies] at member
    rcases List.mem_append.mp member with old | new
    · exact stocked.own reply old
    · obtain ⟨entry, inWoken, rfl⟩ := List.mem_map.mp new
      exact ⟨entry.2, asked entry inWoken, rfl⟩

/-- A new cell takes the place of no other. -/
theorem created (stocked : Stocked w) {rid : Rid} {name : Name} (addr : Addr)
    (asked : w.proc.spawning rid = some name) :
    Stocked { w with proc := { w.proc with
      state := Function.update w.proc.state name (some addr)
      locked := Function.update w.proc.locked name (some false)
      spawning := Function.update w.proc.spawning rid none } } := by
  have absent := stocked.fresh rid name asked
  have grown : ∀ n, (w.proc.state n).isSome →
      Function.update w.proc.state name (some addr) n = w.proc.state n := by
    intro n cell
    have apart : n ≠ name := by
      rintro rfl
      simp [absent] at cell
    rw [Function.update_of_ne apart]
  constructor
  · intro entry member n inNames
    have cell := stocked.cells entry member n inNames
    simpa only [grown n cell] using cell
  · intro other n spawning
    by_cases here : other = rid
    · subst here
      simp at spawning
    · have still : w.proc.spawning other = some n := by simpa [here] using spawning
      have apart : n ≠ name := fun same => here (stocked.alone other rid name (same ▸ still) asked)
      simpa [apart] using stocked.fresh other n still
  · intro first second n inFirst inSecond
    have at' : ∀ other, Function.update w.proc.spawning rid none other = some n →
        w.proc.spawning other = some n := by
      intro other spawning
      by_cases here : other = rid
      · subst here
        simp at spawning
      · simpa [here] using spawning
    exact stocked.alone first second n (at' first inFirst) (at' second inSecond)
  · intro holder n covered
    have cell := stocked.covered holder n covered
    simpa only [grown n cell] using cell
  · intro reply member
    obtain ⟨names, request, list⟩ := stocked.own reply member
    refine ⟨names, request, list.trans (List.map_congr_left fun n inNames => ?_)⟩
    exact (grown n (stocked.cells _ request n inNames)).symm

/-- Giving back names leaves the cells as they are. -/
theorem giveBack (sound : Sound w) (stocked : Stocked w) {event : Event Name Addr Rid T D}
    {rid : Rid} (before rest : List (Name × Option D))
    (returns : Returns w rid event (before ++ rest)) (enabled : w.Enabled event)
    (parked : Option (Name × List (Name × Option D))) (phase : Phase Name)
    (left : phase.covered = rest.map Prod.fst) :
    Stocked (w.giveBack rid (before.map Prod.fst) parked phase) where
  cells := stocked.cells
  fresh := stocked.fresh
  alone := stocked.alone
  covered := fun other n now =>
    stocked.covered other n ((covers_giveBack sound returns enabled parked left other n).mp now).1
  own := stocked.own

/-- A request that names created states is recorded. -/
theorem received (stocked : Stocked w) (rid : Rid) {names : List Name}
    (cells : ∀ n ∈ names, (w.proc.state n).isSome) (phase : Phase Name)
    (shape : phase = .held names ∨ phase = .queued names) (q : Process Name Addr Rid D)
    (state : q.state = w.proc.state) (spawning : q.spawning = w.proc.spawning)
    (replies : List (Reply Name Addr Rid))
    (own : ∀ reply ∈ replies, reply ∈ w.replies ∨
      reply = ⟨rid, names.map w.proc.state, w.proc.state⟩) :
    Stocked { w with
      proc := q
      phase := Function.update w.phase rid phase
      requests := w.requests ++ [(rid, names)]
      replies := replies } := by
  constructor
  · intro entry member
    rw [state]
    rcases List.mem_append.mp member with old | new
    · exact stocked.cells entry old
    · have same : entry = (rid, names) := by simpa using new
      exact same ▸ cells
  · rw [state, spawning]
    exact stocked.fresh
  · rw [spawning]
    exact stocked.alone
  · intro other n now
    have now := (covers_update (w := w) rid phase other n).mp now
    rw [state]
    split at now
    · rcases shape with rfl | rfl
      · exact cells n now
      · cases now
    · exact stocked.covered other n now
  · intro reply member
    rw [state]
    rcases own reply member with old | rfl
    · obtain ⟨list, request, shape⟩ := stocked.own reply old
      exact ⟨list, List.mem_append_left _ request, shape⟩
    · exact ⟨names, by simp, rfl⟩

/-- Every step over fixed states keeps the cells of the requests. -/
theorem moves (sound : Sound w) (stocked : Stocked w) {event : Event Name Addr Rid T D}
    (enabled : w.Enabled event) (orderly : w.Fixed event) (moved : Moves w event w') :
    Stocked w' := by
  cases moved with
  | createRaised rid name t taken => exact stocked
  | creating rid name t absent =>
      have at' : ∀ other n, Function.update w.proc.spawning rid (some name) other = some n →
          (other = rid ∧ n = name) ∨ w.proc.spawning other = some n := by
        intro other n spawning
        by_cases here : other = rid
        · subst here
          exact .inl ⟨rfl, by simpa [eq_comm] using spawning⟩
        · exact .inr (by simpa [here] using spawning)
      refine ⟨stocked.cells, ?_, ?_, stocked.covered, stocked.own⟩
      · intro other n spawning
        rcases at' other n spawning with ⟨-, rfl⟩ | still
        · exact absent
        · exact stocked.fresh other n still
      · intro first second n inFirst inSecond
        rcases at' first n inFirst with ⟨rfl, rfl⟩ | oldFirst
        · rcases at' second n inSecond with ⟨rfl, -⟩ | oldSecond
          · rfl
          · exact absurd oldSecond (orderly.2 second)
        · rcases at' second n inSecond with ⟨rfl, rfl⟩ | oldSecond
          · exact absurd oldFirst (orderly.2 first)
          · exact stocked.alone first second n oldFirst oldSecond
  | createFailed rid =>
      have at' : ∀ other n, Function.update w.proc.spawning rid none other = some n →
          w.proc.spawning other = some n := by
        intro other n spawning
        by_cases here : other = rid
        · subst here
          simp at spawning
        · simpa [here] using spawning
      exact ⟨stocked.cells, fun other n now => stocked.fresh other n (at' other n now),
        fun first second n inFirst inSecond =>
          stocked.alone first second n (at' first n inFirst) (at' second n inSecond),
        stocked.covered, stocked.own⟩
  | released name => exact orderly.elim
  | created rid addr name asked =>
      have before := sound.created rid addr name
      have pass := pass_spec _ before.waits before.quiet
      exact passed before (stocked.created addr asked) pass
  | granted rid names ready =>
      refine stocked.received rid orderly (.held names) (.inl rfl)
        { w.proc with locked := lockAll names w.proc.locked } rfl rfl
        (w.replies ++ [⟨rid, names.map w.proc.state, w.proc.state⟩]) ?_
      intro reply member
      simpa using member
  | queued rid names blocked =>
      exact stocked.received rid orderly (.queued names) (.inr rfl)
        { w.proc with
          waitting := w.proc.waitting ++ [(rid, names)]
          sessionWaiting := Function.update w.proc.sessionWaiting rid true } rfl rfl
        w.replies fun reply member => .inl member
  | parked _ rid before rest name patch addr returns plain cell =>
      exact stocked.giveBack sound _ _ returns enabled _ _ rfl
  | raised _ rid before rest name patch returns plain noCell =>
      have owner : w.Covers rid name := ((sound.outstanding returns enabled).2.2 name).mp (by simp)
      have cell := stocked.covered rid name owner
      simp [noCell] at cell
  | returned _ rid entries returns plain =>
      have soundBack := sound.returned returns enabled
      have pass := pass_spec _ soundBack.waits soundBack.quiet
      have back := stocked.giveBack sound entries [] (by rwa [List.append_nil]) enabled none
        .finished rfl
      exact passed soundBack ⟨back.cells, back.fresh, back.alone, back.covered, back.own⟩
        pass
  | failed rid name rest parked =>
      exact stocked.giveBack (T := T) sound [] _ (.resume name rest parked) enabled none
        (.stuck (name :: rest.map Prod.fst)) rfl

/-- Over fixed states a new cell is never one that a grant covers. -/
theorem newstateClear (stocked : Stocked w) (event : Event Name Addr Rid T D) :
    w.NewstateClear event := by
  cases event with
  | spawned rid addr =>
      intro name asked holder covered
      have cell := stocked.covered holder name covered
      simp [stocked.fresh rid name asked] at cell
  | _ => trivial

end Stocked

namespace Blocking

theorem init : Blocking (init : World Name Addr Rid D) := by
  simp [Blocking, World.init, Process.init]

/-- After a pass every queued request is blocked; no other orderly step frees a name for good. -/
theorem moves (sound : Sound w) (stocked : Stocked w) (blocking : Blocking w)
    {event : Event Name Addr Rid T D} (enabled : w.Enabled event) (orderly : w.Orderly event)
    (moved : Moves w event w') : Blocking w' := by
  cases moved with
  | createRaised rid name t taken => exact blocking
  | creating rid name t absent => exact blocking
  | createFailed rid => exact blocking
  | released name => exact orderly.1.elim
  | created rid addr name asked =>
      have before := sound.created rid addr name
      have pass := pass_spec _ before.waits before.quiet
      exact fun _ => pass.blocked
  | granted rid names ready =>
      intro none_suspended entry member
      exact blocked_of_lockAll names rfl (blocking none_suspended entry member)
  | queued rid names blocked =>
      intro none_suspended entry member
      rcases List.mem_append.mp member with old | new
      · exact blocking none_suspended entry old
      · have same : entry = (rid, names) := by simpa using new
        subst same
        exact blocked
  | parked _ rid before rest name patch addr returns plain cell =>
      intro none_suspended
      have suspended := none_suspended rid
      simp [World.giveBack] at suspended
  | raised _ rid before rest name patch returns plain noCell =>
      have owner : w.Covers rid name := ((sound.outstanding returns enabled).2.2 name).mp (by simp)
      have cell := stocked.covered rid name owner
      simp [noCell] at cell
  | returned _ rid entries returns plain =>
      have soundBack := sound.returned returns enabled
      have pass := pass_spec _ soundBack.waits soundBack.quiet
      exact fun _ => pass.blocked
  | failed rid name rest parked => exact absurd rfl (orderly.2 rid)

end Blocking

/-- The invariant of an orderly run. -/
structure Kept (w : World Name Addr Rid D) : Prop where
  sound : Sound w
  exclusive : Exclusive w
  owned : Owned w
  stocked : Stocked w
  blocking : Blocking w

namespace Kept

theorem init : Kept (init : World Name Addr Rid D) :=
  ⟨sound_init, .init, .init, .init, .init⟩


theorem step (kept : Kept w) {event : Event Name Addr Rid T D} (orderly : w.Orderly event)
    (taken : Step w event w') : Kept w' := by
  have moved := moves_of_step kept.sound taken
  exact ⟨kept.sound.moves taken.1 moved,
    kept.exclusive.moves kept.sound taken.1 (kept.stocked.newstateClear event) moved,
    kept.owned.moves kept.sound taken.1 moved,
    kept.stocked.moves kept.sound taken.1 orderly.1 moved,
    kept.blocking.moves kept.sound kept.stocked taken.1 orderly moved⟩

/-- A covering grant is outstanding. -/
theorem outstanding (kept : Kept w) {rid : Rid} {n : Name} (covered : w.Covers rid n) :
    w.Outstanding rid := by
  rw [Outstanding, kept.sound.replied rid, kept.sound.finished rid]
  rw [Covers] at covered
  cases phase : w.phase rid with
  | held names => simp
  | unlocking left => simp
  | stuck left => simp
  | _ =>
      rw [phase] at covered
      cases covered

theorem stands (kept : Kept w) (rid : Rid) (names : List Name) (asked : (rid, names) ∈ w.requests) :
    ((rid, names) ∈ w.proc.waitting ∧ ¬ w.Outstanding rid ∧ rid ∉ w.finished) ∨
    ((rid, names) ∉ w.proc.waitting ∧ w.Outstanding rid ∧ rid ∉ w.finished) ∨
    ((rid, names) ∉ w.proc.waitting ∧ ¬ w.Outstanding rid ∧ rid ∈ w.finished) := by
  have notIdle := (kept.sound.requested rid).mp (List.mem_map_of_mem asked)
  rw [Outstanding, kept.sound.replied rid, kept.sound.finished rid, kept.sound.queued rid names]
  cases phase : w.phase rid with
  | idle => exact absurd phase notIdle
  | queued others =>
      have request := kept.sound.named rid others (.inl phase)
      have same : others = names := by
        have entries := List.inj_on_of_nodup_map kept.sound.once request asked rfl
        exact congrArg Prod.snd entries
      simp [same]
  | held others => simp
  | unlocking left => simp
  | stuck left => simp
  | finished => simp

theorem marked (kept : Kept w) (n : Name) :
    w.proc.locked n = some true ↔ ∃! rid, w.Outstanding rid ∧ w.Covers rid n := by
  constructor
  · intro locked
    obtain ⟨rid, covered⟩ := kept.owned n locked
    exact ⟨rid, ⟨kept.outstanding covered, covered⟩, fun other also =>
      kept.exclusive.single n other rid also.2 covered⟩
  · rintro ⟨rid, ⟨-, covered⟩, -⟩
    exact kept.exclusive.marked rid n covered

theorem served (kept : Kept w) : Served w where
  ends := fun p _ => wakupLoop_ends p 0
  stands := kept.stands
  queuedOnce := ⟨kept.sound.waits.distinct.of_map, fun entry member =>
    kept.sound.named entry.1 entry.2 (.inl ((kept.sound.queued entry.1 entry.2).mp member))⟩
  grantedOnce := kept.sound.repliedOnce
  own := by
    intro reply member
    obtain ⟨names, request, list⟩ := kept.stocked.own reply member
    exact ⟨names, request, list, kept.stocked.cells _ request⟩
  marked := kept.marked
  held := by
    intro none_suspended entry member
    obtain ⟨n, inNames, locked⟩ := kept.blocking none_suspended entry member
    obtain ⟨rid, covered⟩ := kept.owned n locked
    exact ⟨n, inNames, rid, kept.outstanding covered, covered⟩

end Kept

/-- In every state of an orderly run the wait queue serves its clients. -/
theorem served_of_orderly
    {steps : List (World Name Addr Rid D × Event Name Addr Rid T D)} {w : World Name Addr Rid D}
    (run : Lib.Run Step World.init steps w)
    (orderly : ∀ taken ∈ steps, taken.1.Orderly taken.2) :
    ∀ v ∈ Lib.visited steps w, v.Served := by
  intro v member
  exact (run.invariant_visited (fun v event => v.Orderly event) Kept Kept.init
    (fun v event v' kept orderly step => kept.step orderly step) orderly v member).served

/-- A second request waits until the first is returned, with a change, and is then granted. -/
theorem served_of_waiting_request :
    ∃ (steps : List (World Nat Nat Nat Unit × Event Nat Nat Nat Unit Unit))
      (w : World Nat Nat Nat Unit),
      Lib.Run Step World.init steps w ∧ w.Outstanding 2 ∧ ∀ v ∈ Lib.visited steps w, v.Served := by
  have legal : Lib.Legal Enabled next (World.init : World Nat Nat Nat Unit)
      ([.newstate 1 7 (), .spawned 1 40, .lock 0 [7], .lock 2 [7], .unlock 0 [(7, some ())],
        .patched 0] : List (Event Nat Nat Nat Unit Unit)) := by
    refine ⟨rfl, ⟨rfl, fun n absent => ?_⟩, rfl, rfl, ⟨[7], rfl, by decide, by simp⟩, rfl, trivial⟩
    exact Option.some_ne_none 40 absent.symm
  have orderly : Lib.Legal Orderly next (World.init : World Nat Nat Nat Unit)
      ([.newstate 1 7 (), .spawned 1 40, .lock 0 [7], .lock 2 [7], .unlock 0 [(7, some ())],
        .patched 0] : List (Event Nat Nat Nat Unit Unit)) := by
    have cell : ∀ n ∈ [7], (Function.update (fun _ => none) 7 (some 40) n : Option Nat).isSome := by
      simp
    exact ⟨⟨⟨rfl, fun rid asked => Option.some_ne_none 7 asked.symm⟩, by simp⟩, ⟨trivial, by simp⟩,
      ⟨cell, by simp⟩, ⟨cell, by simp⟩, ⟨trivial, by simp⟩, ⟨trivial, by simp⟩, trivial⟩
  have run := Lib.Run.of_legal legal
  refine ⟨_, _, run, ?_, served_of_orderly run ((Lib.legal_iff _ _).mp orderly)⟩
  simp only [Outstanding]
  decide

end World

end WindLtask.Manager
