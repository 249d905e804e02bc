import WindLtask.Manager.Line

/-!
# First come, first served

`try_wakup` serves the queue from its front, so requests for the same list of names
are served in turn.  `lock` does not look at the queue: a request that arrives
when a queued one has become free, and nobody has woken it yet, is granted first.
Names become free unnoticed in one place only, the loop of an `unlock` that yields
or raises after it has freed some of them.
-/

set_option linter.unusedSectionVars false

namespace WindLtask.Manager

variable {Name Addr Rid T D : Type} [DecidableEq Name] [DecidableEq Rid]

namespace World

open Process

variable {w w' : World Name Addr Rid D}

/-- Of two requests for the same list of names the earlier one is answered first. -/
def InTurn (w : World Name Addr Rid D) : Prop :=
  ∀ names first second, [(first, names), (second, names)].Sublist w.requests →
    second ∈ w.replies.map Reply.rid → [first, second].Sublist (w.replies.map Reply.rid)

/-- A lock request that finds its names free finds none for the same list in the queue. -/
def Patient (w : World Name Addr Rid D) (event : Event Name Addr Rid T D) : Prop :=
  ∀ rid names, event = .lock rid names → ¬ w.proc.Blocked names →
    ∀ entry ∈ w.proc.waitting, entry.2 ≠ names

/-- The queue has the last requests for each list, and the others were answered in order. -/
structure Ordered (w : World Name Addr Rid D) : Prop where
  named : ∀ entry ∈ w.proc.waitting, entry.2 ≠ []
  line : ∀ names, ∃ answered, forList names w.requests =
      answered ++ forList names w.proc.waitting ∧
    answered.Sublist (w.replies.map Reply.rid)

namespace Ordered

theorem init : Ordered (init : World Name Addr Rid D) where
  named := by simp [World.init, Process.init]
  line names := ⟨[], by simp [World.init, Process.init, forList], List.nil_sublist _⟩

/-- A step that neither receives a request nor answers one. -/
theorem still (ordered : Ordered w) (requests : w'.requests = w.requests)
    (waitting : w'.proc.waitting = w.proc.waitting) (replies : w'.replies = w.replies) :
    Ordered w' where
  named := by rw [waitting]; exact ordered.named
  line names := by rw [requests, waitting, replies]; exact ordered.line names

/-- A pass answers the front of each line. -/
theorem passed (ordered : Ordered w) (sound : Sound w)
    (pass : Passed w w' (grants w.proc.locked w.proc.waitting)) : Ordered w' := by
  obtain ⟨q, scanned, proc⟩ := pass.proc
  have waitting : w'.proc.waitting = q.waitting := by rw [proc]
  constructor
  · intro entry waiting
    rw [waitting] at waiting
    exact ordered.named entry (scanned.kept.subset waiting)
  · intro names
    obtain ⟨answered, whole, order⟩ := ordered.line names
    have front : forList names w.proc.waitting =
        forList names (grants w.proc.locked w.proc.waitting) ++ forList names q.waitting := by
      by_cases empty : names = []
      · -- no queued request is without names
        subst empty
        have nobody : forList [] w.proc.waitting = [] := by
          refine List.eq_nil_iff_forall_not_mem.mpr fun rid waiting => ?_
          exact ordered.named _ (mem_forList.mp waiting) rfl
        have perm : (forList [] w.proc.waitting).Perm _ := forList_perm scanned.perm
        rw [nobody, forList_append] at perm
        rw [nobody, perm.symm.eq_nil]
      · exact forList_of_woken sound.waits scanned empty
    refine ⟨answered ++ forList names (grants w.proc.locked w.proc.waitting), ?_, ?_⟩
    · rw [pass.requests, whole, front, waitting, List.append_assoc]
    · have taken : (forList names (grants w.proc.locked w.proc.waitting)).Sublist
          ((grants w.proc.locked w.proc.waitting).map Prod.fst) := List.filter_sublist.map _
      rw [pass.replies, List.map_append, List.map_map]
      exact order.append taken

/-- A request that is answered at once has nobody before it in the queue. -/
theorem granted (ordered : Ordered w) {rid : Rid} {names : List Name}
    (patient : ∀ entry ∈ w.proc.waitting, entry.2 ≠ names)
    (requests : w'.requests = w.requests ++ [(rid, names)])
    (waitting : w'.proc.waitting = w.proc.waitting)
    (replies : w'.replies.map Reply.rid = w.replies.map Reply.rid ++ [rid]) : Ordered w' := by
  constructor
  · rw [waitting]
    exact ordered.named
  · intro others
    obtain ⟨answered, whole, order⟩ := ordered.line others
    rw [requests, waitting, replies, forList_append, forList_singleton, whole]
    by_cases same : names = others
    · subst same
      have nobody : forList names w.proc.waitting = [] := by
        refine List.eq_nil_iff_forall_not_mem.mpr fun other waiting => ?_
        exact patient _ (mem_forList.mp waiting) rfl
      refine ⟨answered ++ [rid], ?_, order.append (List.Sublist.refl _)⟩
      rw [if_pos rfl, nobody, List.append_nil, List.append_nil]
    · refine ⟨answered, ?_, order.trans (List.sublist_append_left _ _)⟩
      rw [if_neg same, List.append_nil]

/-- A request that is blocked goes to the end of the queue. -/
theorem queued (ordered : Ordered w) {rid : Rid} {names : List Name}
    (blocked : w.proc.Blocked names) (requests : w'.requests = w.requests ++ [(rid, names)])
    (waitting : w'.proc.waitting = w.proc.waitting ++ [(rid, names)])
    (replies : w'.replies = w.replies) : Ordered w' := by
  constructor
  · intro entry waiting
    rw [waitting] at waiting
    rcases List.mem_append.mp waiting with old | new
    · exact ordered.named entry old
    · obtain ⟨n, inNames, -⟩ := blocked
      rw [List.mem_singleton.mp new]
      exact List.ne_nil_of_mem inNames
  · intro others
    obtain ⟨answered, whole, order⟩ := ordered.line others
    refine ⟨answered, ?_, by rwa [replies]⟩
    rw [requests, waitting, forList_append, forList_append, whole, List.append_assoc]

theorem moves (ordered : Ordered w) (sound : Sound w) {event : Event Name Addr Rid T D}
    (enabled : w.Enabled event) (patient : w.Patient event) (moved : Moves w event w') :
    Ordered w' := by
  cases moved with
  | createRaised rid name t taken => exact ordered
  | creating rid name t absent => exact ordered.still rfl rfl rfl
  | createFailed rid => exact ordered.still rfl rfl rfl
  | released name => exact ordered.still rfl rfl rfl
  | created rid addr name asked =>
      have before := sound.created rid addr name
      refine passed ?_ before (pass_spec _ before.waits before.quiet)
      exact ordered.still rfl rfl rfl
  | granted rid names ready =>
      exact ordered.granted (patient rid names rfl ready) rfl rfl (List.map_append ..)
  | queued rid names blocked => exact ordered.queued blocked rfl rfl rfl
  | parked _ rid before rest name patch addr returns plain cell => exact ordered.still rfl rfl rfl
  | raised _ rid before rest name patch returns plain noCell => exact ordered.still rfl rfl rfl
  | returned _ rid entries returns plain =>
      have back := sound.returned returns enabled
      refine passed ?_ back (pass_spec _ back.waits back.quiet)
      exact ordered.still rfl rfl rfl
  | failed rid name rest parked => exact ordered.still rfl rfl rfl

/-- What has been answered has been answered in turn. -/
theorem inTurn (ordered : Ordered w) (sound : Sound w) : InTurn w := by
  intro names first second arrived replied
  obtain ⟨answered, whole, order⟩ := ordered.line names
  have both : [first, second].Sublist (answered ++ forList names w.proc.waitting) := by
    rw [← whole]
    simpa [forList] using (arrived.filter fun entry => entry.2 = names).map Prod.fst
  have gone : second ∉ forList names w.proc.waitting := fun waiting =>
    ((sound.replied second).mp replied).2 names
      ((sound.queued second names).mp (mem_forList.mp waiting))
  obtain ⟨left, right, parts, inAnswered, inQueue⟩ := List.sublist_append_iff.mp both
  rcases List.eq_nil_or_concat right with rfl | ⟨front, last, rfl⟩
  · rw [List.append_nil] at parts
    rw [parts]
    exact inAnswered.trans order
  · -- the later one of the two is the last of any part at the end
    have ends := congrArg List.getLast? parts
    have same : second = last := by simpa using ends
    exact absurd (inQueue.subset (by simp [same])) gone

end Ordered

/-! ## When a queued request is free -/

/-- An `unlock` is suspended, or has raised. -/
def Returning (w : World Name Addr Rid D) : Prop :=
  ∃ rid left, w.phase rid = .unlocking left ∨ w.phase rid = .stuck left

/-- The queue is blocked, or an `unlock` has freed names and not woken it. -/
def Watched (w : World Name Addr Rid D) : Prop :=
  (∀ entry ∈ w.proc.waitting, w.proc.Blocked entry.2) ∨ w.Returning

namespace Watched

theorem init : Watched (init : World Name Addr Rid D) :=
  .inl (by simp [World.init, Process.init])

/-- A step that leaves the queue, the locks and the requests alone. -/
theorem still (watched : Watched w) (waitting : w'.proc.waitting = w.proc.waitting)
    (locked : w'.proc.locked = w.proc.locked) (phase : w'.phase = w.phase) : Watched w' := by
  rcases watched with blocked | ⟨rid, left, busy⟩
  · refine .inl fun entry waiting => ?_
    rw [waitting] at waiting
    rw [Blocked, locked]
    exact blocked entry waiting
  · exact .inr ⟨rid, left, by rwa [phase]⟩

/-- A new request takes nothing from the `unlock`s that are under way. -/
theorem received (returning : w.Returning) {rid : Rid} (idle : w.phase rid = .idle)
    {phase : Phase Name} (update : w'.phase = Function.update w.phase rid phase) :
    w'.Returning := by
  obtain ⟨other, left, busy⟩ := returning
  have apart : other ≠ rid := by
    rintro rfl
    simp [idle] at busy
  exact ⟨other, left, by rwa [update, Function.update_of_ne apart]⟩

theorem moves (watched : Watched w) (sound : Sound w) {event : Event Name Addr Rid T D}
    (enabled : w.Enabled event) (moved : Moves w event w') : Watched w' := by
  cases moved with
  | createRaised rid name t taken => exact watched
  | creating rid name t absent => exact watched.still rfl rfl rfl
  | createFailed rid => exact watched.still rfl rfl rfl
  | released name => exact watched.still rfl rfl rfl
  | created rid addr name asked =>
      have before := sound.created rid addr name
      exact .inl (pass_spec _ before.waits before.quiet).blocked
  | granted rid names ready =>
      rcases watched with blocked | returning
      · exact .inl fun entry waiting => blocked_of_lockAll names rfl (blocked entry waiting)
      · exact .inr (received returning enabled rfl)
  | queued rid names stopped =>
      rcases watched with blocked | returning
      · refine .inl fun entry waiting => ?_
        rcases List.mem_append.mp waiting with old | new
        · exact blocked entry old
        · rw [List.mem_singleton.mp new]
          exact stopped
      · exact .inr (received returning enabled rfl)
  | parked _ rid before rest name patch addr returns plain cell =>
      exact .inr ⟨rid, name :: rest.map Prod.fst, .inl (by simp [giveBack])⟩
  | raised _ rid before rest name patch returns plain noCell =>
      exact .inr ⟨rid, name :: rest.map Prod.fst, .inr (by simp [giveBack])⟩
  | returned _ rid entries returns plain =>
      have back := sound.returned returns enabled
      exact .inl (pass_spec _ back.waits back.quiet).blocked
  | failed rid name rest parked =>
      exact .inr ⟨rid, name :: rest.map Prod.fst, .inr (by simp [giveBack])⟩

end Watched

/-- Nobody is overtaken but while an `unlock` is suspended or after one has raised. -/
theorem returning_of_hasty
    {steps : List (World Name Addr Rid D × Event Name Addr Rid T D)} {w : World Name Addr Rid D}
    (run : Lib.Run Step World.init steps w) {event : Event Name Addr Rid T D}
    (hasty : ¬ w.Patient event) : w.Returning := by
  have inv : w.Sound ∧ w.Watched := by
    refine run.invariant (fun _ _ => True) (fun v => v.Sound ∧ v.Watched) ⟨sound_init, .init⟩
      ?_ (fun _ _ => trivial)
    rintro v event v' ⟨sound, watched⟩ - step
    have moved := moves_of_step sound step
    exact ⟨sound.moves step.1 moved, watched.moves sound step.1 moved⟩
  rcases inv.2 with blocked | returning
  · refine absurd ?_ hasty
    rintro rid names rfl free entry waiting rfl
    exact free (blocked entry waiting)
  · exact returning

/-! ## Turns -/

/-- An answer to a request behind a queued one for the same list is out of turn. -/
theorem not_inTurn {event : Event Name Addr Rid T D} (sound : Sound w) (enabled : w.Enabled event)
    (hasty : ¬ w.Patient event) (moved : Moves w event w') : ¬ InTurn w' := by
  intro turn
  apply hasty
  rintro rid names rfl free ⟨first, others⟩ waiting rfl
  have idle := (sound.queued first others).mp waiting
  obtain ⟨unasked, -, -⟩ := sound.fresh enabled
  have request := sound.named first others (.inl idle)
  have unanswered : first ∉ w.replies.map Reply.rid := fun replied =>
    ((sound.replied first).mp replied).2 others idle
  have apart : first ≠ rid := fun same => unasked (same ▸ List.mem_map_of_mem request)
  cases moved with
  | queued _ _ blocked => exact free blocked
  | granted _ _ ready =>
      have arrived : [(first, others), (rid, others)].Sublist (w.requests ++ [(rid, others)]) :=
        (List.singleton_sublist.mpr request).append (List.Sublist.refl _)
      have both := turn others first rid arrived (by simp)
      have replied := both.subset List.mem_cons_self
      rw [List.map_append, List.mem_append] at replied
      rcases replied with old | new
      · exact unanswered old
      · exact apart (List.mem_singleton.mp new)
  | parked _ _ _ _ _ _ _ returns => cases returns
  | raised _ _ _ _ _ _ returns => cases returns
  | returned _ _ _ returns => cases returns

/--
In a run of the manager the requests for each list of names are answered in the
order of their arrival if and only if no lock request finds its names free while
one for the same list is in the queue.
-/
theorem inTurn_iff_patient
    {steps : List (World Name Addr Rid D × Event Name Addr Rid T D)} {w : World Name Addr Rid D}
    (run : Lib.Run Step World.init steps w) :
    (∀ v ∈ Lib.visited steps w, v.InTurn) ↔ ∀ taken ∈ steps, taken.1.Patient taken.2 := by
  refine run.safe_iff (fun v event => v.Patient event) (fun v => v.Sound ∧ v.Ordered) InTurn
    ⟨sound_init, .init⟩ ?_ (fun v inv => inv.2.inTurn inv.1) ?_
  · rintro v event v' ⟨sound, ordered⟩ patient step
    have moved := moves_of_step sound step
    exact ⟨sound.moves step.1 moved, ordered.moves sound step.1 patient moved⟩
  · rintro v event v' ⟨sound, -⟩ hasty step
    exact not_inTurn sound step.1 hasty (moves_of_step sound step)

/-- A request is created, queued and answered after the one before it. -/
def turnRun : List (Event Nat Nat Nat Unit Unit) :=
  [.newstate 1 7 (), .spawned 1 40, .lock 0 [7], .lock 1 [7], .lock 2 [7], .unlock 0 [(7, none)]]

theorem turnRun_legal :
    Lib.Legal Enabled next (World.init : World Nat Nat Nat Unit) turnRun := by
  refine ⟨rfl, ⟨rfl, fun n absent => ?_⟩, rfl, rfl, rfl, ⟨[7], rfl, by decide, by simp⟩, trivial⟩
  exact Option.some_ne_none 40 absent.symm

theorem inTurn_of_turnRun :
    (∀ v ∈ Lib.visited (Lib.trace next World.init turnRun)
        (turnRun.foldl next (World.init : World Nat Nat Nat Unit)), v.InTurn) ↔
      ∀ taken ∈ Lib.trace next (World.init : World Nat Nat Nat Unit) turnRun,
        taken.1.Patient taken.2 :=
  inTurn_iff_patient (Lib.Run.of_legal turnRun_legal)

/-- A request comes while the `unlock` of two names is in the call for the second one. -/
def overtakingRun : List (Event Nat Nat Nat Unit Nat) :=
  [.newstate 1 7 (), .spawned 1 40, .newstate 2 8 (), .spawned 2 41, .lock 0 [7, 8], .lock 1 [7],
    .unlock 0 [(7, none), (8, some 5)], .lock 2 [7]]

theorem overtakingRun_legal :
    Lib.Legal Enabled next (World.init : World Nat Nat Nat Nat) overtakingRun := by
  refine ⟨rfl, ⟨rfl, fun n absent => ?_⟩, rfl, ⟨rfl, fun n entry => ?_⟩, rfl, rfl,
    ⟨[7, 8], rfl, by decide, by simp⟩, rfl, trivial⟩
  · exact Option.some_ne_none 40 absent.symm
  · exact new_of_single (by decide : 40 ≠ 41) 7 n entry

/-- In a run without releases the later of two requests for `7` is answered alone. -/
theorem overtaken :
    ∃ (steps : List (World Nat Nat Nat Nat × Event Nat Nat Nat Unit Nat))
      (w : World Nat Nat Nat Nat),
      Lib.Run Step World.init steps w ∧ (∀ taken ∈ steps, ∀ n, taken.2 ≠ .releasestate n) ∧
        w.requests = [(0, [7, 8]), (1, [7]), (2, [7])] ∧ w.replies.map Reply.rid = [0, 2] ∧
        w.proc.waitting = [(1, [7])] ∧ ¬ w.InTurn := by
  refine ⟨_, _, Lib.Run.of_legal overtakingRun_legal, ?_, by decide, by decide, by decide,
    fun turn => ?_⟩
  · simp [Lib.trace, overtakingRun]
  · have both := turn [7] 1 2 (by decide) (by decide)
    exact absurd both (by decide)

end World

end WindLtask.Manager
