import WindLtask.Manager.Effects

/-!
# Waiting in line for one name

Runs in which every request is for a single name.  There the manager grants the
requests for a name in the order in which they arrive: the queue has those that
arrived last, and only the last of the others can still cover the name.
-/

set_option linter.unusedSectionVars false

namespace WindLtask.Manager

variable {Name Addr Rid T D : Type} [DecidableEq Name] [DecidableEq Rid]

namespace Process

/-- The requests for one list of names, in their order. -/
def forList (names : List Name) (entries : List (Rid × List Name)) : List Rid :=
  (entries.filter fun entry => entry.2 = names).map Prod.fst

/-- The requests for one name alone, in their order. -/
def forName (n : Name) (entries : List (Rid × List Name)) : List Rid :=
  (entries.filter fun entry => entry.2 = [n]).map Prod.fst

theorem forList_append (names : List Name) (left right : List (Rid × List Name)) :
    forList names (left ++ right) = forList names left ++ forList names right := by
  simp [forList]

theorem forList_singleton (names others : List Name) (rid : Rid) :
    forList names [(rid, others)] = if others = names then [rid] else [] := by
  by_cases same : others = names <;> simp [forList, same]

theorem mem_forList {names : List Name} {entries : List (Rid × List Name)} {rid : Rid} :
    rid ∈ forList names entries ↔ (rid, names) ∈ entries := by
  simp [forList]

theorem forName_append (n : Name) (left right : List (Rid × List Name)) :
    forName n (left ++ right) = forName n left ++ forName n right :=
  forList_append [n] left right

theorem forName_singleton (n m : Name) (rid : Rid) :
    forName n [(rid, [m])] = if m = n then [rid] else [] := by
  by_cases same : m = n <;> simp [forName, same]

theorem mem_forName {n : Name} {entries : List (Rid × List Name)} {rid : Rid} :
    rid ∈ forName n entries ↔ (rid, [n]) ∈ entries :=
  mem_forList

/-- A pass finds only requests free whose names are not locked. -/
theorem not_locked_of_grants {locked : Name → Option Bool} {entries : List (Rid × List Name)}
    {entry : Rid × List Name} (granted : entry ∈ grants locked entries) {n : Name}
    (inNames : n ∈ entry.2) : locked n ≠ some true := by
  induction entries generalizing locked with
  | nil => simp [grants] at granted
  | cons first rest ih =>
      rw [grants] at granted
      split at granted
      · exact ih granted
      · next free =>
        rcases List.mem_cons.mp granted with here | later
        · subst here
          intro marked
          exact free (List.any_eq_true.mpr ⟨n, inNames, by simp [marked]⟩)
        · intro marked
          refine ih later ?_
          rw [lockAll_apply, marked]
          split <;> rfl

/-- A pass that grants a list of names grants it to the first request for it. -/
theorem forList_of_grants {locked : Name → Option Bool} {entries : List (Rid × List Name)}
    {rid : Rid} {names : List Name} (some_name : names ≠ [])
    (granted : (rid, names) ∈ grants locked entries) :
    ∃ rest, forList names entries = rid :: rest := by
  obtain ⟨n, inNames⟩ := List.exists_mem_of_ne_nil names some_name
  induction entries generalizing locked with
  | nil => simp [grants] at granted
  | cons entry rest ih =>
      rw [grants] at granted
      by_cases own : entry.2 = names
      · -- a locked name cannot be granted later in the pass
        have here : entry = (rid, names) := by
          split at granted
          · next blocked =>
            rw [own] at blocked
            obtain ⟨m, inNames, marked⟩ := List.any_eq_true.mp blocked
            exact absurd (by simpa using marked) (not_locked_of_grants granted inNames)
          · rcases List.mem_cons.mp granted with same | later
            · exact same.symm
            · refine absurd ?_ (not_locked_of_grants later inNames)
              rw [lockAll_apply, own, if_pos inNames]
        subst here
        exact ⟨forList names rest, by simp [forList]⟩
      · have others : forList names (entry :: rest) = forList names rest := by
          simp [forList, own]
        rw [others]
        split at granted
        · exact ih granted
        · rcases List.mem_cons.mp granted with same | later
          · exact absurd (by rw [← same]) own
          · exact ih later

theorem forList_perm {names : List Name} {left right : List (Rid × List Name)}
    (perm : left.Perm right) : (forList names left).Perm (forList names right) :=
  (perm.filter _).map _

/-- Requests whose names are apart are not for the same list. -/
theorem forList_length_le {names : List Name} (some_name : names ≠ [])
    {entries : List (Rid × List Name)}
    (apart : entries.Pairwise fun left right => ∀ m ∈ left.2, m ∉ right.2) :
    (forList names entries).length ≤ 1 := by
  obtain ⟨n, inNames⟩ := List.exists_mem_of_ne_nil names some_name
  have alone := apart.filter (fun entry => entry.2 = names)
  rw [forList, List.length_map]
  match shape : entries.filter fun entry => entry.2 = names with
  | [] | [_] => simp [shape]
  | first :: second :: rest =>
      have own : ∀ entry ∈ first :: second :: rest, entry.2 = names := by
        intro entry member
        rw [← shape] at member
        exact of_decide_eq_true (List.mem_filter.mp member).2
      rw [shape] at alone
      have disjoint := (List.pairwise_cons.mp alone).1 second List.mem_cons_self n
      rw [own first List.mem_cons_self, own second (by simp)] at disjoint
      exact absurd inNames (disjoint inNames)

/-- A pass takes requests for a list of names from the front of their line. -/
theorem forList_of_woken {p q : Process Name Addr Rid D} (waits : Waits p)
    (pass : Woken p q (grants p.locked p.waitting)) {names : List Name}
    (some_name : names ≠ []) :
    forList names p.waitting =
      forList names (grants p.locked p.waitting) ++ forList names q.waitting := by
  have perm : (forList names p.waitting).Perm
      (forList names (grants p.locked p.waitting ++ q.waitting)) := forList_perm pass.perm
  rw [forList_append] at perm
  have kept : (forList names q.waitting).Sublist (forList names p.waitting) :=
    (pass.kept.filter _).map _
  have few := forList_length_le some_name pass.apart
  match taken : forList names (grants p.locked p.waitting) with
  | [] =>
      rw [taken, List.nil_append] at perm
      exact (kept.eq_of_length perm.length_eq.symm).symm
  | [rid] =>
      have granted : (rid, names) ∈ grants p.locked p.waitting :=
        mem_forList.mp (by rw [taken]; exact List.mem_singleton_self rid)
      obtain ⟨rest, first⟩ := forList_of_grants some_name granted
      rw [taken, first] at perm
      rw [first] at kept ⊢
      have once : (rid :: rest).Nodup := by
        rw [← first]
        exact waits.distinct.sublist (List.filter_sublist.map Prod.fst)
      have gone : rid ∉ forList names q.waitting := fun member =>
        (List.nodup_cons.mp once).1 (((List.perm_cons rid).mp perm).mem_iff.mpr member)
      rcases List.sublist_cons_iff.mp kept with inside | ⟨others, back, -⟩
      · have same := inside.eq_of_length (by simpa using perm.length_eq.symm)
        rw [same]
        rfl
      · exact absurd (by rw [back]; simp) gone
  | first :: second :: rest => simp [taken] at few

end Process

namespace World

open Process

variable {w w' : World Name Addr Rid D}

theorem requests_foldl_send (outs : List (Out Name Addr Rid T D)) (w : World Name Addr Rid D) :
    (outs.foldl send w).requests = w.requests := by
  induction outs generalizing w with
  | nil => rfl
  | cons out rest ih =>
      rw [List.foldl_cons, ih]
      cases out <;> rfl

/-- Only a lock message is a request. -/
theorem requests_next (w : World Name Addr Rid D) (event : Event Name Addr Rid T D) :
    (w.next event).requests = (w.receive event).requests := by
  simp only [World.next, settle, requests_foldl_send]

/-- The requests for each name are granted in the order of their arrival. -/
structure Lined (w : World Name Addr Rid D) : Prop where
  requests : ∀ entry ∈ w.requests, ∃ n, entry.2 = [n]
  alone : ∀ rid n m, w.Covers rid n → w.Covers rid m → n = m
  /-- those still in the queue come after all others, of which the last may cover the name -/
  line : ∀ n, ∃ granted, forName n w.requests = granted ++ forName n w.proc.waitting ∧
    ∀ rid, w.Covers rid n → granted.getLast? = some rid

/-- In addition every queued request is blocked. -/
structure Single (w : World Name Addr Rid D) : Prop extends Lined w where
  blocked : ∀ entry ∈ w.proc.waitting, w.proc.Blocked entry.2

namespace Lined

/-- A step that adds no request and takes none out of the queue. -/
theorem still (lined : Lined w) (requests : w'.requests = w.requests)
    (waitting : w'.proc.waitting = w.proc.waitting)
    (covers : ∀ rid n, w'.Covers rid n → w.Covers rid n) : Lined w' where
  requests := by rw [requests]; exact lined.requests
  alone rid n m left right := lined.alone rid n m (covers rid n left) (covers rid m right)
  line n := by
    obtain ⟨granted, whole, last⟩ := lined.line n
    exact ⟨granted, by rw [requests, waitting, whole], fun rid covered =>
      last rid (covers rid n covered)⟩

/-- The queue has requests only. -/
theorem waits_alone (lined : Lined w) (sound : Sound w) {entry : Rid × List Name}
    (waiting : entry ∈ w.proc.waitting) : ∃ n, entry.2 = [n] :=
  lined.requests entry (sound.named entry.1 entry.2
    (.inl ((sound.queued entry.1 entry.2).mp waiting)))

/-- The pass grants to the front of each line, and leaves the queue blocked. -/
theorem passed (lined : Lined w) (sound : Sound w) (exclusive : Exclusive w)
    (pass : Passed w w' (grants w.proc.locked w.proc.waitting)) : Single w' := by
  obtain ⟨q, scanned, proc⟩ := pass.proc
  have own : ∀ entry ∈ grants w.proc.locked w.proc.waitting, ∃ n, entry.2 = [n] :=
    fun entry member => lined.waits_alone sound
      (scanned.perm.mem_iff.mpr (List.mem_append_left _ member))
  -- a request that is granted now has covered nothing before
  have fresh : ∀ rid names, (rid, names) ∈ grants w.proc.locked w.proc.waitting →
      ∀ n, ¬ w.Covers rid n := by
    intro rid names member n covered
    have queued := (sound.queued rid names).mp
      (scanned.perm.mem_iff.mpr (List.mem_append_left _ member))
    rw [Covers, queued] at covered
    cases covered
  refine ⟨⟨by rw [pass.requests]; exact lined.requests, fun rid n m left right => ?_,
    fun n => ?_⟩, pass.blocked⟩
  · rw [covers_passed sound pass] at left right
    rcases left with left | ⟨names, member, inNames⟩
    · rcases right with right | ⟨names, member, -⟩
      · exact lined.alone rid n m left right
      · exact absurd left (fresh rid names member n)
    · rcases right with right | ⟨others, also, inOthers⟩
      · exact absurd right (fresh rid names member m)
      · have queued := (sound.queued rid names).mp
          (scanned.perm.mem_iff.mpr (List.mem_append_left _ member))
        have queued' := (sound.queued rid others).mp
          (scanned.perm.mem_iff.mpr (List.mem_append_left _ also))
        obtain rfl : names = others := by
          rw [queued] at queued'
          exact Phase.queued.inj queued'
        obtain ⟨k, same⟩ := own _ member
        simp only at same
        rw [same, List.mem_singleton] at inNames inOthers
        exact inNames.trans inOthers.symm
  · obtain ⟨granted, whole, last⟩ := lined.line n
    have front : forName n w.proc.waitting =
        forName n (grants w.proc.locked w.proc.waitting) ++ forName n q.waitting :=
      forList_of_woken sound.waits scanned (List.cons_ne_nil n [])
    refine ⟨granted ++ forName n (grants w.proc.locked w.proc.waitting), ?_, fun rid covered => ?_⟩
    · rw [pass.requests, whole, front, proc, List.append_assoc]
    · rcases (covers_passed sound pass rid n).mp covered with before | ⟨names, member, inNames⟩
      · -- the name is locked, so nobody gets it in this pass
        have none_new : forName n (grants w.proc.locked w.proc.waitting) = [] := by
          refine List.eq_nil_iff_forall_not_mem.mpr fun other now => ?_
          exact not_locked_of_grants (mem_forName.mp now) (List.mem_singleton_self n)
            (exclusive.marked rid n before)
        rw [none_new, List.append_nil]
        exact last rid before
      · obtain ⟨k, same⟩ := own _ member
        simp only at same
        rw [same, List.mem_singleton] at inNames
        subst inNames
        rw [same] at member
        have few : (forName n (grants w.proc.locked w.proc.waitting)).length ≤ 1 :=
          forList_length_le (List.cons_ne_nil n []) scanned.apart
        have here := mem_forName.mpr member
        obtain ⟨only, taken⟩ := List.length_eq_one_iff.mp
          (Nat.le_antisymm few (List.length_pos_of_mem here))
        obtain rfl : rid = only := by simpa [taken] using here
        rw [taken, List.getLast?_concat]

end Lined

namespace Single

theorem init : Single (init : World Name Addr Rid D) where
  requests := by simp [World.init]
  alone := by simp [Covers, World.init, Phase.covered]
  line n := ⟨[], by simp [World.init, Process.init, forName], by
    simp [Covers, World.init, Phase.covered]⟩
  blocked := by simp [World.init, Process.init]

/-- A step that leaves the queue and the locks alone. -/
theorem still (single : Single w) (requests : w'.requests = w.requests)
    (waitting : w'.proc.waitting = w.proc.waitting) (locked : w'.proc.locked = w.proc.locked)
    (covers : ∀ rid n, w'.Covers rid n → w.Covers rid n) : Single w' where
  toLined := single.toLined.still requests waitting covers
  blocked entry waiting := by
    rw [waitting] at waiting
    rw [Blocked, locked]
    exact single.blocked entry waiting

/-- An `unlock` that stops at a name has freed none: it has no other. -/
theorem stopped (single : Single w) (sound : Sound w) {event : Event Name Addr Rid T D} {rid : Rid}
    (before rest : List (Name × Option D)) {name : Name} {patch : Option D}
    (returns : Returns w rid event (before ++ (name, patch) :: rest)) (enabled : w.Enabled event)
    (parked : Option (Name × List (Name × Option D))) {phase : Phase Name}
    (left : phase.covered = name :: rest.map Prod.fst) :
    Single (w.giveBack rid (before.map Prod.fst) parked phase) := by
  have covers := covers_giveBack sound returns enabled parked (by simpa using left)
  obtain ⟨-, distinct, names⟩ := sound.outstanding returns enabled
  have none_before : before = [] := by
    cases before with
    | nil => rfl
    | cons entry before =>
        have first := (names entry.1).mp (by simp)
        have last := (names name).mp (by simp)
        have same := single.alone rid _ _ first last
        simp [same] at distinct
  refine single.still rfl rfl ?_ fun other n covered => ((covers other n).mp covered).1
  rw [none_before]
  simp [giveBack, freeAll]

/-- A request that finds its name free finds nobody in line for it. -/
theorem granted (single : Single w) (exclusive : Exclusive w) {rid : Rid} {m : Name}
    (ready : ¬ w.proc.Blocked [m]) :
    Single { w with
      proc := { w.proc with locked := lockAll [m] w.proc.locked }
      phase := Function.update w.phase rid (.held [m])
      requests := w.requests ++ [(rid, [m])]
      replies := w.replies ++ [⟨rid, [m].map w.proc.state, w.proc.state⟩] } := by
  have covers := covers_update (w := w) rid (.held [m])
  have uncovered : ∀ other, ¬ w.Covers other m := fun other covered =>
    ready ⟨m, List.mem_singleton_self m, exclusive.marked other m covered⟩
  refine ⟨⟨fun entry member => ?_, fun other n k left right => ?_, fun n => ?_⟩,
    fun entry waiting => blocked_of_lockAll [m] rfl (single.blocked entry waiting)⟩
  · rcases List.mem_append.mp member with old | new
    · exact single.requests entry old
    · exact ⟨m, by rw [List.mem_singleton.mp new]⟩
  · have left := (covers other n).mp left
    have right := (covers other k).mp right
    split at left
    · next here =>
      rw [if_pos here] at right
      exact (List.mem_singleton.mp left).trans (List.mem_singleton.mp right).symm
    · next apart =>
      rw [if_neg apart] at right
      exact single.alone other n k left right
  · obtain ⟨before, whole, last⟩ := single.line n
    by_cases here : m = n
    · subst here
      have nobody : forName m w.proc.waitting = [] := by
        refine List.eq_nil_iff_forall_not_mem.mpr fun other waiting => ready ?_
        exact single.blocked _ (mem_forName.mp waiting)
      refine ⟨before ++ [rid], ?_, fun other covered => ?_⟩
      · rw [forName_append, forName_singleton, if_pos rfl, whole, nobody, List.append_nil,
          List.append_nil]
      · have covered := (covers other m).mp covered
        split at covered
        · next same => rw [same, List.getLast?_concat]
        · exact absurd covered (uncovered other)
    · refine ⟨before, ?_, fun other covered => ?_⟩
      · rw [forName_append, forName_singleton, if_neg here, List.append_nil, whole]
      · have covered := (covers other n).mp covered
        split at covered
        · exact absurd (List.mem_singleton.mp covered).symm here
        · exact last other covered

/-- A request that finds its name locked goes to the end of the line. -/
theorem queued (single : Single w) {rid : Rid} {m : Name} (blocked : w.proc.Blocked [m]) :
    Single { w with
      proc := { w.proc with
        waitting := w.proc.waitting ++ [(rid, [m])]
        sessionWaiting := Function.update w.proc.sessionWaiting rid true }
      phase := Function.update w.phase rid (.queued [m])
      requests := w.requests ++ [(rid, [m])] } := by
  have covers : ∀ other n, World.Covers
      { w with phase := Function.update w.phase rid (.queued [m]) } other n → w.Covers other n := by
    intro other n covered
    have covered := (covers_update rid (.queued [m]) other n).mp covered
    split at covered
    · cases covered
    · exact covered
  refine ⟨⟨fun entry member => ?_, fun other n k left right =>
    single.alone other n k (covers other n left) (covers other k right), fun n => ?_⟩,
    fun entry waiting => ?_⟩
  · rcases List.mem_append.mp member with old | new
    · exact single.requests entry old
    · exact ⟨m, by rw [List.mem_singleton.mp new]⟩
  · obtain ⟨before, whole, last⟩ := single.line n
    refine ⟨before, ?_, fun other covered => last other (covers other n covered)⟩
    rw [forName_append, forName_append, whole, List.append_assoc]
  · rcases List.mem_append.mp waiting with old | new
    · exact single.blocked entry old
    · rw [List.mem_singleton.mp new]
      exact blocked

theorem moves (single : Single w) (sound : Sound w) (exclusive : Exclusive w)
    {event : Event Name Addr Rid T D} (enabled : w.Enabled event) (clear : w.NewstateClear event)
    (alone : ∀ rid names, event = .lock rid names → ∃ n, names = [n])
    (moved : Moves w event w') : Single w' := by
  cases moved with
  | createRaised rid name t taken => exact single
  | creating rid name t absent => exact single.still rfl rfl rfl fun _ _ => id
  | createFailed rid => exact single.still rfl rfl rfl fun _ _ => id
  | released name => exact single.still rfl rfl rfl fun _ _ => id
  | created rid addr name asked =>
      have before := sound.created rid addr name
      have middle : Lined { w with proc := { w.proc with
          state := Function.update w.proc.state name (some addr)
          locked := Function.update w.proc.locked name (some false)
          spawning := Function.update w.proc.spawning rid none } } :=
        single.toLined.still rfl rfl fun _ _ => id
      refine middle.passed before ⟨exclusive.single, ?_⟩ (pass_spec _ before.waits before.quiet)
      intro holder n covered
      have apart : n ≠ name := fun same => clear name asked holder (same ▸ covered)
      simpa [apart] using exclusive.marked holder n covered
  | granted rid names ready =>
      obtain ⟨m, rfl⟩ := alone rid names rfl
      exact single.granted exclusive ready
  | queued rid names blocked =>
      obtain ⟨m, rfl⟩ := alone rid names rfl
      exact single.queued blocked
  | parked _ rid before rest name patch addr returns plain cell =>
      exact single.stopped sound before rest returns enabled _ rfl
  | raised _ rid before rest name patch returns plain noCell =>
      exact single.stopped sound before rest returns enabled _ rfl
  | returned _ rid entries returns plain =>
      have soundBack := sound.returned returns enabled
      have back := exclusive.giveBack sound entries [] (by rwa [List.append_nil]) enabled none
        .finished rfl
      have covers : ∀ other n,
          (w.giveBack rid (entries.map Prod.fst) none .finished).Covers other n →
          w.Covers other n := fun other n covered =>
        ((covers_giveBack sound (show Returns w rid event (entries ++ []) by
          rwa [List.append_nil]) enabled none rfl other n).mp covered).1
      have middle : Lined { w.giveBack rid (entries.map Prod.fst) none .finished with
          finished := w.finished ++ [rid] } :=
        single.toLined.still rfl rfl covers
      exact middle.passed soundBack ⟨back.single, back.marked⟩
        (pass_spec _ soundBack.waits soundBack.quiet)
  | failed rid name rest parked =>
      exact single.stopped (T := T) sound [] rest (.resume name rest parked) enabled none rfl

end Single

end World

end WindLtask.Manager
