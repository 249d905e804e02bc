import WindLtask.System.Coherence

/-!
# Steps of the manager in the system

A message to the manager moves at most the query that sent it; every other query
is framed.  What the manager sends in turn is a `spawn`, a `patch` call or an
`exit`, which change three fields of the system and no more.
-/

set_option linter.unusedSectionVars false

namespace WindLtask.System

open Manager World Process

variable {Name Addr Rid Wid K V : Type} [DecidableEq Name] [DecidableEq Addr] [DecidableEq Rid]
  [DecidableEq Wid] [DecidableEq K] [DecidableEq V]

namespace Net

/-! ## The messages that the manager sends -/

/-- Posting messages changes the spawns, the exits and the `patch` calls only. -/
theorem foldl_post (outs : List (Out Name Addr Rid (Table K V) (Diff K V)))
    (s : Net Name Addr Rid Wid K V) :
    outs.foldl post s = { s with
      creating := (outs.foldl post s).creating
      leaving := (outs.foldl post s).leaving
      patchCall := (outs.foldl post s).patchCall } := by
  induction outs generalizing s with
  | nil => rfl
  | cons out rest ih =>
      rw [List.foldl_cons, ih]
      cases out <;> rfl

theorem foldl_post_granted (entries : List (Rid × List (Option Addr)))
    (s : Net Name Addr Rid Wid K V) :
    (entries.map fun entry => Out.granted (T := Table K V) (D := Diff K V) entry.1 entry.2).foldl
      post s = s := by
  induction entries with
  | nil => rfl
  | cons entry rest ih => exact ih

/-- The lock replies of the woken requests are read off the manager's history. -/
theorem deliver_eq (s : Net Name Addr Rid Wid K V)
    (event : Event Name Addr Rid (Table K V) (Diff K V)) :
    s.deliver event = (s.mgr.proc.body event).2.foldl post { s with mgr := s.mgr.next event } := by
  rw [deliver, handle, List.foldl_append]
  exact foldl_post_granted _ _

/-- What a message to the manager leaves alone. -/
structure Delivered (s s' : Net Name Addr Rid Wid K V)
    (event : Event Name Addr Rid (Table K V) (Diff K V)) : Prop where
  mgr : s'.mgr = s.mgr.next event
  cells : s'.cells = s.cells
  caches : s'.caches = s.caches
  worker : s'.worker = s.worker
  stage : s'.stage = s.stage
  born : s'.born = s.born
  closed : s'.closed = s.closed
  source : s'.source = s.source
  reads : s'.reads = s.reads

theorem delivered (s : Net Name Addr Rid Wid K V)
    (event : Event Name Addr Rid (Table K V) (Diff K V)) : Delivered s (s.deliver event) event := by
  rw [deliver_eq, foldl_post]
  exact ⟨rfl, rfl, rfl, rfl, rfl, rfl, rfl, rfl, rfl⟩

/-! ## Coherence -/

/-- A query that has closed is granted. -/
theorem Coherent.not_queued {s : Net Name Addr Rid Wid K V} (coherent : Coherent s) {rid : Rid}
    (past : s.PastClose rid) (names : List Name) : s.mgr.phase rid ≠ .queued names := by
  intro queued
  have good := coherent.good rid
  unfold Good at good
  unfold PastClose at past
  cases stage : s.stage rid with
  | closed q =>
      rw [stage] at good
      simp [good.1.2] at queued
  | unlocking q patchMap =>
      rw [stage] at good
      simp [good.1.2] at queued
  | returned q =>
      rw [stage] at good
      obtain ⟨-, ⟨left, stuck⟩ | finished | ⟨name, rest, parked, -⟩⟩ := good
      · simp [stuck] at queued
      · simp [finished] at queued
      · simp [(coherent.sound.suspended rid _).mpr ⟨name, rest, parked, rfl⟩] at queued
  | broken q =>
      rw [stage] at good
      simp [good.2] at queued
  | _ =>
      rw [stage] at past
      exact past.elim

/--
A message to the manager, with the part of the query that sent it left to show:
that it is good again, and that no change is forgotten of a name it gives back.
-/
theorem Coherent.manager {s s' : Net Name Addr Rid Wid K V}
    {event : Event Name Addr Rid (Table K V) (Diff K V)} (coherent : Coherent s)
    (step : World.Step s.mgr event s'.mgr) (clear : s.mgr.NewstateClear event)
    (cells : s'.cells = s.cells) (caches : s'.caches = s.caches) (worker : s'.worker = s.worker)
    (born : s'.born = s.born) (closed : s'.closed = s.closed) (source : s'.source = s.source)
    (stage : ∀ rid, event.actor ≠ some rid → s'.stage rid = s.stage rid)
    (call : ∀ rid, event.actor ≠ some rid → s'.patchCall rid = s.patchCall rid)
    (newborn : ∀ rid addr n, event = .spawned rid addr → s.mgr.proc.spawning rid = some n →
      ∃ t, s.born addr = some (n, t))
    (spawning : ∀ rid, s'.mgr.proc.spawning rid = (s'.creating rid).map Prod.fst)
    (good : ∀ rid, event.actor = some rid → s'.Good rid)
    (idle : ∀ rid, event.actor = some rid → s'.mgr.proc.patching rid = none →
      s'.patchCall rid = .idle)
    (freed : ∀ rid q name addr, event.actor = some rid → (s.stage rid).query = some q →
      s.PastClose rid → s.mgr.Covers rid name → q.At name addr →
        (∀ cell, s.cells addr = some cell → s.log addr = cell.patches) ∨ s'.Owner addr) :
    Coherent s' := by
  have moved := moves_of_step coherent.sound step
  have effects := effects_of_moves coherent.sound step.1 moved
  have sameLog : ∀ addr, s'.log addr = s.log addr := fun addr => by rw [log, log, closed]
  have stated : ∀ n addr, s'.mgr.proc.state n = some addr → ∃ t, s'.born addr = some (n, t) := by
    intro n addr cell
    rw [born]
    rcases effects.state n addr cell with old | ⟨rid, rfl, asked⟩
    · exact coherent.stated n addr old
    · exact newborn rid addr n rfl asked
  constructor
  · exact coherent.sound.moves step.1 moved
  · exact coherent.exclusive.moves coherent.sound step.1 clear moved
  · exact coherent.addressed.moves coherent.sound step.1 clear moved
  · intro rid
    by_cases acts : event.actor = some rid
    · exact good rid acts
    · refine Agree.good ?_ coherent.sound (coherent.good rid)
      constructor
      · exact stage rid acts
      · exact effects.phase rid acts
      · exact effects.patching rid acts
      · exact call rid acts
      · exact effects.replies
      · rw [worker]
      · intro n _
        rw [cache, cache, caches, worker]
      · intro n _
        rw [cache, cache, caches, worker]
      · intro n _
        rw [source]
      · intro addr entry there
        rw [born]
        exact there
      · exact fun n addr t _ _ => sameLog addr
      · intro n addr t cell _ _ there
        rwa [cells] at there
  · intro rid parked
    by_cases acts : event.actor = some rid
    · exact idle rid acts parked
    · rw [effects.patching rid acts] at parked
      rw [call rid acts]
      exact coherent.calls rid parked
  · exact spawning
  · exact stated
  · intro reply member n addr cell
    rcases effects.fresh reply member with old | new
    · rw [born]
      exact coherent.granted reply old n addr cell
    · exact stated n addr (new n addr cell)
  · intro addr cell there
    rw [cells] at there
    obtain ⟨n, t, isBorn, grown, prefix'⟩ := coherent.cells addr cell there
    refine ⟨n, t, by rw [born]; exact isBorn, grown, ?_⟩
    rw [sameLog]
    rcases prefix' with whole | ⟨diff, shape, rid, q, name, query, past, covers, at'⟩
    · exact .inl whole
    · by_cases acts : event.actor = some rid
      · rcases freed rid q name addr acts query past covers at' with paid | owner
        · exact .inl (paid cell there)
        · exact .inr ⟨diff, shape, owner⟩
      · refine .inr ⟨diff, shape, rid, q, name, ?_, ?_, ?_, at'⟩
        · rw [stage rid acts]
          exact query
        · unfold PastClose at past ⊢
          rw [stage rid acts]
          exact past
        · rw [Covers, (effects.phase rid acts).covered (coherent.not_queued past)]
          exact covers
  · intro wid n v version
    rw [caches] at version ⊢
    rw [source, born]
    obtain ⟨map, addr, t, value, rest⟩ := coherent.caches wid n v version
    refine ⟨map, addr, t, value, ?_⟩
    rw [sameLog]
    exact rest
  · intro addr n t isBorn
    rw [born] at isBorn
    rw [sameLog]
    exact coherent.values addr n t isBorn
  · intro addr unborn
    rw [born] at unborn
    rw [sameLog]
    exact coherent.unborn addr unborn
  · intro before c after shape entry member
    rw [closed] at shape
    rw [born]
    exact coherent.serial before c after shape entry member

/-! ## The loop of `unlock` -/

section Unlock

variable {w : World Name Addr Rid (Diff K V)}
  {event : Event Name Addr Rid (Table K V) (Diff K V)} {rid : Rid}
  {before rest : List (Name × Option (Diff K V))} {name : Name} {patch : Diff K V}

theorem out_of_parked (sound : w.Sound)
    (returns : Returns w rid event (before ++ (name, some patch) :: rest))
    (enabled : w.Enabled event) (plain : ∀ entry ∈ before, entry.2 = none) {addr : Addr}
    (cell : w.proc.state name = some addr) :
    (w.proc.body event).2 = [.patch rid addr patch] := by
  rw [body_of_returns sound returns enabled, unlockFrom_of_plain rid plain]
  simp [unlockFrom, freeAll, cell]

theorem out_of_raised (sound : w.Sound)
    (returns : Returns w rid event (before ++ (name, some patch) :: rest))
    (enabled : w.Enabled event) (plain : ∀ entry ∈ before, entry.2 = none)
    (noCell : w.proc.state name = none) :
    (w.proc.body event).2 = [.unlockRaised rid (name :: rest.map Prod.fst)] := by
  rw [body_of_returns sound returns enabled, unlockFrom_of_plain rid plain]
  simp [unlockFrom, freeAll, noCell]

theorem out_of_returned (sound : w.Sound) (returns : Returns w rid event before)
    (enabled : w.Enabled event) (plain : ∀ entry ∈ before, entry.2 = none) :
    (w.proc.body event).2 = [.unlocked rid] := by
  have whole := unlockFrom_of_plain (T := Table K V) rid plain []
    { w.proc with patching := Function.update w.proc.patching rid none }
  rw [List.append_nil] at whole
  rw [body_of_returns sound returns enabled, whole]
  rfl

end Unlock

/-- The address of a granted name, while its cell is there, is the one in the query. -/
theorem Coherent.at_of_state {s : Net Name Addr Rid Wid K V} (coherent : Coherent s) {rid : Rid}
    {q : Query Name Addr K V} (shape : s.Shape rid q) {name : Name} {addr : Addr}
    (member : name ∈ q.names) (covers : s.mgr.Covers rid name)
    (cell : s.mgr.proc.state name = some addr) : q.At name addr := by
  obtain ⟨reply, inReplies, own, addrs⟩ := shape.reply
  subst own
  have granted := coherent.addressed reply inReplies name addr covers cell
  obtain ⟨i, atName⟩ := List.mem_iff_getElem?.mp member
  exact ⟨i, atName, by rw [addrs, List.getElem?_map, atName, Option.map_some, granted]⟩

/-- The names of a query have one cell each. -/
theorem At.unique {s : Net Name Addr Rid Wid K V} {rid : Rid} {q : Query Name Addr K V}
    (shape : s.Shape rid q) {name : Name} {addr other : Addr} (left : q.At name addr)
    (right : q.At name other) : addr = other := by
  obtain ⟨i, atName, atAddr⟩ := left
  obtain ⟨j, atName', atAddr'⟩ := right
  have inside : i < q.names.length := (List.getElem?_eq_some_iff.mp atName).1
  have same : i = j :=
    (List.getElem?_inj inside shape.distinct).mp (atName.trans atName'.symm)
  subst same
  rw [atAddr] at atAddr'
  cases atAddr'
  rfl

/-- Paid and unpaid entries of an `unlock`. -/
theorem Due.split {s : Net Name Addr Rid Wid K V} {q : Query Name Addr K V}
    {before rest : List (Name × Option (Diff K V))} (due : s.Due q (before ++ rest)) :
    s.Due q before ∧ s.Due q rest :=
  ⟨fun name change member => due name change (List.mem_append_left _ member),
    fun name change member => due name change (List.mem_append_right _ member)⟩

theorem Due.congr {s s' : Net Name Addr Rid Wid K V} {q : Query Name Addr K V}
    {entries : List (Name × Option (Diff K V))} (cells : s'.cells = s.cells)
    (closed : s'.closed = s.closed) (due : s.Due q entries) : s'.Due q entries := by
  intro name change member addr at' cell there
  rw [cells] at there
  rw [log, closed]
  exact due name change member addr at' cell there

theorem Due.head {s : Net Name Addr Rid Wid K V} {q : Query Name Addr K V}
    {entry : Name × Option (Diff K V)} {rest : List (Name × Option (Diff K V))}
    (due : s.Due q (entry :: rest)) : s.Due q [entry] :=
  (Due.split (show s.Due q ([entry] ++ rest) from due)).1

theorem Due.tail {s : Net Name Addr Rid Wid K V} {q : Query Name Addr K V}
    {entry : Name × Option (Diff K V)} {rest : List (Name × Option (Diff K V))}
    (due : s.Due q (entry :: rest)) : s.Due q rest :=
  (Due.split (show s.Due q ([entry] ++ rest) from due)).2

/-- Where the loop of `unlock` has brought the manager and the `patch` call of `rid`. -/
inductive Outcome (s s' : Net Name Addr Rid Wid K V) (rid : Rid)
    (entries : List (Name × Option (Diff K V))) : Prop where
  | parked (before rest : List (Name × Option (Diff K V))) (name : Name) (patch : Diff K V)
      (addr : Addr) (shape : entries = before ++ (name, some patch) :: rest)
      (plain : ∀ entry ∈ before, entry.2 = none) (cell : s.mgr.proc.state name = some addr)
      (suspended : s'.mgr.proc.patching rid = some (name, rest))
      (call : s'.patchCall = Function.update s.patchCall rid (.sent addr patch))
  | stuck (before rest : List (Name × Option (Diff K V))) (shape : entries = before ++ rest)
      (plain : ∀ entry ∈ before, entry.2 = none)
      (phase : s'.mgr.phase rid = .stuck (rest.map Prod.fst))
      (call : s'.patchCall = Function.update s.patchCall rid .idle)
  | finished (plain : ∀ entry ∈ entries, entry.2 = none)
      (phase : s'.mgr.phase rid = .finished)
      (call : s'.patchCall = Function.update s.patchCall rid .idle)

/-- Every run of the loop has one of the outcomes. -/
theorem outcome_of_returns {s s' : Net Name Addr Rid Wid K V}
    {event : Event Name Addr Rid (Table K V) (Diff K V)} (sound : s.mgr.Sound) {rid : Rid}
    {entries : List (Name × Option (Diff K V))} (returns : Returns s.mgr rid event entries)
    (enabled : s.mgr.Enabled event)
    (sent : s' = deliver { s with patchCall := Function.update s.patchCall rid .idle } event) :
    Outcome s s' rid entries ∧ s'.creating = s.creating ∧
      s'.mgr.proc.spawning = s.mgr.proc.spawning := by
  have moved := moves_of_step sound ⟨enabled, rfl⟩
  rw [deliver_eq] at sent
  generalize next : s.mgr.next event = w' at moved sent
  cases moved with
  | parked _ other before rest name patch addr returns' plain cell =>
      obtain ⟨rfl, rfl⟩ := returns.unique returns'
      rw [out_of_parked sound returns enabled plain cell] at sent
      subst sent
      refine ⟨.parked before rest name patch addr rfl plain cell ?_ ?_, rfl, rfl⟩
      · simp [post, giveBack]
      · simp [post]
  | raised _ other before rest name patch returns' plain noCell =>
      obtain ⟨rfl, rfl⟩ := returns.unique returns'
      rw [out_of_raised sound returns enabled plain noCell] at sent
      subst sent
      refine ⟨.stuck before ((name, some patch) :: rest) rfl plain ?_ rfl, rfl, rfl⟩
      simp [post, giveBack]
  | returned _ other others returns' plain =>
      obtain ⟨rfl, rfl⟩ := returns.unique returns'
      rw [out_of_returned sound returns enabled plain] at sent
      have soundBack := sound.returned returns enabled
      have passed := Effects.pass soundBack
        (.giveBack returns.actor (entries.map Prod.fst) none .finished _) (by
          intro other acts
          rw [returns.actor] at acts
          cases acts
          simp [giveBack])
      subst sent
      exact ⟨.finished plain (passed.2.2.2 rid returns.actor) rfl, rfl, passed.2.2.1⟩
  | failed other name rest parked => cases returns
  | createRaised => cases returns
  | creating => cases returns
  | createFailed => cases returns
  | created => cases returns
  | released => cases returns
  | granted => cases returns
  | queued => cases returns

/--
The manager runs the loop of an `unlock` whose entries are what the cells lack.
The query is then suspended in the next `patch` call, stuck, or finished.
-/
theorem Coherent.unlocks {s s' : Net Name Addr Rid Wid K V}
    {event : Event Name Addr Rid (Table K V) (Diff K V)} (coherent : Coherent s) {rid : Rid}
    {q : Query Name Addr K V} {entries : List (Name × Option (Diff K V))}
    (returns : Returns s.mgr rid event entries) (enabled : s.mgr.Enabled event)
    (query : (s.stage rid).query = some q) (shape : s.Shape rid q)
    (keys : ∀ n ∈ entries.map Prod.fst, n ∈ q.names) (due : s.Due q entries)
    (sent : s' = deliver { s with patchCall := Function.update s.patchCall rid .idle } event) :
    Coherent (s'.moveTo rid (.returned q)) := by
  have acts := returns.actor
  have step : World.Step s.mgr event (s.mgr.next event) := ⟨enabled, rfl⟩
  have moved := moves_of_step coherent.sound step
  have effects := effects_of_moves coherent.sound enabled moved
  have clear : s.mgr.NewstateClear event := by cases returns <;> trivial
  have soundNext := coherent.sound.moves enabled moved
  have covered := (coherent.sound.outstanding returns enabled).2.2
  obtain ⟨outcome, creating, spawning⟩ := outcome_of_returns coherent.sound returns enabled sent
  have same := delivered { s with patchCall := Function.update s.patchCall rid .idle } event
  rw [← sent] at same
  have mgr : s'.mgr = s.mgr.next event := same.mgr
  rw [← mgr] at effects soundNext step
  clear sent moved
  have idle : ∀ rid', event.actor ≠ some rid' → s'.patchCall rid' = s.patchCall rid' := by
    intro other apart
    have apart : other ≠ rid := fun here => apart (here ▸ acts)
    cases outcome with
    | parked before rest name patch addr shape plain cell suspended call => simp [call, apart]
    | stuck before rest shape plain phase call => simp [call, apart]
    | finished plain phase call => simp [call, apart]
  have dueNext : ∀ {rest}, s.Due q rest → (s'.moveTo rid (.returned q)).Due q rest :=
    fun due => Due.congr same.cells same.closed due
  have shapeNext : (s'.moveTo rid (.returned q)).Shape rid q := by
    obtain ⟨reply, member, own, addrs⟩ := shape.reply
    refine ⟨shape.distinct, ⟨reply, effects.replies reply member, own, addrs⟩, shape.lengths,
      shape.fetched, ?_⟩
    intro name addr at'
    obtain ⟨initial, born⟩ := shape.born name addr at'
    exact ⟨initial, (congrFun same.born addr).trans born⟩
  -- a name that is given back has lost no change; the others stay covered
  have paid : ∀ before : List (Name × Option (Diff K V)), s.Due q before →
      (∀ entry ∈ before, entry.2 = none) → ∀ name ∈ before.map Prod.fst, ∀ addr, q.At name addr →
        ∀ cell, s.cells addr = some cell → s.log addr = cell.patches := by
    intro before due plain name member addr at' cell there
    obtain ⟨⟨first, change⟩, inBefore, rfl⟩ := List.mem_map.mp member
    cases plain _ inBefore
    simpa using due first none inBefore addr at' cell there
  have owner : ∀ name addr, q.At name addr → s'.mgr.Covers rid name →
      (s'.moveTo rid (.returned q)).Owner addr := by
    intro name addr at' covers
    refine ⟨rid, q, name, by simp [moveTo, Stage.query], ?_, covers, at'⟩
    simp [PastClose, moveTo, Stage.past]
  refine coherent.manager step clear same.cells same.caches same.worker same.born same.closed
    same.source ?_ idle ?_ ?_ ?_ ?_ ?_
  · intro other apart
    have apart : other ≠ rid := fun here => apart (here ▸ acts)
    simp [moveTo, apart, same.stage]
  · intro other addr n spawn
    cases returns <;> cases spawn
  · intro other
    rw [show (s'.moveTo rid (.returned q)).creating = s'.creating from rfl, creating,
      show (s'.moveTo rid (.returned q)).mgr = s'.mgr from rfl, spawning]
    exact coherent.spawning other
  · intro other acts'
    rw [acts] at acts'
    cases acts'
    unfold Good
    simp only [moveTo, Function.update_self]
    refine ⟨shapeNext, ?_⟩
    cases outcome with
    | parked before rest name patch addr parts plain cell suspended call =>
        subst parts
        have here : s.mgr.Covers rid name := (covered name).mp (by simp)
        have inNames := keys name (by simp)
        refine .inr (.inr ⟨name, rest, suspended, ?_, dueNext (Due.split due).2.tail, addr,
          coherent.at_of_state shape inNames here cell, .inl ⟨patch, ?_, ?_⟩⟩)
        · intro n member
          exact keys n (by simp [member])
        · simp [call]
        · exact dueNext (Due.split due).2.head
    | stuck before rest parts plain phase call => exact .inl ⟨_, phase⟩
    | finished plain phase call => exact .inr (.inl phase)
  · intro other acts' free
    rw [acts] at acts'
    cases acts'
    cases outcome with
    | parked before rest name patch addr parts plain cell suspended call =>
        rw [show (s'.moveTo rid (.returned q)).mgr = s'.mgr from rfl, suspended] at free
        cases free
    | stuck before rest parts plain phase call => simp [moveTo, call]
    | finished plain phase call => simp [moveTo, call]
  · intro other q' name addr acts' query' _ covers at'
    rw [acts] at acts'
    cases acts'
    rw [query] at query'
    cases query'
    have inEntries := (covered name).mpr covers
    have either : ∀ before rest, entries = before ++ rest → (∀ entry ∈ before, entry.2 = none) →
        (name ∈ rest.map Prod.fst → s'.mgr.Covers rid name) →
        (∀ cell, s.cells addr = some cell → s.log addr = cell.patches) ∨
          (s'.moveTo rid (.returned q)).Owner addr := by
      rintro before rest rfl plain kept
      rw [List.map_append, List.mem_append] at inEntries
      rcases inEntries with inBefore | inRest
      · exact .inl (paid before (Due.split due).1 plain name inBefore addr at')
      · exact .inr (owner name addr at' (kept inRest))
    cases outcome with
    | parked before rest first patch home parts plain cell suspended call =>
        refine either before _ parts plain fun inRest => ?_
        rw [Covers, (soundNext.suspended rid _).mpr ⟨first, rest, suspended, rfl⟩]
        exact inRest
    | stuck before rest parts plain phase call =>
        refine either before rest parts plain fun inRest => ?_
        rw [Covers, phase]
        exact inRest
    | finished plain phase call => exact .inl (paid entries due plain name inEntries addr at')

/-! ## The messages to the manager, one by one -/

section Labels

variable {conf : Persistence Name K V} {s : Net Name Addr Rid Wid K V}

/-- A reply of a `patch` call finds the query whose `unlock` waits for it. -/
theorem Coherent.parked_of_call (coherent : Coherent s) {rid : Rid}
    (called : s.patchCall rid ≠ .idle) : ∃ q name rest, s.stage rid = .returned q ∧
      s.mgr.proc.patching rid = some (name, rest) ∧ s.Shape rid q ∧ s.Parked rid q name rest := by
  cases parked : s.mgr.proc.patching rid with
  | none => exact absurd (coherent.calls rid parked) called
  | some entry =>
      obtain ⟨name, rest⟩ := entry
      have phase := (coherent.sound.suspended rid _).mpr ⟨name, rest, parked, rfl⟩
      have good := coherent.good rid
      unfold Good at good
      cases stage : s.stage rid with
      | returned q =>
          rw [stage] at good
          obtain ⟨shape, ⟨left, stuck⟩ | finished | ⟨name', rest', parked', at'⟩⟩ := good
          · simp [stuck] at phase
          · simp [finished] at phase
          · rw [parked] at parked'
            cases parked'
            exact ⟨q, name, rest, rfl, rfl, shape, at'⟩
      | idle => rw [stage] at good; simp [show s.mgr.phase rid = .idle from good] at phase
      | asking names => rw [stage] at good; simp [good.1] at phase
      | locking names => rw [stage] at good; rcases good.1 with h | h <;> simp [h] at phase
      | calling q name addr v => rw [stage] at good; simp [good.1.2] at phase
      | answered q name addr answer => rw [stage] at good; simp [good.1.2] at phase
      | running q => rw [stage] at good; simp [good.1.2] at phase
      | closed q => rw [stage] at good; simp [good.1.2] at phase
      | unlocking q patchMap => rw [stage] at good; simp [good.1.2] at phase
      | raised names =>
          rw [stage] at good
          simp [show s.mgr.phase rid = .held names from good] at phase
      | broken q => rw [stage] at good; simp [good.2] at phase

/-- What a coroutine of the services sends, the manager can take. -/
theorem Coherent.allowed (coherent : Coherent s) {label : Label Name Addr Rid Wid K V}
    {event : Event Name Addr Rid (Table K V) (Diff K V)} (enabled : s.Enabled conf label)
    (asks : label.event = some event) : s.mgr.Enabled event := by
  cases label with
  | lock rid names =>
      cases asks
      cases stage : s.stage rid with
      | asking asked => exact (coherent.at_asking stage).1
      | _ => simp [Enabled, stage] at enabled
  | unlock rid entries =>
      cases asks
      cases stage : s.stage rid with
      | unlocking q patchMap =>
          simp only [Enabled, stage] at enabled
          obtain ⟨⟨shape, held⟩, keys, -⟩ := coherent.at_unlocking stage
          have keysPerm : (entries.map Prod.fst).Perm q.names := keys ▸ enabled.map Prod.fst
          exact ⟨q.names, held, keysPerm.nodup_iff.mpr shape.distinct, fun n => keysPerm.mem_iff⟩
      | _ => simp [Enabled, stage] at enabled
  | patched rid =>
      cases asks
      have enabled : s.patchCall rid = .answered true := enabled
      obtain ⟨q, name, rest, -, parked, -⟩ :=
        coherent.parked_of_call (show s.patchCall rid ≠ .idle by rw [enabled]; simp)
      simp [World.Enabled, parked]
  | patchFailed rid =>
      cases asks
      obtain ⟨ok, called⟩ := enabled
      obtain ⟨q, name, rest, -, parked, -⟩ :=
        coherent.parked_of_call (show s.patchCall rid ≠ .idle by rw [called]; simp)
      simp [World.Enabled, parked]
  | newstate rid name t =>
      cases asks
      have enabled : s.creating rid = none := enabled
      simp [World.Enabled, coherent.spawning rid, enabled]
  | spawned rid addr =>
      cases asks
      obtain ⟨fresh, name, t, creating, -⟩ := enabled
      refine ⟨by rw [coherent.spawning rid, creating]; rfl, fun n there => ?_⟩
      obtain ⟨t, born⟩ := coherent.stated n addr there
      rw [fresh] at born
      cases born
  | spawnFailed rid =>
      cases asks
      have enabled : (s.creating rid).isSome := enabled
      simp only [World.Enabled, coherent.spawning rid, Option.isSome_map, enabled]
  | releasestate name =>
      cases asks
      trivial
  | _ => cases asks

/-- A step without the manager leaves it alone. -/
theorem mgr_next_of_local {label : Label Name Addr Rid Wid K V} (noMessage : label.event = none) :
    (s.next conf label).mgr = s.mgr := by
  cases label with
  | receive rid =>
      simp only [next, receive]
      repeat' split
      all_goals rfl
  | lock | unlock | patched | patchFailed | newstate | spawned | spawnFailed | releasestate =>
      cases noMessage
  | exit addr => rfl
  | _ =>
      simp only [next]
      repeat' split
      all_goals rfl

/-- Only a `newstate` that completes creates a cell. -/
theorem born_next {label : Label Name Addr Rid Wid K V}
    (other : ∀ rid addr, label ≠ .spawned rid addr) : (s.next conf label).born = s.born := by
  cases label with
  | spawned rid addr => exact absurd rfl (other rid addr)
  | receive rid =>
      simp only [next, receive]
      repeat' split
      all_goals rfl
  | unlock rid entries =>
      simp only [next]
      split
      · exact (delivered _ _).born
      · rfl
  | lock | patched | patchFailed | newstate | spawnFailed | releasestate =>
      exact (delivered _ _).born
  | exit addr => rfl
  | _ =>
      simp only [next]
      repeat' split
      all_goals rfl

/-- The services refine the manager: a label is a step of the manager or leaves it alone. -/
theorem Coherent.manager_step (coherent : Coherent s) {label : Label Name Addr Rid Wid K V}
    {s' : Net Name Addr Rid Wid K V} (taken : Step conf s label s') :
    (∃ event, label.event = some event ∧ World.Step s.mgr event s'.mgr) ∨
      (label.event = none ∧ s'.mgr = s.mgr) := by
  obtain ⟨enabled, rfl⟩ := taken
  have delivers : ∀ event, label.event = some event →
      (s.next conf label).mgr = s.mgr.next event →
      ∃ event, label.event = some event ∧ World.Step s.mgr event (s.next conf label).mgr :=
    fun event asks same => ⟨event, asks, coherent.allowed enabled asks, same⟩
  cases label with
  | lock rid names => exact .inl (delivers _ rfl (delivered _ _).mgr)
  | patched rid => exact .inl (delivers _ rfl (delivered _ _).mgr)
  | patchFailed rid => exact .inl (delivers _ rfl (delivered _ _).mgr)
  | newstate rid name t => exact .inl (delivers _ rfl (delivered _ _).mgr)
  | spawnFailed rid => exact .inl (delivers _ rfl (delivered _ _).mgr)
  | releasestate name => exact .inl (delivers _ rfl (delivered _ _).mgr)
  | unlock rid entries =>
      refine .inl (delivers _ rfl ?_)
      cases stage : s.stage rid with
      | unlocking q patchMap =>
          simp only [next, stage]
          exact (delivered _ _).mgr
      | _ => simp [Enabled, stage] at enabled
  | spawned rid addr =>
      refine .inl (delivers _ rfl ?_)
      obtain ⟨-, name, t, creating, begun⟩ := enabled
      obtain ⟨cell, begun⟩ := Option.isSome_iff_exists.mp begun
      simp only [next, creating, Option.bind_some, begun, Option.map_some]
      exact (delivered _ _).mgr
  | _ => exact .inr ⟨rfl, mgr_next_of_local rfl⟩

theorem Coherent.lock (coherent : Coherent s) {rid : Rid} {names : List Name}
    (enabled : s.Enabled conf (.lock rid names)) : Coherent (s.next conf (.lock rid names)) := by
  have stage : s.stage rid = .asking names := by
    revert enabled
    simp only [Enabled]
    cases s.stage rid <;> simp
  have good := coherent.at_asking stage
  have step : World.Step s.mgr (.lock (T := Table K V) rid names)
      (s.mgr.next (.lock (T := Table K V) rid names)) := ⟨coherent.allowed enabled rfl, rfl⟩
  have moved := moves_of_step coherent.sound step
  have posts : s.deliver (.lock rid names) =
      { s with mgr := s.mgr.next (.lock (T := Table K V) rid names) } := by
    rw [deliver_eq]
    simp only [body, Process.lock]
    split <;> rfl
  have quiet : s.mgr.proc.patching rid = none := by
    cases parked : s.mgr.proc.patching rid with
    | none => rfl
    | some entry =>
        have phase := (coherent.sound.suspended rid _).mpr ⟨entry.1, entry.2, parked, rfl⟩
        rw [good.1] at phase
        cases phase
  simp only [next, posts]
  refine coherent.manager step trivial rfl rfl rfl rfl rfl rfl ?_ (fun _ _ => rfl) (by simp) ?_ ?_
    ?_ ?_
  · intro other apart
    have apart : other ≠ rid := fun here => apart (by rw [here]; rfl)
    simp [moveTo, apart]
  · intro other
    exact (congrFun moved.of_lock.2 other).trans (coherent.spawning other)
  · intro other acts
    cases acts
    unfold Good
    simp only [moveTo, Function.update_self]
    exact ⟨moved.of_lock.1.symm, good.2⟩
  · intro other acts _
    cases acts
    exact coherent.calls rid quiet
  · intro other q name addr acts query
    cases acts
    rw [stage] at query
    cases query

/-- Setting an idle `patch` call idle changes nothing. -/
theorem patchCall_idle {rid : Rid} (idle : s.patchCall rid = .idle) :
    { s with patchCall := Function.update s.patchCall rid .idle } = s := by
  rw [← idle, Function.update_eq_self]

theorem Coherent.unlock (coherent : Coherent s) {rid : Rid}
    {entries : List (Name × Option (Diff K V))} (enabled : s.Enabled conf (.unlock rid entries)) :
    Coherent (s.next conf (.unlock rid entries)) := by
  obtain ⟨q, patchMap, stage, perm⟩ : ∃ q patchMap, s.stage rid = .unlocking q patchMap ∧
      entries.Perm patchMap := by
    revert enabled
    simp only [Enabled]
    cases s.stage rid <;> simp
  obtain ⟨⟨shape, held⟩, keys, due⟩ := coherent.at_unlocking stage
  have keysPerm : (entries.map Prod.fst).Perm q.names := keys ▸ perm.map Prod.fst
  have allowed : s.mgr.Enabled (.unlock (T := Table K V) rid entries) :=
    coherent.allowed enabled rfl
  have idle := coherent.calls rid (coherent.sound.patching_of_held held)
  simp only [next, stage]
  refine coherent.unlocks (q := q) (.start entries) allowed (by rw [stage]; rfl) shape
    (fun n member => keysPerm.mem_iff.mp member) ?_ (by rw [patchCall_idle idle])
  intro name change member
  exact due name change (perm.mem_iff.mp member)

theorem Coherent.patched (coherent : Coherent s) {rid : Rid}
    (enabled : s.Enabled conf (.patched rid)) : Coherent (s.next conf (.patched rid)) := by
  have allowed : s.mgr.Enabled (.patched (T := Table K V) rid) := coherent.allowed enabled rfl
  have enabled : s.patchCall rid = .answered true := enabled
  obtain ⟨q, name, rest, stage, parked, shape, within, due, addr, at', call⟩ :=
    coherent.parked_of_call (show s.patchCall rid ≠ .idle by rw [enabled]; simp)
  have paid : s.Due q [(name, none)] := by
    rcases call with ⟨diff, sent, -⟩ | ⟨ok, -, paid⟩
    · rw [enabled] at sent
      cases sent
    · exact paid
  have inNames : name ∈ q.names := by
    obtain ⟨i, atName, -⟩ := at'
    exact List.mem_of_getElem? atName
  have whole := coherent.unlocks (q := q) (.resume name rest parked) allowed
    (by rw [stage]; rfl) shape
    (by
      intro n member
      rcases List.mem_cons.mp member with rfl | later
      · exact inNames
      · exact within n later)
    (by
      intro n change member
      rcases List.mem_cons.mp member with same | later
      · exact paid n change (by simp [same])
      · exact due n change later) rfl
  have still : (s.next conf (.patched rid)).moveTo rid (.returned q) =
      s.next conf (.patched rid) := by
    have same := (delivered { s with patchCall := Function.update s.patchCall rid .idle }
      (.patched rid)).stage
    rw [moveTo]
    have kept : Function.update (s.next conf (.patched rid)).stage rid (.returned q) =
        (s.next conf (.patched rid)).stage := by
      rw [← stage]
      have at'' : (s.next conf (.patched rid)).stage = s.stage := same
      rw [at'', Function.update_eq_self]
    rw [kept]
  rw [← still]
  exact whole

theorem Coherent.patchFailed (coherent : Coherent s) {rid : Rid}
    (enabled : s.Enabled conf (.patchFailed rid)) :
    Coherent (s.next conf (.patchFailed rid)) := by
  have allowed : s.mgr.Enabled (.patchFailed (T := Table K V) rid) := coherent.allowed enabled rfl
  obtain ⟨ok, called⟩ := enabled
  obtain ⟨q, name, rest, stage, parked, shape, -⟩ :=
    coherent.parked_of_call (show s.patchCall rid ≠ .idle by rw [called]; simp)
  have step : World.Step s.mgr (.patchFailed (T := Table K V) rid)
      (s.mgr.next (.patchFailed (T := Table K V) rid)) := ⟨allowed, rfl⟩
  have moved := moves_of_step coherent.sound step
  have posts : s.next conf (.patchFailed rid) =
      { s with
        mgr := s.mgr.next (.patchFailed (T := Table K V) rid)
        patchCall := Function.update s.patchCall rid .idle } := by
    simp only [next]
    rw [deliver_eq]
    simp [body, Process.patchFailed, parked, post]
  have after : s.mgr.next (.patchFailed (T := Table K V) rid) =
      s.mgr.giveBack rid [] none (.stuck (name :: rest.map Prod.fst)) :=
    moved.of_patchFailed parked
  rw [posts]
  refine coherent.manager step trivial rfl rfl rfl rfl rfl rfl (fun _ _ => rfl) ?_ (by simp) ?_ ?_
    ?_ ?_
  · intro other apart
    have apart : other ≠ rid := fun here => apart (by rw [here]; rfl)
    simp [apart]
  · intro other
    rw [after]
    exact coherent.spawning other
  · intro other acts
    cases acts
    unfold Good
    simp only [stage]
    refine ⟨⟨shape.distinct, ?_, shape.lengths, shape.fetched, shape.born⟩,
      .inl ⟨name :: rest.map Prod.fst, ?_⟩⟩
    · rw [after]
      exact shape.reply
    · rw [after]
      simp [giveBack]
  · intro other acts _
    cases acts
    simp
  · intro other q' n addr acts query past covers at'
    cases acts
    refine .inr ⟨rid, q', n, query, past, ?_, at'⟩
    rw [Covers, (coherent.sound.suspended rid _).mpr ⟨name, rest, parked, rfl⟩] at covers
    simp only [after, Covers, giveBack, Function.update_self]
    exact covers

theorem Coherent.newstate (coherent : Coherent s) {rid : Rid} {name : Name} {t : Table K V}
    (enabled : s.Enabled conf (.newstate rid name t)) :
    Coherent (s.next conf (.newstate rid name t)) := by
  have step : World.Step s.mgr (.newstate rid name t) (s.mgr.next (.newstate rid name t)) :=
    ⟨coherent.allowed enabled rfl, rfl⟩
  have moved := moves_of_step coherent.sound step
  simp only [next, deliver_eq]
  generalize s.mgr.next (.newstate rid name t) = w' at moved step
  rcases moved.of_newstate with ⟨taken, rfl⟩ | ⟨absent, rfl⟩
  · have out : (s.mgr.proc.body (.newstate rid name t)).2 = [.createRaised rid] := by
      simp [body, Process.newstate, taken]
    rw [out]
    exact coherent
  · have out : (s.mgr.proc.body (.newstate rid name t)).2 = [.spawn rid name t] := by
      simp [body, Process.newstate, absent]
    rw [out]
    refine coherent.manager step trivial rfl rfl rfl rfl rfl rfl (fun _ _ => rfl)
      (fun _ _ => rfl) (by simp) ?_ (by simp [Event.actor]) (by simp [Event.actor])
      (by simp [Event.actor])
    intro other
    by_cases here : other = rid
    · subst here
      simp [post]
    · simpa [post, here] using coherent.spawning other

theorem Coherent.spawnFailed (coherent : Coherent s) {rid : Rid}
    (enabled : s.Enabled conf (.spawnFailed rid)) :
    Coherent (s.next conf (.spawnFailed rid)) := by
  have step : World.Step s.mgr (.spawnFailed (T := Table K V) rid)
      (s.mgr.next (.spawnFailed (T := Table K V) rid)) := ⟨coherent.allowed enabled rfl, rfl⟩
  have moved := moves_of_step coherent.sound step
  simp only [next, deliver_eq]
  generalize s.mgr.next (.spawnFailed (T := Table K V) rid) = w' at moved step
  cases moved.of_spawnFailed
  refine coherent.manager step trivial rfl rfl rfl rfl rfl rfl (fun _ _ => rfl)
    (fun _ _ => rfl) (by simp) ?_ (by simp [Event.actor]) (by simp [Event.actor])
    (by simp [Event.actor])
  intro other
  by_cases here : other = rid
  · subst here
    simp [body, post]
  · simpa [body, post, here] using coherent.spawning other

theorem Coherent.releasestate (coherent : Coherent s) (name : Name) :
    Coherent (s.next conf (.releasestate name)) := by
  have step : World.Step s.mgr (.releasestate (T := Table K V) name)
      (s.mgr.next (.releasestate (T := Table K V) name)) := ⟨trivial, rfl⟩
  have moved := moves_of_step coherent.sound step
  obtain ⟨leaving, posts⟩ : ∃ leaving, s.next conf (.releasestate name) =
      { s with
        mgr := s.mgr.next (.releasestate (T := Table K V) name)
        leaving := leaving } := by
    simp only [next, deliver_eq, body, Process.releasestate]
    split <;> exact ⟨_, rfl⟩
  rw [posts]
  generalize s.mgr.next (.releasestate (T := Table K V) name) = w' at moved step
  cases moved.of_releasestate
  exact coherent.manager step trivial rfl rfl rfl rfl rfl rfl (fun _ _ => rfl)
    (fun _ _ => rfl) (by simp) coherent.spawning (by simp [Event.actor])
    (by simp [Event.actor]) (by simp [Event.actor])

/-- A new cell, at an address that was never used. -/
theorem Coherent.newCell (coherent : Coherent s) {addr : Addr} (fresh : s.born addr = none)
    (name : Name) {cell : Cell K V} (grown : cell.Grown cell.t) (unpatched : cell.patches = []) :
    Coherent { s with
      cells := Function.update s.cells addr (some cell)
      born := Function.update s.born addr (some (name, cell.t)) } := by
  have apart : ∀ {a entry}, s.born a = some entry → a ≠ addr := by
    rintro a entry born rfl
    rw [fresh] at born
    cases born
  have grows : ∀ a entry, s.born a = some entry →
      Function.update s.born addr (some (name, cell.t)) a = some entry := by
    intro a entry born
    rw [Function.update_of_ne (apart born), born]
  constructor
  · exact coherent.sound
  · exact coherent.exclusive
  · exact coherent.addressed
  · intro rid
    refine Agree.good ?_ coherent.sound (coherent.good rid)
    refine ⟨rfl, .inl rfl, rfl, rfl, fun _ member => member, rfl, fun _ _ => rfl, fun _ _ => rfl,
      fun _ _ => rfl, grows, fun _ _ _ _ _ => rfl, ?_⟩
    intro n a t other _ born there
    simpa [apart born] using there
  · exact coherent.calls
  · exact coherent.spawning
  · intro n a there
    obtain ⟨t, born⟩ := coherent.stated n a there
    exact ⟨t, grows _ _ born⟩
  · intro reply member n a there
    obtain ⟨t, born⟩ := coherent.granted reply member n a there
    exact ⟨t, grows _ _ born⟩
  · intro a other there
    by_cases here : a = addr
    · subst here
      have same : cell = other := by simpa using there
      subst same
      refine ⟨name, cell.t, by simp, grown, .inl ?_⟩
      rw [unpatched]
      exact coherent.unborn a fresh
    · obtain ⟨n, t, born, grown', rest⟩ := coherent.cells a other (by simpa [here] using there)
      exact ⟨n, t, grows _ _ born, grown', rest⟩
  · intro wid n v version
    obtain ⟨map, a, t, value, atMap, source, born, rest⟩ := coherent.caches wid n v version
    exact ⟨map, a, t, value, atMap, source, grows _ _ born, rest⟩
  · intro a n t born
    by_cases here : a = addr
    · subst here
      have empty : changesIn s.closed a = [] := coherent.unborn a fresh
      exact ⟨t, by rw [log, empty]; rfl⟩
    · exact coherent.values a n t (by simpa [here] using born)
  · intro a born
    by_cases here : a = addr
    · subst here
      simp at born
    · exact coherent.unborn a (by simpa [here] using born)
  · intro before c after shape entry member
    obtain ⟨t, value, result, born, rest⟩ := coherent.serial before c after shape entry member
    exact ⟨t, value, result, grows _ _ born, rest⟩

/-- A `newstate` that completes on a name that no grant covers. -/
theorem Coherent.spawned (coherent : Coherent s) {rid : Rid} {addr : Addr}
    (enabled : s.Enabled conf (.spawned rid addr))
    (clear : ∀ name t, s.creating rid = some (name, t) → ∀ holder, ¬ s.mgr.Covers holder name) :
    Coherent (s.next conf (.spawned rid addr)) := by
  have step : World.Step s.mgr (.spawned (T := Table K V) rid addr)
      (s.mgr.next (.spawned (T := Table K V) rid addr)) := ⟨coherent.allowed enabled rfl, rfl⟩
  obtain ⟨fresh, name, t, creating, begun⟩ := enabled
  obtain ⟨cell, begun⟩ := Option.isSome_iff_exists.mp begun
  obtain ⟨grown, unpatched⟩ := Cell.Grown.start begun
  have asked : s.mgr.proc.spawning rid = some name := by
    rw [coherent.spawning rid, creating]
    rfl
  have moved := moves_of_step coherent.sound step
  have posts : s.next conf (.spawned rid addr) =
      { s with
        mgr := s.mgr.next (.spawned (T := Table K V) rid addr)
        creating := Function.update s.creating rid none
        cells := Function.update s.cells addr (some cell)
        born := Function.update s.born addr (some (name, cell.t)) } := by
    simp only [next, creating, Option.bind_some, begun, Option.map_some]
    rw [deliver_eq]
    simp [body, Process.spawned, asked, post]
  rw [posts]
  refine (coherent.newCell fresh name grown unpatched).manager step ?_ rfl rfl rfl rfl rfl rfl
    (fun _ _ => rfl) (fun _ _ => rfl) ?_ ?_ (by simp [Event.actor]) (by simp [Event.actor])
    (by simp [Event.actor])
  · intro other asked'
    rw [asked] at asked'
    cases asked'
    exact clear name t creating
  · intro other a n same asked'
    cases same
    rw [asked] at asked'
    cases asked'
    exact ⟨cell.t, by simp⟩
  · intro other
    have before := coherent.sound.created rid addr name
    have pass := pass_spec _ before.waits before.quiet
    obtain ⟨q, scanned, proc⟩ := pass.proc
    simp only [moved.of_spawned asked, proc, scanned.spawning]
    by_cases here : other = rid
    · subst here
      simp
    · simpa [here] using coherent.spawning other

end Labels

end Net

end WindLtask.System
