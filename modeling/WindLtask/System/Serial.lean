import WindLtask.Manager.Queue
import WindLtask.System.Reads

/-!
# Serializability

Runs over states that are created once and never released, with queries over
distinct created names.  The order in which the queries close is a serial order:
every query returns what the earlier ones left, although the cells receive the
changes later and the caches of other workers later still.
-/

set_option linter.unusedSectionVars false

namespace WindLtask.System

open Manager World Process

variable {Name Addr Rid Wid K V : Type} [DecidableEq Name] [DecidableEq Addr] [DecidableEq Rid]
  [DecidableEq Wid] [DecidableEq K] [DecidableEq V]

namespace Net

variable {conf : Persistence Name K V} {s s' : Net Name Addr Rid Wid K V}

/-- Queries over distinct created names, `newstate` of fresh names, and no release. -/
def Fixed (s : Net Name Addr Rid Wid K V) : Label Name Addr Rid Wid K V → Prop
  | .begin _ _ names => names.Nodup
  | .lock _ names => ∀ n ∈ names, (s.mgr.proc.state n).isSome
  | .newstate _ name _ =>
      s.mgr.proc.state name = none ∧ ∀ rid, s.mgr.proc.spawning rid ≠ some name
  | .releasestate _ => False
  | _ => True

theorem Fixed.event {label : Label Name Addr Rid Wid K V} (fixed : s.Fixed label)
    {event : Event Name Addr Rid (Table K V) (Diff K V)} (asks : label.event = some event) :
    s.mgr.Fixed event := by
  cases label <;> cases asks <;> exact fixed

/-- What holds of the cells where names are created once. -/
structure Settled (s : Net Name Addr Rid Wid K V) : Prop where
  stocked : s.mgr.Stocked
  present : ∀ addr name t, s.born addr = some (name, t) → s.mgr.proc.state name = some addr

theorem Settled.init [Inhabited Wid] : Settled (init : Net Name Addr Rid Wid K V) where
  stocked := .init
  present := by simp [Net.init]

theorem Settled.single (settled : Settled s) {first second : Addr} {name : Name}
    {t u : Table K V} (left : s.born first = some (name, t))
    (right : s.born second = some (name, u)) : first = second := by
  have same := (settled.present first name t left).symm.trans (settled.present second name u right)
  exact Option.some.inj same

/-- Steps over fixed states are admitted. -/
theorem Settled.admitted (settled : Settled s) (coherent : Coherent s)
    {label : Label Name Addr Rid Wid K V} (fixed : s.Fixed label) : s.Admitted label := by
  cases label with
  | begin rid wid names => exact fixed
  | spawned rid addr =>
      intro name t creating
      refine settled.stocked.newstateClear (T := Table K V) (.spawned rid addr) name ?_
      rw [coherent.spawning rid, creating]
      rfl
  | answer rid =>
      intro q name addr v stage version cached
      obtain ⟨⟨shape, -⟩, awaits, -⟩ := coherent.at_calling stage
      obtain ⟨initial, born⟩ := shape.born name addr (q.at_of_awaits awaits)
      obtain ⟨map, home, t, value, -, source, bornHome, -⟩ :=
        coherent.caches (s.worker rid) name version cached
      exact .inl (settled.single born bornHome ▸ source)
  | _ => trivial

theorem Settled.step (settled : Settled s) (coherent : Coherent s)
    {label : Label Name Addr Rid Wid K V} (fixed : s.Fixed label) (taken : Step conf s label s') :
    Settled s' := by
  rcases coherent.manager_step taken with ⟨event, asks, step⟩ | ⟨noMessage, same⟩
  · have moved := moves_of_step coherent.sound step
    refine ⟨settled.stocked.moves coherent.sound step.1 (fixed.event asks) moved, ?_⟩
    have state := state_of_moves coherent.sound step.1 moved
    obtain ⟨enabled, rfl⟩ := taken
    intro addr name t born
    rw [state]
    cases label with
    | spawned rid new =>
        cases asks
        obtain ⟨fresh, asked, u, creating, begun⟩ := enabled
        obtain ⟨cell, begun⟩ := Option.isSome_iff_exists.mp begun
        have spawning : s.mgr.proc.spawning rid = some asked := by
          rw [coherent.spawning rid, creating]
          rfl
        have after : (s.next conf (.spawned rid new)).born =
            Function.update s.born new (some (asked, cell.t)) := by
          simp only [next, creating, Option.bind_some, begun, Option.map_some]
          exact (delivered _ _).born
        rw [after] at born
        simp only [stateAfter, spawning]
        by_cases here : addr = new
        · subst here
          obtain ⟨rfl, -⟩ : asked = name ∧ cell.t = t := by simpa using born
          simp
        · have present := settled.present addr name t (by simpa [here] using born)
          have apart : name ≠ asked := by
            rintro rfl
            rw [settled.stocked.fresh rid name spawning] at present
            cases present
          simpa [apart] using present
    | releasestate name => exact fixed.elim
    | lock | unlock | patched | patchFailed | newstate | spawnFailed =>
        cases asks
        rw [born_next (by simp)] at born
        exact settled.present addr name t born
    | _ => cases asks
  · obtain ⟨enabled, rfl⟩ := taken
    refine ⟨same ▸ settled.stocked, ?_⟩
    rw [same, born_next (fun _ _ spawned => by rw [spawned] at noMessage; cases noMessage)]
    exact settled.present

/-! ## The record of closed queries -/

/-- The record has every query that has closed, once, with all its names. -/
structure Recorded (s : Net Name Addr Rid Wid K V) : Prop where
  once : (s.closed.map Closed.rid).Nodup
  ended : ∀ rid, rid ∈ s.closed.map Closed.rid ↔ (s.stage rid).past
  whole : ∀ c ∈ s.closed, ∀ q, (s.stage c.rid).query = some q →
    c.entries.map Entry.name = q.names

theorem Recorded.init [Inhabited Wid] : Recorded (init : Net Name Addr Rid Wid K V) where
  once := List.nodup_nil
  ended := by simp [Net.init, Stage.past]
  whole := by simp [Net.init]

/-- No query closes, and a query that has closed keeps its names. -/
structure Keeps (s s' : Net Name Addr Rid Wid K V) : Prop where
  closed : s'.closed = s.closed
  past : ∀ rid, (s'.stage rid).past ↔ (s.stage rid).past
  query : ∀ rid, (s.stage rid).past → (s'.stage rid).query = (s.stage rid).query

theorem Keeps.still (closed : s'.closed = s.closed) (stage : s'.stage = s.stage) : Keeps s s' := by
  refine ⟨closed, fun rid => ?_, fun rid _ => ?_⟩ <;> rw [stage]

/-- One coroutine moves on, on the same side of its close. -/
theorem Keeps.moved {rid : Rid} {after : Stage Name Addr K V} (closed : s'.closed = s.closed)
    (stage : s'.stage = Function.update s.stage rid after) (past : after.past ↔ (s.stage rid).past)
    (query : (s.stage rid).past → after.query = (s.stage rid).query) : Keeps s s' := by
  refine ⟨closed, fun other => ?_, fun other isPast => ?_⟩ <;> rw [stage] <;>
    by_cases here : other = rid
  · subst here
    simpa using past
  · simp [here]
  · subst here
    simpa using query isPast
  · simp [here]

theorem Keeps.early {rid : Rid} {after : Stage Name Addr K V} (closed : s'.closed = s.closed)
    (stage : s'.stage = Function.update s.stage rid after) (before : ¬ (s.stage rid).past)
    (notPast : ¬ after.past) : Keeps s s' :=
  .moved closed stage (iff_of_false notPast before) fun past => absurd past before

theorem not_past_proceed (cache : Cache Name K V) (q : Query Name Addr K V) :
    ¬ (proceed cache q).past := by
  unfold proceed
  split <;> simp [Stage.past]

/-- Only `close` closes a query. -/
theorem keeps_next {label : Label Name Addr Rid Wid K V} (enabled : s.Enabled conf label)
    (other : ∀ rid tables, label ≠ .close rid tables) : Keeps s (s.next conf label) := by
  cases label with
  | close rid tables => exact absurd rfl (other rid tables)
  | begin rid wid names =>
      cases stage : s.stage rid with
      | idle => exact .early rfl rfl (by simp [stage, Stage.past]) id
      | _ => simp [Enabled, stage] at enabled
  | lock rid names =>
      have sent := delivered s (.lock rid names)
      cases stage : s.stage rid with
      | asking asked =>
          have moves := congrArg (Function.update · rid (.locking names)) sent.stage
          exact .early sent.closed moves (by simp [stage, Stage.past]) id
      | _ => simp [Enabled, stage] at enabled
  | granted rid list border =>
      cases stage : s.stage rid with
      | locking names =>
          simp only [next, stage]
          exact .early rfl rfl (by simp [stage, Stage.past]) (not_past_proceed _ _)
      | _ => simp [Enabled, stage] at enabled
  | answer rid =>
      cases stage : s.stage rid with
      | calling q name addr v =>
          simp only [next, stage]
          split
          · exact .early rfl rfl (by simp [stage, Stage.past]) id
          · exact .still rfl rfl
      | _ => simp [Enabled, stage] at enabled
  | refuse rid =>
      cases stage : s.stage rid with
      | calling q name addr v =>
          simp only [next, stage]
          exact .early rfl rfl (by simp [stage, Stage.past]) id
      | _ => simp [Enabled, stage] at enabled
  | receive rid =>
      cases stage : s.stage rid with
      | answered q name addr answer =>
          simp only [next, stage, receive]
          split
          · exact .early rfl rfl (by simp [stage, Stage.past]) (not_past_proceed _ _)
          · exact .early rfl rfl (by simp [stage, Stage.past]) id
      | _ => simp [Enabled, stage] at enabled
  | raise rid =>
      cases stage : s.stage rid with
      | running q =>
          simp only [next, stage]
          exact .early rfl rfl (by simp [stage, Stage.past]) id
      | _ => simp [Enabled, stage] at enabled
  | fork rid =>
      cases stage : s.stage rid with
      | closed q =>
          simp only [next, stage]
          split
          · exact .moved rfl rfl (by simp [stage, Stage.past]) (by simp [stage, Stage.query])
          · exact .moved rfl rfl (by simp [stage, Stage.past]) (by simp [stage, Stage.query])
      | _ => simp [Enabled, stage] at enabled
  | unlock rid entries =>
      have sent := delivered s (.unlock rid entries)
      cases stage : s.stage rid with
      | unlocking q patchMap =>
          simp only [next, stage]
          have moves := congrArg (Function.update · rid (.returned q)) sent.stage
          exact .moved sent.closed moves (by simp [stage, Stage.past])
            (by simp [stage, Stage.query])
      | _ => simp [Enabled, stage] at enabled
  | patched | patchFailed | newstate | spawnFailed | releasestate =>
      exact .still (delivered _ _).closed (delivered _ _).stage
  | patch rid =>
      simp only [next]
      repeat' split
      all_goals exact .still rfl rfl
  | spawned rid addr =>
      simp only [next]
      split
      · exact .still (delivered _ _).closed (delivered _ _).stage
      · exact .still rfl rfl
  | exit addr => exact .still rfl rfl

theorem Recorded.keeps (recorded : Recorded s) (keeps : Keeps s s') : Recorded s' := by
  refine ⟨?_, fun rid => ?_, fun c member q query => ?_⟩
  · rw [keeps.closed]
    exact recorded.once
  · rw [keeps.closed, keeps.past rid]
    exact recorded.ended rid
  · rw [keeps.closed] at member
    have past := (recorded.ended c.rid).mp (List.mem_map_of_mem member)
    rw [keeps.query c.rid past] at query
    exact recorded.whole c member q query

/-- A query that has left its loop has a table for each of its names. -/
theorem Settled.full (settled : Settled s) (coherent : Coherent s) {rid : Rid}
    {q : Query Name Addr K V} (shape : s.Shape rid q) (held : s.mgr.phase rid = .held q.names)
    (awaits : q.awaits = none) : q.oldList.length = q.names.length ∧
      q.addrs = q.names.map s.mgr.proc.state ∧
        ∀ n ∈ q.names, (s.mgr.proc.state n).isSome := by
  obtain ⟨reply, member, own, addrs⟩ := shape.reply
  subst own
  obtain ⟨others, asked, answers⟩ := coherent.sound.answers reply member
  obtain ⟨names, request, list⟩ := settled.stocked.own reply member
  have asks := coherent.sound.named _ _ (.inr held)
  obtain rfl := coherent.sound.names_eq asked asks
  obtain rfl := coherent.sound.names_eq request asks
  have addrs : q.addrs = q.names.map s.mgr.proc.state := by rw [addrs, ← answers, list]
  have cells := settled.stocked.cells _ asks
  refine ⟨Nat.le_antisymm shape.length_le ?_, addrs, cells⟩
  by_contra short
  have inside := Nat.not_le.mp short
  obtain ⟨name, atName⟩ : ∃ name, q.names[q.oldList.length]? = some name :=
    ⟨_, List.getElem?_eq_getElem inside⟩
  obtain ⟨addr, cell⟩ := Option.isSome_iff_exists.mp (cells name (List.mem_of_getElem? atName))
  have calls := (q.awaits_eq_some_iff name addr).mpr ⟨atName, by
    rw [addrs, List.getElem?_map, atName, Option.map_some, cell]⟩
  rw [awaits] at calls
  cases calls

/-- The entries of a full query have its names. -/
theorem entries_names {q : Query Name Addr K V} {tables : List (Table K V)}
    {state : Name → Option Addr} (addrs : q.addrs = q.names.map state)
    (cells : ∀ n ∈ q.names, (state n).isSome) (oldLength : q.oldList.length = q.names.length)
    (newLength : q.newList.length = q.names.length) (length : tables.length = q.names.length) :
    (entries q tables).map Entry.name = q.names := by
  obtain ⟨names, list, border, olds, news⟩ := q
  simp only at addrs cells oldLength newLength length
  subst addrs
  unfold entries
  simp only
  induction names generalizing olds news tables with
  | nil => rfl
  | cons name names ih =>
      obtain ⟨old, olds, rfl⟩ := List.exists_cons_of_length_eq_add_one oldLength
      obtain ⟨new, news, rfl⟩ := List.exists_cons_of_length_eq_add_one newLength
      obtain ⟨table, tables, rfl⟩ := List.exists_cons_of_length_eq_add_one length
      obtain ⟨addr, cell⟩ := Option.isSome_iff_exists.mp (cells name List.mem_cons_self)
      have rest := ih olds news (fun n member => cells n (List.mem_cons_of_mem _ member))
        (by simpa using oldLength) (by simpa using newLength) (by simpa using length)
      simpa [cell] using rest

theorem Recorded.close (recorded : Recorded s) (settled : Settled s) (coherent : Coherent s)
    {rid : Rid} {tables : List (Table K V)} (enabled : s.Enabled conf (.close rid tables)) :
    Recorded (s.next conf (.close rid tables)) := by
  obtain ⟨q, stage, length⟩ := running_of_close enabled
  obtain ⟨⟨shape, held⟩, awaits, -⟩ := coherent.at_running stage
  obtain ⟨full, addrs, cells⟩ := settled.full coherent shape held awaits
  have newLength := shape.lengths.trans full
  have fresh : rid ∉ s.closed.map Closed.rid := by
    rw [recorded.ended rid, stage]
    exact id
  simp only [next, stage]
  refine ⟨?_, fun other => ?_, fun c member other query => ?_⟩
  · rw [List.map_append, List.nodup_append]
    refine ⟨recorded.once, by simp, fun first inOld second isNew same => fresh ?_⟩
    obtain rfl : second = rid := by simpa using isNew
    exact same ▸ inOld
  · rw [List.map_append, List.mem_append, recorded.ended other]
    by_cases here : other = rid
    · subst here
      simp [Net.moveTo, Stage.past]
    · simp [Net.moveTo, here]
  · rcases List.mem_append.mp member with old | new
    · have apart : c.rid ≠ rid := fun same => fresh (same ▸ List.mem_map_of_mem old)
      refine recorded.whole c old other ?_
      simpa [Net.moveTo, apart] using query
    · obtain rfl := List.mem_singleton.mp new
      obtain rfl : { q with newList := tables } = other := by
        simpa [Net.moveTo, Stage.query] using query
      exact entries_names addrs cells full newLength (length.trans newLength)

theorem Recorded.step (recorded : Recorded s) (settled : Settled s) (coherent : Coherent s)
    {label : Label Name Addr Rid Wid K V} (taken : Step conf s label s') : Recorded s' := by
  obtain ⟨enabled, rfl⟩ := taken
  cases label with
  | close rid tables => exact recorded.close settled coherent enabled
  | _ => exact recorded.keeps (keeps_next enabled (by simp))

/-! ## Runs -/

/-- Every transaction sees exactly what the transactions that closed before it left. -/
structure Serialized (s : Net Name Addr Rid Wid K V) : Prop where
  /-- the order has every closed query once, with all its names -/
  order : Recorded s
  /-- a name has one cell -/
  single : ∀ first second name t u, s.born first = some (name, t) →
    s.born second = some (name, u) → first = second
  /-- a closed query returned the initial tables with exactly the earlier changes applied,
  and its own changes lead to the tables that the handler left -/
  returned : ∀ before c after, s.closed = before ++ c :: after → ∀ entry ∈ c.entries,
    ∃ t value result, s.born entry.addr = some (entry.name, t) ∧
      replay t (changesIn before entry.addr) = some value ∧ value.Same entry.returned ∧
      replay t (changesIn (before ++ [c]) entry.addr) = some result ∧ result.Same entry.left
  /-- a query that is still open has a table for each name, with all changes so far applied -/
  running : ∀ rid q, s.stage rid = .running q → q.newList.length = q.names.length ∧
    ∀ (i : Nat) name table, q.names[i]? = some name → q.newList[i]? = some table →
      ∃ addr t value, q.addrs[i]? = some (some addr) ∧ s.born addr = some (name, t) ∧
        replay t (s.log addr) = some value ∧ value.Same table
  /-- a cell has applied all changes but at most one, whose query still covers the name -/
  cells : ∀ addr cell, s.cells addr = some cell → ∃ name t, s.born addr = some (name, t) ∧
    cell.version = cell.patches.length ∧ replay t cell.patches = some cell.t ∧
    (s.log addr = cell.patches ∨
      ∃ diff, s.log addr = cell.patches ++ [diff] ∧ s.Owner addr)
  /-- a cached table is the value after as many changes as its version says -/
  caches : ∀ wid name v, (s.caches wid).stateVersion name = some v →
    ∃ addr t value table, s.born addr = some (name, t) ∧ v ≤ (s.log addr).length ∧
      replay t ((s.log addr).take v) = some value ∧
      (s.caches wid).stateMap name = some table ∧ value.Same table

theorem Settled.serialized (settled : Settled s) (coherent : Coherent s)
    (recorded : Recorded s) : Serialized s where
  order := recorded
  single := fun _ _ _ _ _ => settled.single
  returned := coherent.serial
  running := by
    intro rid q stage
    obtain ⟨⟨shape, held⟩, awaits, holds, copies⟩ := coherent.at_running stage
    obtain ⟨full, addrs, cells⟩ := settled.full coherent shape held awaits
    refine ⟨shape.lengths.trans full, fun i name table atName atNew => ?_⟩
    obtain ⟨addr, cell⟩ := Option.isSome_iff_exists.mp (cells name (List.mem_of_getElem? atName))
    have atAddr : q.addrs[i]? = some (some addr) := by
      rw [addrs, List.getElem?_map, atName, Option.map_some, cell]
    obtain ⟨old, atOld⟩ : ∃ old, q.oldList[i]? = some old :=
      ⟨_, List.getElem?_eq_getElem (shape.lengths ▸ (List.getElem?_eq_some_iff.mp atNew).1)⟩
    obtain ⟨t, before, value, born, log, reached, same, -⟩ :=
      holds i name addr old table atName atAddr atOld atNew
    have log : s.log addr = before := by simpa [unchanged] using log
    exact ⟨addr, t, value, atAddr, born, log ▸ reached,
      same.trans (copies i old table atOld atNew).symm⟩
  cells := by
    intro addr cell there
    obtain ⟨name, t, born, grown, rest⟩ := coherent.cells addr cell there
    exact ⟨name, t, born, grown.version, grown.value, rest⟩
  caches := by
    intro wid name v version
    obtain ⟨map, addr, t, value, atMap, -, born, bound, reached, same⟩ :=
      coherent.caches wid name v version
    exact ⟨addr, t, value, map, born, bound, reached, atMap, same⟩

end Net

end WindLtask.System
