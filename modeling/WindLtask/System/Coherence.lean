import WindLtask.Manager.Effects
import WindLtask.System.Net
import WindLtask.Worker.StarreLaws

/-!
# Coherence of caches, cells and queries

The invariant of the whole system.  A cell has applied a prefix of the changes
that closed queries made to it; at most one change is missing, and the query that
made it still covers the name.  A cached table is the value of its cell at the
cached version.  A query that has not closed holds the present value of each of
its cells.  The frame lemma says what the part of one query depends on: the names
that it covers, and nothing else.
-/

set_option linter.unusedSectionVars false

namespace WindLtask

/-- The query got the name from the cell. -/
def Query.At {Name Addr K V : Type} (q : Query Name Addr K V) (name : Name) (addr : Addr) : Prop :=
  ∃ i : Nat, q.names[i]? = some name ∧ q.addrs[i]? = some (some addr)

theorem Query.awaits_eq_some_iff {Name Addr K V : Type} (q : Query Name Addr K V) (name : Name)
    (addr : Addr) : q.awaits = some (name, addr) ↔
      q.names[q.oldList.length]? = some name ∧
        q.addrs[q.oldList.length]? = some (some addr) := by
  unfold Query.awaits
  split
  · next n a atName atAddr => simp [atName, atAddr]
  · next absent =>
    constructor
    · intro impossible
      cases impossible
    · rintro ⟨atName, atAddr⟩
      exact absurd atAddr (absent name addr atName)

theorem Query.at_of_awaits {Name Addr K V : Type} (q : Query Name Addr K V) {name : Name}
    {addr : Addr} (awaits : q.awaits = some (name, addr)) : q.At name addr :=
  ⟨_, (q.awaits_eq_some_iff name addr).mp awaits⟩

theorem Query.name_mem_of_awaits {Name Addr K V : Type} (q : Query Name Addr K V) {name : Name}
    {addr : Addr} (awaits : q.awaits = some (name, addr)) : name ∈ q.names := by
  obtain ⟨i, atName, -⟩ := q.at_of_awaits awaits
  exact List.mem_of_getElem? atName

/-- Until the handler writes to them, the results are copies of the fetched tables. -/
def Query.Copies {Name Addr K V : Type} [DecidableEq K] (q : Query Name Addr K V) : Prop :=
  ∀ (i : Nat) (old new : Table K V), q.oldList[i]? = some old → q.newList[i]? = some new →
    new.Same old

theorem Query.Copies.snoc {Name Addr K V : Type} [DecidableEq K] {q : Query Name Addr K V}
    (copies : q.Copies) (lengths : q.newList.length = q.oldList.length) (old : Table K V) :
    Query.Copies { q with
      oldList := q.oldList ++ [old]
      newList := q.newList ++ [old.clone] } := by
  intro i first second atOld atNew
  rw [List.getElem?_append] at atOld atNew
  rw [lengths] at atNew
  split at atOld
  · next inside =>
    rw [if_pos inside] at atNew
    exact copies i first second atOld atNew
  · next outside =>
    rw [if_neg outside] at atNew
    obtain ⟨-, rfl⟩ := List.getElem?_eq_some_iff.mp atOld
    obtain ⟨-, rfl⟩ := List.getElem?_eq_some_iff.mp atNew
    simpa [Table.Same] using old.denote_clone

namespace System

open Manager World

variable {Name Addr Rid Wid K V : Type} [DecidableEq Name] [DecidableEq Addr] [DecidableEq Rid]
  [DecidableEq Wid] [DecidableEq K] [DecidableEq V]

/-- The changes of closed queries to one cell, in the order of closing. -/
def changesIn (closed : List (Closed Name Addr Rid K V)) (addr : Addr) : List (Diff K V) :=
  closed.flatMap fun c => c.entries.filterMap fun entry =>
    if entry.addr = addr then entry.change else none

/-- A query that is still open has changed nothing. -/
def unchanged (_old _new : Table K V) : List (Diff K V) := []

/-- The change that a closed query made to a table. -/
def changed (old new : Table K V) : List (Diff K V) := (ltdiff old new).toList

namespace Net

/-- All changes to one cell so far. -/
def log (s : Net Name Addr Rid Wid K V) (addr : Addr) : List (Diff K V) :=
  changesIn s.closed addr

/--
The query `rid` has the table `old` of a cell: it is the value before the query's
own changes, and the cache of its worker holds it.
-/
def Fetched (s : Net Name Addr Rid Wid K V) (rid : Rid) (name : Name) (addr : Addr)
    (old : Table K V) (own : List (Diff K V)) : Prop :=
  ∃ initial before value, s.born addr = some (name, initial) ∧ s.log addr = before ++ own ∧
    replay initial before = some value ∧ value.Same old ∧
    (s.cache rid).stateVersion name = some before.length ∧
    (s.cache rid).stateMap name = some old ∧ s.source (s.worker rid) name = some addr ∧
    ∀ cell, s.cells addr = some cell → cell.patches = before

/-- Every table that the query has so far is fetched. -/
def Holds (s : Net Name Addr Rid Wid K V) (rid : Rid) (q : Query Name Addr K V)
    (own : Table K V → Table K V → List (Diff K V)) : Prop :=
  ∀ (i : Nat) name addr old new, q.names[i]? = some name → q.addrs[i]? = some (some addr) →
    q.oldList[i]? = some old → q.newList[i]? = some new →
      s.Fetched rid name addr old (own old new)

/-- The entries of a patch map are what the cells still lack. -/
def Due (s : Net Name Addr Rid Wid K V) (q : Query Name Addr K V)
    (entries : List (Name × Option (Diff K V))) : Prop :=
  ∀ name change, (name, change) ∈ entries → ∀ addr, q.At name addr →
    ∀ cell, s.cells addr = some cell → s.log addr = cell.patches ++ change.toList

/-- The answer under way is that of the cell as it still is, to a cache entry that fits. -/
def Answered (s : Net Name Addr Rid Wid K V) (rid : Rid) (name : Name) (addr : Addr)
    (answer : Answer K V) : Prop :=
  ∃ initial cell, s.born addr = some (name, initial) ∧ cell.Grown initial ∧
    s.log addr = cell.patches ∧ answer = cell.query ((s.cache rid).stateVersion name) ∧
    Fits initial cell ((s.cache rid).stateVersion name) ((s.cache rid).stateMap name) ∧
    ((s.cache rid).stateVersion name = some cell.version →
      s.source (s.worker rid) name = some addr) ∧
    ∀ now, s.cells addr = some now → now = cell

/-- A query and its lock reply belong together. -/
structure Shape (s : Net Name Addr Rid Wid K V) (rid : Rid) (q : Query Name Addr K V) :
    Prop where
  distinct : q.names.Nodup
  reply : ∃ reply ∈ s.mgr.replies, reply.rid = rid ∧ q.addrs = q.names.map reply.cells
  lengths : q.newList.length = q.oldList.length
  fetched : ∀ i < q.oldList.length, ∃ name addr,
    q.names[i]? = some name ∧ q.addrs[i]? = some (some addr)
  born : ∀ name addr, q.At name addr → ∃ initial, s.born addr = some (name, initial)

/-- The `patch` call of a suspended `unlock` is for the cell that the query got the name from. -/
def Parked (s : Net Name Addr Rid Wid K V) (rid : Rid) (q : Query Name Addr K V) (name : Name)
    (rest : List (Name × Option (Diff K V))) : Prop :=
  (∀ n ∈ rest.map Prod.fst, n ∈ q.names) ∧ s.Due q rest ∧
    ∃ addr, q.At name addr ∧
      ((∃ diff, s.patchCall rid = .sent addr diff ∧ s.Due q [(name, some diff)]) ∨
        ∃ ok, s.patchCall rid = .answered ok ∧ s.Due q [(name, none)])

/-- What holds of one query, by its stage. -/
def Good (s : Net Name Addr Rid Wid K V) (rid : Rid) : Prop :=
  match s.stage rid with
  | .idle => s.mgr.phase rid = .idle
  | .asking names => s.mgr.phase rid = .idle ∧ names.Nodup
  | .locking names =>
      (s.mgr.phase rid = .queued names ∨ s.mgr.phase rid = .held names) ∧ names.Nodup
  | .calling q name addr v =>
      (s.Shape rid q ∧ s.mgr.phase rid = .held q.names) ∧ q.awaits = some (name, addr) ∧
        s.Holds rid q unchanged ∧ q.Copies ∧ v = (s.cache rid).stateVersion name
  | .answered q name addr answer =>
      (s.Shape rid q ∧ s.mgr.phase rid = .held q.names) ∧ q.awaits = some (name, addr) ∧
        s.Holds rid q unchanged ∧ q.Copies ∧ s.Answered rid name addr answer
  | .running q =>
      (s.Shape rid q ∧ s.mgr.phase rid = .held q.names) ∧ q.awaits = none ∧
        s.Holds rid q unchanged ∧ q.Copies
  | .closed q => (s.Shape rid q ∧ s.mgr.phase rid = .held q.names) ∧ s.Holds rid q changed
  | .unlocking q patchMap =>
      (s.Shape rid q ∧ s.mgr.phase rid = .held q.names) ∧ patchMap.map Prod.fst = q.names ∧
        s.Due q patchMap
  | .returned q => s.Shape rid q ∧
      ((∃ left, s.mgr.phase rid = .stuck left) ∨ s.mgr.phase rid = .finished ∨
        ∃ name rest, s.mgr.proc.patching rid = some (name, rest) ∧ s.Parked rid q name rest)
  | .raised names => s.mgr.phase rid = .held names
  | .broken q => s.Shape rid q ∧ s.mgr.phase rid = .held q.names

/-- The query has made its changes. -/
def PastClose (s : Net Name Addr Rid Wid K V) (rid : Rid) : Prop :=
  (s.stage rid).past

/-- A closed query that still covers the name of the cell. -/
def Owner (s : Net Name Addr Rid Wid K V) (addr : Addr) : Prop :=
  ∃ rid q name, (s.stage rid).query = some q ∧ s.PastClose rid ∧ s.mgr.Covers rid name ∧
    q.At name addr

/-- The invariant of the system. -/
structure Coherent (s : Net Name Addr Rid Wid K V) : Prop where
  sound : s.mgr.Sound
  exclusive : s.mgr.Exclusive
  addressed : s.mgr.Addressed
  good : ∀ rid, s.Good rid
  calls : ∀ rid, s.mgr.proc.patching rid = none → s.patchCall rid = .idle
  spawning : ∀ rid, s.mgr.proc.spawning rid = (s.creating rid).map Prod.fst
  stated : ∀ n addr, s.mgr.proc.state n = some addr → ∃ t, s.born addr = some (n, t)
  granted : ∀ reply ∈ s.mgr.replies, ∀ n addr, reply.cells n = some addr →
    ∃ t, s.born addr = some (n, t)
  cells : ∀ addr cell, s.cells addr = some cell → ∃ n t, s.born addr = some (n, t) ∧
    cell.Grown t ∧ (s.log addr = cell.patches ∨
      ∃ diff, s.log addr = cell.patches ++ [diff] ∧ s.Owner addr)
  caches : ∀ wid n v, (s.caches wid).stateVersion n = some v →
    ∃ map addr t value, (s.caches wid).stateMap n = some map ∧ s.source wid n = some addr ∧
      s.born addr = some (n, t) ∧ v ≤ (s.log addr).length ∧
      replay t ((s.log addr).take v) = some value ∧ value.Same map
  values : ∀ addr n t, s.born addr = some (n, t) → ∃ value, replay t (s.log addr) = some value
  unborn : ∀ addr, s.born addr = none → s.log addr = []
  serial : ∀ before c after, s.closed = before ++ c :: after → ∀ entry ∈ c.entries,
    ∃ t value result, s.born entry.addr = some (entry.name, t) ∧
      replay t (changesIn before entry.addr) = some value ∧ value.Same entry.returned ∧
      replay t (changesIn (before ++ [c]) entry.addr) = some result ∧ result.Same entry.left

/-! ## The frame of one query -/

/-- What the part of one query depends on is the same in both states. -/
structure Agree (s s' : Net Name Addr Rid Wid K V) (rid : Rid) : Prop where
  stage : s'.stage rid = s.stage rid
  phase : Waited (s.mgr.phase rid) (s'.mgr.phase rid)
  patching : s'.mgr.proc.patching rid = s.mgr.proc.patching rid
  call : s'.patchCall rid = s.patchCall rid
  replies : ∀ reply ∈ s.mgr.replies, reply ∈ s'.mgr.replies
  worker : s'.worker rid = s.worker rid
  version : ∀ n, s.mgr.Covers rid n →
    (s'.cache rid).stateVersion n = (s.cache rid).stateVersion n
  map : ∀ n, s.mgr.Covers rid n → (s'.cache rid).stateMap n = (s.cache rid).stateMap n
  source : ∀ n, s.mgr.Covers rid n → s'.source (s.worker rid) n = s.source (s.worker rid) n
  born : ∀ addr entry, s.born addr = some entry → s'.born addr = some entry
  log : ∀ n addr t, s.mgr.Covers rid n → s.born addr = some (n, t) → s'.log addr = s.log addr
  cells : ∀ n addr t cell, s.mgr.Covers rid n → s.born addr = some (n, t) →
    s'.cells addr = some cell → s.cells addr = some cell

namespace Agree

variable {s s' : Net Name Addr Rid Wid K V} {rid : Rid}

theorem shape (agree : Agree s s' rid) {q : Query Name Addr K V} (shape : s.Shape rid q) :
    s'.Shape rid q where
  distinct := shape.distinct
  reply := by
    obtain ⟨reply, member, own, addrs⟩ := shape.reply
    exact ⟨reply, agree.replies reply member, own, addrs⟩
  lengths := shape.lengths
  fetched := shape.fetched
  born := by
    intro name addr at'
    obtain ⟨initial, born⟩ := shape.born name addr at'
    exact ⟨initial, agree.born _ _ born⟩

theorem held (agree : Agree s s' rid) {names : List Name} (held : s.mgr.phase rid = .held names) :
    s'.mgr.phase rid = .held names := by
  rw [agree.phase.covered (by simp [held]), held]

theorem fetched (agree : Agree s s' rid) {name : Name} {addr : Addr} {old : Table K V}
    {own : List (Diff K V)} (covers : s.mgr.Covers rid name)
    (fetched : s.Fetched rid name addr old own) : s'.Fetched rid name addr old own := by
  obtain ⟨initial, before, value, born, log, reached, same, version, map, source, cells⟩ := fetched
  refine ⟨initial, before, value, agree.born _ _ born, ?_, reached, same, ?_, ?_, ?_, ?_⟩
  · rw [agree.log name addr initial covers born, log]
  · rw [agree.version name covers, version]
  · rw [agree.map name covers, map]
  · rw [agree.worker, agree.source name covers, source]
  · exact fun cell now => cells cell (agree.cells name addr initial cell covers born now)

theorem holds (agree : Agree s s' rid) {q : Query Name Addr K V}
    {own : Table K V → Table K V → List (Diff K V)}
    (covers : ∀ n ∈ q.names, s.mgr.Covers rid n) (holds : s.Holds rid q own) :
    s'.Holds rid q own := by
  intro i name addr old new atName atAddr atOld atNew
  exact agree.fetched (covers name (List.mem_of_getElem? atName))
    (holds i name addr old new atName atAddr atOld atNew)

theorem due (agree : Agree s s' rid) {q : Query Name Addr K V}
    {entries : List (Name × Option (Diff K V))} (shape : s.Shape rid q)
    (covers : ∀ n ∈ entries.map Prod.fst, s.mgr.Covers rid n) (due : s.Due q entries) :
    s'.Due q entries := by
  intro name change member addr at' cell now
  obtain ⟨initial, born⟩ := shape.born name addr at'
  have covered := covers name (List.mem_map_of_mem member)
  rw [agree.log name addr initial covered born]
  exact due name change member addr at' cell
    (agree.cells name addr initial cell covered born now)

theorem answered (agree : Agree s s' rid) {name : Name} {addr : Addr} {answer : Answer K V}
    (covers : s.mgr.Covers rid name) (answered : s.Answered rid name addr answer) :
    s'.Answered rid name addr answer := by
  obtain ⟨initial, cell, born, grown, log, shape, fits, current, still⟩ := answered
  refine ⟨initial, cell, agree.born _ _ born, grown, ?_, ?_, ?_, ?_, ?_⟩
  · rw [agree.log name addr initial covers born, log]
  · rw [agree.version name covers, shape]
  · rw [agree.version name covers, agree.map name covers]
    exact fits
  · rw [agree.version name covers, agree.worker, agree.source name covers]
    exact current
  · exact fun now there => still now (agree.cells name addr initial now covers born there)

end Agree

/-! ## A query at one stage -/

namespace Coherent

variable {s : Net Name Addr Rid Wid K V} {rid : Rid} {names : List Name}
  {q : Query Name Addr K V} {name : Name} {addr : Addr}

theorem at_asking (coherent : Coherent s) (stage : s.stage rid = .asking names) :
    s.mgr.phase rid = .idle ∧ names.Nodup := by
  have good := coherent.good rid
  rwa [Good, stage] at good

theorem at_locking (coherent : Coherent s) (stage : s.stage rid = .locking names) :
    (s.mgr.phase rid = .queued names ∨ s.mgr.phase rid = .held names) ∧ names.Nodup := by
  have good := coherent.good rid
  rwa [Good, stage] at good

theorem at_calling (coherent : Coherent s) {v : Option Nat}
    (stage : s.stage rid = .calling q name addr v) :
    (s.Shape rid q ∧ s.mgr.phase rid = .held q.names) ∧ q.awaits = some (name, addr) ∧
      s.Holds rid q unchanged ∧ q.Copies ∧ v = (s.cache rid).stateVersion name := by
  have good := coherent.good rid
  rwa [Good, stage] at good

theorem at_answered (coherent : Coherent s) {answer : Answer K V}
    (stage : s.stage rid = .answered q name addr answer) :
    (s.Shape rid q ∧ s.mgr.phase rid = .held q.names) ∧ q.awaits = some (name, addr) ∧
      s.Holds rid q unchanged ∧ q.Copies ∧ s.Answered rid name addr answer := by
  have good := coherent.good rid
  rwa [Good, stage] at good

theorem at_running (coherent : Coherent s) (stage : s.stage rid = .running q) :
    (s.Shape rid q ∧ s.mgr.phase rid = .held q.names) ∧ q.awaits = none ∧
      s.Holds rid q unchanged ∧ q.Copies := by
  have good := coherent.good rid
  rwa [Good, stage] at good

theorem at_closed (coherent : Coherent s) (stage : s.stage rid = .closed q) :
    (s.Shape rid q ∧ s.mgr.phase rid = .held q.names) ∧ s.Holds rid q changed := by
  have good := coherent.good rid
  rwa [Good, stage] at good

theorem at_unlocking (coherent : Coherent s) {patchMap : List (Name × Option (Diff K V))}
    (stage : s.stage rid = .unlocking q patchMap) :
    (s.Shape rid q ∧ s.mgr.phase rid = .held q.names) ∧ patchMap.map Prod.fst = q.names ∧
      s.Due q patchMap := by
  have good := coherent.good rid
  rwa [Good, stage] at good

end Coherent

theorem covers_of_held {s : Net Name Addr Rid Wid K V} {rid : Rid} {names : List Name}
    (held : s.mgr.phase rid = .held names) : ∀ n ∈ names, s.mgr.Covers rid n := by
  intro n member
  rw [Covers, held]
  exact member

/-- A suspended `unlock` still covers the name it patches and the names after it. -/
theorem covers_of_parked {s : Net Name Addr Rid Wid K V} (sound : s.mgr.Sound) {rid : Rid}
    {name : Name} {rest : List (Name × Option (Diff K V))}
    (parked : s.mgr.proc.patching rid = some (name, rest)) :
    ∀ n ∈ name :: rest.map Prod.fst, s.mgr.Covers rid n := by
  intro n member
  rw [Covers, (sound.suspended rid _).mpr ⟨name, rest, parked, rfl⟩]
  exact member

/-- The frame lemma: a query keeps its invariant through steps that leave its names alone. -/
theorem Agree.good {s s' : Net Name Addr Rid Wid K V} {rid : Rid} (agree : Agree s s' rid)
    (sound : s.mgr.Sound) (good : s.Good rid) : s'.Good rid := by
  unfold Good at good ⊢
  rw [agree.stage]
  cases stage : s.stage rid with
  | idle =>
      rw [stage] at good
      exact (agree.phase.covered (by simp [show s.mgr.phase rid = .idle from good])).trans good
  | asking names =>
      rw [stage] at good
      exact ⟨(agree.phase.covered (by simp [good.1])).trans good.1, good.2⟩
  | locking names =>
      rw [stage] at good
      refine ⟨?_, good.2⟩
      rcases good.1 with queued | held
      · rcases agree.phase with same | ⟨others, was, now⟩
        · exact .inl (same.trans queued)
        · rw [queued] at was
          cases was
          exact .inr now
      · exact .inr (agree.held held)
  | calling q name addr v =>
      rw [stage] at good
      obtain ⟨⟨shape, held⟩, awaits, holds, copies, sent⟩ := good
      have covers := covers_of_held held
      have here : name ∈ q.names := q.name_mem_of_awaits awaits
      exact ⟨⟨agree.shape shape, agree.held held⟩, awaits, agree.holds covers holds, copies,
        sent.trans (agree.version name (covers name here)).symm⟩
  | answered q name addr answer =>
      rw [stage] at good
      obtain ⟨⟨shape, held⟩, awaits, holds, copies, answered⟩ := good
      have covers := covers_of_held held
      have here : name ∈ q.names := q.name_mem_of_awaits awaits
      exact ⟨⟨agree.shape shape, agree.held held⟩, awaits, agree.holds covers holds, copies,
        agree.answered (covers name here) answered⟩
  | running q =>
      rw [stage] at good
      obtain ⟨⟨shape, held⟩, awaits, holds, copies⟩ := good
      exact ⟨⟨agree.shape shape, agree.held held⟩, awaits,
        agree.holds (covers_of_held held) holds, copies⟩
  | closed q =>
      rw [stage] at good
      obtain ⟨⟨shape, held⟩, holds⟩ := good
      exact ⟨⟨agree.shape shape, agree.held held⟩, agree.holds (covers_of_held held) holds⟩
  | unlocking q patchMap =>
      rw [stage] at good
      obtain ⟨⟨shape, held⟩, keys, due⟩ := good
      refine ⟨⟨agree.shape shape, agree.held held⟩, keys, agree.due shape ?_ due⟩
      rw [keys]
      exact covers_of_held held
  | returned q =>
      rw [stage] at good
      obtain ⟨shape, where'⟩ := good
      refine ⟨agree.shape shape, ?_⟩
      rcases where' with ⟨left, stuck⟩ | finished |
        ⟨name, rest, parked, within, due, addr, at', call⟩
      · exact .inl ⟨left, (agree.phase.covered (by simp [stuck])).trans stuck⟩
      · exact .inr (.inl ((agree.phase.covered (by simp [finished])).trans finished))
      · refine .inr (.inr ⟨name, rest, agree.patching.trans parked, within, ?_, addr, at', ?_⟩)
        · exact agree.due shape (fun n member =>
            covers_of_parked sound parked n (List.mem_cons_of_mem _ member)) due
        · rw [agree.call]
          have first : ∀ change : Option (Diff K V), ∀ n ∈ [(name, change)].map Prod.fst,
              s.mgr.Covers rid n := by
            intro change n member
            exact covers_of_parked sound parked n (by simpa using Or.inl (by simpa using member))
          rcases call with ⟨diff, sent, owed⟩ | ⟨ok, answered, paid⟩
          · exact .inl ⟨diff, sent, agree.due shape (first _) owed⟩
          · exact .inr ⟨ok, answered, agree.due shape (first _) paid⟩
  | raised names =>
      rw [stage] at good
      exact agree.held good
  | broken q =>
      rw [stage] at good
      exact ⟨agree.shape good.1, agree.held good.2⟩

end Net

end System

end WindLtask
