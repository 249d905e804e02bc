import WindLtask.Manager.Grants

/-!
# Workers, cells and the manager

The whole of `starre`: any number of workers with their caches, the coroutines
that run `starre.query` in them, the cells, the manager and the messages between
them.  A coroutine has one message under way at a time, so its stage says which;
messages may overtake each other, which allows every order that `ltask` delivers.

The last fields are history: which state a cell was created for, which closed
queries changed which cells, from which cell a worker has its cached table, and
what every read returned.
-/

namespace WindLtask.System

open Manager

/-- Where a call of `starre.query` stands. -/
inductive Stage (Name Addr K V : Type) where
  | idle
  /-- the lock request is under way -/
  | asking (names : List Name)
  /-- the manager has the request; its reply may be under way -/
  | locking (names : List Name)
  /-- the query message to a cell is under way -/
  | calling (q : Query Name Addr K V) (name : Name) (addr : Addr) (v : Option Nat)
  /-- the answer of the cell is under way -/
  | answered (q : Query Name Addr K V) (name : Name) (addr : Addr) (answer : Answer K V)
  /-- the handler has the tables -/
  | running (q : Query Name Addr K V)
  /-- `__close` has run, the function that it forks has not -/
  | closed (q : Query Name Addr K V)
  /-- the unlock message is under way -/
  | unlocking (q : Query Name Addr K V) (patchMap : List (Name × Option (Diff K V)))
  /-- the manager has the unlock message -/
  | returned (q : Query Name Addr K V)
  /-- the coroutine ended with an error after its request was granted -/
  | raised (names : List Name)
  /-- the forked function ended with an error -/
  | broken (q : Query Name Addr K V)

/-- The `patch` call of an `unlock`. -/
inductive PatchCall (Addr K V : Type) where
  | idle
  | sent (addr : Addr) (diff : Diff K V)
  /-- the cell has answered; `ok` is false for an error -/
  | answered (ok : Bool)

/-- One table of a closed query: what `starre.query` returned and what the handler left. -/
structure Entry (Name Addr K V : Type) where
  name : Name
  addr : Addr
  returned : Table K V
  left : Table K V
  change : Option (Diff K V)

/-- A closed query. -/
structure Closed (Name Addr Rid K V : Type) where
  rid : Rid
  entries : List (Entry Name Addr K V)

/-- One table that a query got from a cell. -/
structure Read (Name Addr Rid K V : Type) where
  rid : Rid
  name : Name
  addr : Addr
  /-- the table that `starre.query` returns -/
  table : Table K V
  /-- what the cell of the name holds at that moment, unless it is released or has quit -/
  held : Option (Table K V)

/-- The state of all services. -/
structure Net (Name Addr Rid Wid K V : Type) where
  mgr : World Name Addr Rid (Diff K V)
  /-- the `newstate` calls inside `ltask.spawn` -/
  creating : Rid → Option (Name × Table K V)
  cells : Addr → Option (Cell K V)
  /-- the cells to which `exit` is under way -/
  leaving : Addr → Bool
  caches : Wid → Cache Name K V
  worker : Rid → Wid
  stage : Rid → Stage Name Addr K V
  patchCall : Rid → PatchCall Addr K V
  born : Addr → Option (Name × Table K V)
  closed : List (Closed Name Addr Rid K V)
  source : Wid → Name → Option Addr
  reads : List (Read Name Addr Rid K V)

/-- What happens next. -/
inductive Label (Name Addr Rid Wid K V : Type) where
  | begin (rid : Rid) (wid : Wid) (names : List Name)
  | lock (rid : Rid) (names : List Name)
  /-- the lock reply arrives; `border` is the value of `#addrs` -/
  | granted (rid : Rid) (list : List (Option Addr)) (border : Nat)
  | answer (rid : Rid)
  /-- the called cell is gone, so the call raises -/
  | refuse (rid : Rid)
  | receive (rid : Rid)
  /-- the handler raises -/
  | raise (rid : Rid)
  /-- the scope ends; the handler has left these tables -/
  | close (rid : Rid) (tables : List (Table K V))
  | fork (rid : Rid)
  /-- the manager gets the unlock message, whose entries `pairs` visits in this order -/
  | unlock (rid : Rid) (entries : List (Name × Option (Diff K V)))
  | patch (rid : Rid)
  /-- the reply of the `patch` call; the database call of the cell may have failed -/
  | patched (rid : Rid)
  | patchFailed (rid : Rid)
  | newstate (rid : Rid) (name : Name) (t : Table K V)
  | spawned (rid : Rid) (addr : Addr)
  | spawnFailed (rid : Rid)
  | releasestate (name : Name)
  | exit (addr : Addr)

variable {Name Addr Rid Wid K V : Type} [DecidableEq Name] [DecidableEq Addr] [DecidableEq Rid]
  [DecidableEq Wid] [DecidableEq K] [DecidableEq V]

/-- The query that a stage carries. -/
def Stage.query : Stage Name Addr K V → Option (Query Name Addr K V)
  | .calling q _ _ _ | .answered q _ _ _ | .running q | .closed q | .unlocking q _ | .returned q
  | .broken q => some q
  | _ => none

/-- `__close` has run. -/
def Stage.past : Stage Name Addr K V → Prop
  | .closed _ | .unlocking _ _ | .returned _ | .broken _ => True
  | _ => False

/-- The message that the manager gets by a label. -/
def Label.event : Label Name Addr Rid Wid K V → Option (Event Name Addr Rid (Table K V) (Diff K V))
  | .lock rid names => some (.lock rid names)
  | .unlock rid entries => some (.unlock rid entries)
  | .patched rid => some (.patched rid)
  | .patchFailed rid => some (.patchFailed rid)
  | .newstate rid name t => some (.newstate rid name t)
  | .spawned rid addr => some (.spawned rid addr)
  | .spawnFailed rid => some (.spawnFailed rid)
  | .releasestate name => some (.releasestate name)
  | _ => none

namespace Net

/-- The start: no state, no query, empty caches. -/
def init [Inhabited Wid] : Net Name Addr Rid Wid K V where
  mgr := .init
  creating := fun _ => none
  cells := fun _ => none
  leaving := fun _ => false
  caches := fun _ => .empty
  worker := fun _ => default
  stage := fun _ => .idle
  patchCall := fun _ => .idle
  born := fun _ => none
  closed := []
  source := fun _ _ => none
  reads := []

/-- Put a message of the manager on its way; replies stand in the manager's own history. -/
def post (s : Net Name Addr Rid Wid K V) :
    Out Name Addr Rid (Table K V) (Diff K V) → Net Name Addr Rid Wid K V
  | .spawn rid name t => { s with creating := Function.update s.creating rid (some (name, t)) }
  | .exit addr => { s with leaving := Function.update s.leaving addr true }
  | .patch rid addr diff =>
      { s with patchCall := Function.update s.patchCall rid (.sent addr diff) }
  | _ => s

/-- The manager handles a message. -/
def deliver (s : Net Name Addr Rid Wid K V) (event : Event Name Addr Rid (Table K V) (Diff K V)) :
    Net Name Addr Rid Wid K V :=
  (s.mgr.proc.handle event).2.foldl post { s with mgr := s.mgr.next event }

/-- Move the coroutine of `rid`. -/
def moveTo (s : Net Name Addr Rid Wid K V) (rid : Rid) (stage : Stage Name Addr K V) :
    Net Name Addr Rid Wid K V :=
  { s with stage := Function.update s.stage rid stage }

/-- The caches of the worker that runs `rid`. -/
def cache (s : Net Name Addr Rid Wid K V) (rid : Rid) : Cache Name K V :=
  s.caches (s.worker rid)

/-- The loop of `starre.query` up to its next call, or its return. -/
def proceed (cache : Cache Name K V) (q : Query Name Addr K V) : Stage Name Addr K V :=
  match q.awaits with
  | some (name, addr) => .calling q name addr (cache.stateVersion name)
  | none => .running q

/-- The history of one closed query: its entries, with the tables as the handler left them. -/
def entries (q : Query Name Addr K V) (tables : List (Table K V)) :
    List (Entry Name Addr K V) :=
  ((q.names.zip q.addrs).zip (q.newList.zip (q.oldList.zip tables))).filterMap
    fun ((name, addr), returned, old, left) =>
      addr.map fun addr => ⟨name, addr, returned, left, ltdiff old left⟩

/-- The loop body of `starre.query` on the answer of a cell. -/
def receive (s : Net Name Addr Rid Wid K V) (rid : Rid) (q : Query Name Addr K V) (name : Name)
    (addr : Addr) (answer : Answer K V) : Net Name Addr Rid Wid K V :=
  let wid := s.worker rid
  let done := q.receive (s.cache rid) name answer
  let source :=
    if (s.cache rid).stateVersion name = some answer.version then s.source
    else Function.update s.source wid (Function.update (s.source wid) name (some addr))
  let s := { s with caches := Function.update s.caches wid done.1, source := source }
  match done.2 with
  | some q' =>
      { s.moveTo rid (proceed done.1 q') with
        reads := s.reads ++ (q'.newList.getLast?.map fun table =>
          ⟨rid, name, addr, table,
            ((s.mgr.proc.state name).bind s.cells).map Cell.t⟩).toList }
  | none => s.moveTo rid (.raised q.names)

/-- The effect of a label. -/
def next (conf : Persistence Name K V) (s : Net Name Addr Rid Wid K V) :
    Label Name Addr Rid Wid K V → Net Name Addr Rid Wid K V
  | .begin rid wid names =>
      { s.moveTo rid (.asking names) with worker := Function.update s.worker rid wid }
  | .lock rid names => (s.deliver (.lock rid names)).moveTo rid (.locking names)
  | .granted rid list border =>
      match s.stage rid with
      | .locking names => s.moveTo rid (proceed (s.cache rid) (.start names list border))
      | _ => s
  | .answer rid =>
      match s.stage rid with
      | .calling q name addr v =>
          match s.cells addr with
          | some cell => s.moveTo rid (.answered q name addr (cell.query v))
          | none => s
      | _ => s
  | .refuse rid =>
      match s.stage rid with
      | .calling q _ _ _ => s.moveTo rid (.raised q.names)
      | _ => s
  | .receive rid =>
      match s.stage rid with
      | .answered q name addr answer => s.receive rid q name addr answer
      | _ => s
  | .raise rid =>
      match s.stage rid with
      | .running q => s.moveTo rid (.raised q.names)
      | _ => s
  | .close rid tables =>
      match s.stage rid with
      | .running q =>
          { s.moveTo rid (.closed { q with newList := tables }) with
            closed := s.closed ++ [⟨rid, entries q tables⟩] }
      | _ => s
  | .fork rid =>
      match s.stage rid with
      | .closed q =>
          let done := q.close (s.cache rid)
          let s := { s with caches := Function.update s.caches (s.worker rid) done.1 }
          match done.2 with
          | some patchMap => s.moveTo rid (.unlocking q patchMap)
          | none => s.moveTo rid (.broken q)
      | _ => s
  | .unlock rid entries =>
      match s.stage rid with
      | .unlocking q _ => (s.deliver (.unlock rid entries)).moveTo rid (.returned q)
      | _ => s
  | .patch rid =>
      match s.patchCall rid with
      | .sent addr diff =>
          match s.cells addr with
          | some cell =>
              { s with
                cells := Function.update s.cells addr (some (cell.patch diff).1)
                patchCall := Function.update s.patchCall rid (.answered (cell.patch diff).2) }
          | none => { s with patchCall := Function.update s.patchCall rid (.answered false) }
      | _ => s
  | .patched rid =>
      deliver { s with patchCall := Function.update s.patchCall rid .idle } (.patched rid)
  | .patchFailed rid =>
      deliver { s with patchCall := Function.update s.patchCall rid .idle } (.patchFailed rid)
  | .newstate rid name t => s.deliver (.newstate rid name t)
  | .spawned rid addr =>
      match (s.creating rid).bind fun asked => (Cell.start conf asked.1 asked.2).map fun cell =>
          (asked.1, cell) with
      | some (name, cell) =>
          deliver { s with
            creating := Function.update s.creating rid none
            cells := Function.update s.cells addr (some cell)
            born := Function.update s.born addr (some (name, cell.t)) } (.spawned rid addr)
      | none => s
  | .spawnFailed rid =>
      deliver { s with creating := Function.update s.creating rid none } (.spawnFailed rid)
  | .releasestate name => s.deliver (.releasestate name)
  | .exit addr => { s with cells := Function.update s.cells addr none }

/-- What can happen. -/
def Enabled (conf : Persistence Name K V) (s : Net Name Addr Rid Wid K V) :
    Label Name Addr Rid Wid K V → Prop
  | .begin rid _ _ => match s.stage rid with | .idle => True | _ => False
  | .lock rid names => match s.stage rid with | .asking asked => asked = names | _ => False
  | .granted rid list border =>
      match s.stage rid with
      | .locking _ => Query.IsBorder list border ∧
          ∃ reply ∈ s.mgr.replies, reply.rid = rid ∧ reply.list = list
      | _ => False
  | .answer rid =>
      match s.stage rid with | .calling _ _ addr _ => (s.cells addr).isSome | _ => False
  | .refuse rid =>
      match s.stage rid with | .calling _ _ addr _ => s.cells addr = none | _ => False
  | .receive rid => match s.stage rid with | .answered _ _ _ _ => True | _ => False
  | .raise rid => match s.stage rid with | .running _ => True | _ => False
  | .close rid tables =>
      match s.stage rid with
      | .running q => (∃ i, q.closes i) ∧ tables.length = q.newList.length
      | _ => False
  | .fork rid => match s.stage rid with | .closed _ => True | _ => False
  | .unlock rid entries =>
      match s.stage rid with | .unlocking _ patchMap => entries.Perm patchMap | _ => False
  | .patch rid => match s.patchCall rid with | .sent _ _ => True | _ => False
  | .patched rid => s.patchCall rid = .answered true
  | .patchFailed rid => ∃ ok, s.patchCall rid = .answered ok
  | .newstate rid _ _ => s.creating rid = none
  | .spawned rid addr => s.born addr = none ∧
      ∃ name t, s.creating rid = some (name, t) ∧ (Cell.start conf name t).isSome
  | .spawnFailed rid => (s.creating rid).isSome
  | .releasestate _ => True
  | .exit addr => s.leaving addr = true

/-- One step of the services. -/
def Step (conf : Persistence Name K V) (s : Net Name Addr Rid Wid K V)
    (label : Label Name Addr Rid Wid K V) (s' : Net Name Addr Rid Wid K V) : Prop :=
  s.Enabled conf label ∧ s' = s.next conf label

end Net

end WindLtask.System
