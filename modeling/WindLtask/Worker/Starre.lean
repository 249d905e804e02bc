import WindLtask.Cell.State

/-!
# Queries of a worker

The library `lualib/starre.lua` as one worker runs it: the two caches, the loop
of `starre.query` from its lock reply to its results, and the function that
`__close` forks.  A lock reply is the list that `querystates` built, holes
included; the loop walks it with `ipairs` and takes `#addrs`, which Lua lets be
any border of a list with holes, as the place of the table that closes.
-/

set_option linter.unusedSectionVars false

namespace WindLtask

/-- The tables `state_map` and `state_version` of one worker. -/
structure Cache (Name K V : Type) where
  stateMap : Name → Option (Table K V)
  stateVersion : Name → Option Nat

variable {Name Addr K V : Type} [DecidableEq Name] [DecidableEq K] [DecidableEq V]

/-- The caches of a worker that has just started. -/
def Cache.empty : Cache Name K V where
  stateMap := fun _ => none
  stateVersion := fun _ => none

/--
`update_state(name, version, state, patches)`: the caches after it, and the table
it returns.  Where it raises it has stored the version already.
-/
def updateState (cache : Cache Name K V) (name : Name) (answer : Answer K V) :
    Cache Name K V × Option (Table K V) :=
  if cache.stateVersion name = some answer.version then (cache, cache.stateMap name)
  else
    let bumped := { cache with
      stateVersion := Function.update cache.stateVersion name (some answer.version) }
    match answer.state with
    | some state =>
        ({ bumped with stateMap := Function.update cache.stateMap name (some state) }, some state)
    | none =>
        match cache.stateMap name, answer.patches with
        | some s, some patches =>
            match replay s patches with
            | some s => ({ bumped with stateMap := Function.update cache.stateMap name (some s) },
                some s)
            | none => (bumped, none)
        | _, _ => (bumped, none)

/-- The local variables of `starre.query` while its loop runs. -/
structure Query (Name Addr K V : Type) where
  names : List Name
  /-- the lock reply -/
  addrs : List (Option Addr)
  /-- the value of `#addrs` -/
  border : Nat
  oldList : List (Table K V)
  newList : List (Table K V)

namespace Query

/-- The values that `#` can have on a list with holes. -/
def IsBorder (addrs : List (Option Addr)) (n : Nat) : Prop :=
  (n = 0 ∨ ∃ addr, addrs[n - 1]? = some (some addr)) ∧ ∀ addr, addrs[n]? ≠ some (some addr)

/-- `starre.query(...)` once the lock reply has arrived. -/
def start (names : List Name) (addrs : List (Option Addr)) (border : Nat) :
    Query Name Addr K V where
  names := names
  addrs := addrs
  border := border
  oldList := []
  newList := []

/-- The cell that the loop calls next; `ipairs` stops at the first hole. -/
def awaits (q : Query Name Addr K V) : Option (Name × Addr) :=
  match q.names[q.oldList.length]?, q.addrs[q.oldList.length]? with
  | some name, some (some addr) => some (name, addr)
  | _, _ => none

/-- The loop body after the answer of the cell; `none` when it raises. -/
def receive (q : Query Name Addr K V) (cache : Cache Name K V) (name : Name)
    (answer : Answer K V) : Cache Name K V × Option (Query Name Addr K V) :=
  let (cache, old) := updateState cache name answer
  (cache, old.map fun old =>
    { q with oldList := q.oldList ++ [old], newList := q.newList ++ [old.clone] })

/-- The index of a result that carries the close function of this query. -/
def closes (q : Query Name Addr K V) (i : Nat) : Prop :=
  i < q.newList.length ∧ ¬ i + 1 < q.border

/-- The caches once the change of `name` to the table `new` is counted. -/
def commit (cache : Cache Name K V) (name : Name) (change : Option (Diff K V))
    (new : Table K V) : Cache Name K V :=
  match change with
  | none => cache
  | some _ =>
      { stateVersion :=
          Function.update cache.stateVersion name ((cache.stateVersion name).map (· + 1))
        stateMap := Function.update cache.stateMap name (some new) }

/-- The forked loop of `__close` over the names from index `i` on: the caches and `patch_map`. -/
def closeLoop (cache : Cache Name K V) : List Name → List (Table K V) → List (Table K V) →
    Cache Name K V × Option (List (Name × Option (Diff K V)))
  | [], _, _ => (cache, some [])
  | name :: names, old :: olds, new :: news =>
      let diff := ltdiff old new
      let (cache, rest) := closeLoop (commit cache name diff new) names olds news
      -- a later index with the same name overwrites the entry
      (cache, rest.map fun rest =>
        if rest.any fun entry => entry.1 = name then rest else (name, diff) :: rest)
  -- `ltdiff.diff(nil, nil)` raises
  | _ :: _, _, _ => (cache, none)

/-- The function that `__close` forks, on the tables as the handler left them. -/
def close (q : Query Name Addr K V) (cache : Cache Name K V) :
    Cache Name K V × Option (List (Name × Option (Diff K V))) :=
  closeLoop cache q.names q.oldList q.newList

end Query

end WindLtask
