import WindLtask.Worker.Starre

/-!
# The store

The cells, the workers and their caches, with a `starre.query` as one step: from
its lock reply to the end of the `unlock` that its scope causes.  The names of the
query are locked all that time, so nobody else comes near their cells or their
cache entries.  A name may stand several times in one query, and each of its
places has a table of its own.
-/

set_option linter.unusedSectionVars false

namespace WindLtask

/-! ## Paths -/

/-- What stands at the end of a path of keys. -/
def Doc.follow {K V : Type} : Doc K V → List K → Option (Doc K V)
  | doc, [] => some doc
  | .scalar _, _ :: _ => none
  | .table entries, key :: path => (entries key).bind fun doc => doc.follow path

/-- What a table has at the end of a path of keys. -/
def Table.follow {K V : Type} [DecidableEq K] (t : Table K V) (path : List K) :
    Option (Doc K V) :=
  (Doc.table t.denote).follow path

theorem Table.Same.follow {K V : Type} [DecidableEq K] {left right : Table K V}
    (same : left.Same right) (path : List K) : left.follow path = right.follow path := by
  rw [Table.follow, Table.follow, same]

variable {Name Addr Wid K V : Type} [DecidableEq Name] [DecidableEq Addr] [DecidableEq Wid]
  [DecidableEq K] [DecidableEq V]

/-! ## The store -/

/-- The services without the messages between them. -/
structure Store (Name Addr Wid K V : Type) where
  /-- the table `state` of the manager -/
  state : Name → Option Addr
  cells : Addr → Option (Cell K V)
  caches : Wid → Cache Name K V
  /-- history: the name that a cell was made for, and the table that it began with -/
  born : Addr → Option (Name × Table K V)
  /-- history: the cell from which a worker has its cached table -/
  source : Wid → Name → Option Addr

/-- What a client of `starre` asks for. -/
inductive Request (Name Addr Wid K V : Type) where
  | newstate (name : Name) (t : Table K V) (addr : Addr)
  | releasestate (name : Name)
  /-- a query whose handler leaves these tables -/
  | query (wid : Wid) (names : List Name) (tables : List (Table K V))

namespace Store

/-- The start: no state, and empty caches. -/
def init : Store Name Addr Wid K V where
  state := fun _ => none
  cells := fun _ => none
  caches := fun _ => .empty
  born := fun _ => none
  source := fun _ _ => none

/-- The cell that the manager has for a name. -/
def cellOf (s : Store Name Addr Wid K V) (name : Name) : Option (Cell K V) :=
  (s.state name).bind s.cells

/-- The loop of `starre.query` with the calls of the cells; `none` when it raises. -/
def fetch (cells : Addr → Option (Cell K V)) : Nat → Cache Name K V → Query Name Addr K V →
    Option (Cache Name K V × Query Name Addr K V)
  | 0, cache, q => some (cache, q)
  | fuel + 1, cache, q =>
      match q.awaits with
      | none => some (cache, q)
      | some (name, addr) =>
          (cells addr).bind fun cell =>
            let (cache, next) := q.receive cache name (cell.query (cache.stateVersion name))
            next.bind (fetch cells fuel cache)

/-- `starre.query(...)` on its lock reply, one round of fuel for each name. -/
def query (s : Store Name Addr Wid K V) (wid : Wid) (names : List Name) :
    Option (Cache Name K V × Query Name Addr K V) :=
  fetch s.cells names.length (s.caches wid) (.start names (names.map s.state) names.length)

/-- The loop of `S.unlock` with the `patch` calls that it makes; `none` when it raises. -/
def unlock (state : Name → Option Addr) : List (Name × Option (Diff K V)) →
    (Addr → Option (Cell K V)) → Option (Addr → Option (Cell K V))
  | [], cells => some cells
  | (_, none) :: rest, cells => unlock state rest cells
  | (name, some patch) :: rest, cells =>
      (state name).bind fun addr => (cells addr).bind fun cell =>
        let (cell, returned) := cell.patch patch
        if returned then unlock state rest (Function.update cells addr (some cell)) else none

/-- One request from its beginning to its end. -/
inductive Step (conf : Persistence Name K V) (s : Store Name Addr Wid K V) :
    Request Name Addr Wid K V → Store Name Addr Wid K V → Prop where
  | newstate (name : Name) (t : Table K V) (addr : Addr) (cell : Cell K V)
      (absent : s.state name = none) (fresh : s.born addr = none)
      (started : Cell.start conf name t = some cell) :
      Step conf s (.newstate name t addr)
        { s with
          state := Function.update s.state name (some addr)
          cells := Function.update s.cells addr (some cell)
          born := Function.update s.born addr (some (name, cell.t)) }
  | released (name : Name) (addr : Addr) (present : s.state name = some addr) :
      Step conf s (.releasestate name)
        { s with
          state := Function.update s.state name none
          cells := Function.update s.cells addr none }
  | missing (name : Name) (absent : s.state name = none) : Step conf s (.releasestate name) s
  /-- `pairs` visits the patch map in the order of `entries` -/
  | query (wid : Wid) (names : List Name) (tables : List (Table K V)) (named : names ≠ [])
      (existing : ∀ name ∈ names, (s.state name).isSome) (left : tables.length = names.length)
      (read : Cache Name K V) (q : Query Name Addr K V)
      (fetched : s.query wid names = some (read, q))
      (cache : Cache Name K V) (patchMap entries : List (Name × Option (Diff K V)))
      (closed : Query.close { q with newList := tables } read = (cache, some patchMap))
      (order : entries.Perm patchMap) (cells : Addr → Option (Cell K V))
      (unlocked : unlock s.state entries s.cells = some cells) :
      Step conf s (.query wid names tables)
        { s with
          cells := cells
          caches := Function.update s.caches wid cache
          source := Function.update s.source wid fun name =>
            if name ∈ names then s.state name else s.source wid name }

/-! ## What a query must achieve -/

/-- The handler changed what one of the tables has at the end of a path. -/
def Changes (q : Query Name Addr K V) (tables : List (Table K V)) (i : Nat) (path : List K) :
    Prop :=
  ∃ returned left, q.newList[i]? = some returned ∧ tables[i]? = some left ∧
    returned.follow path ≠ left.follow path

/--
The worker has the version and the table of the cell of a name, and each change
is in the cell unless another table of the same name changed the same place.
-/
def KeptAt (s' : Store Name Addr Wid K V) (wid : Wid) (names : List Name)
    (tables : List (Table K V)) (q : Query Name Addr K V) (name : Name) : Prop :=
  ∃ cell map, s'.cellOf name = some cell ∧
    (s'.caches wid).stateVersion name = some cell.version ∧
    (s'.caches wid).stateMap name = some map ∧ map.Same cell.t ∧
    ∀ (i : Nat) left path, names[i]? = some name → tables[i]? = some left →
      Changes q tables i path → cell.t.follow path = left.follow path ∨
        ∃ j, j ≠ i ∧ names[j]? = some name ∧ Changes q tables j path

/-- No write of a request is lost. -/
def Kept (s s' : Store Name Addr Wid K V) : Request Name Addr Wid K V → Prop
  | .query wid names tables => ∃ read q, s.query wid names = some (read, q) ∧
      ∀ name ∈ names, s'.KeptAt wid names tables q name
  | _ => True

/-- A table whose name comes again in the query is left as it is in the cell. -/
def OnlyLast (s : Store Name Addr Wid K V) : Request Name Addr Wid K V → Prop
  | .query _ names tables => ∀ (i j : Nat) name cell left, i < j → names[i]? = some name →
      names[j]? = some name → s.cellOf name = some cell → tables[i]? = some left →
      cell.t.Same left
  | _ => True

/--
The version that the worker has for a name is none, or it was got from the present
cell, or the cell cannot take it for one of its own.
-/
def Known (s : Store Name Addr Wid K V) : Request Name Addr Wid K V → Prop
  | .query wid names _ => ∀ name ∈ names, ∀ cell v, s.cellOf name = some cell →
      (s.caches wid).stateVersion name = some v →
      s.source wid name = s.state name ∨ cell.version < v ∨ v = 0 ∧ 0 < cell.version
  | _ => True

end Store

end WindLtask
