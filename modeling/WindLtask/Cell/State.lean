import WindLtask.Data.DiffLaws

/-!
# State cells

The requests `patch` and `query` of `service/state_cell.lua` on the cell's own
variables `t`, `version` and `patches`.  A table is a value here, as it is for
the workers, which see copies of it only; the cell whose stored patches share
sub-tables with its state is the subject of another module.
-/

namespace WindLtask

variable {K V : Type} [DecidableEq K]

/-- The variables of a cell that `patch` and `query` use. -/
structure Cell (K V : Type) where
  t : Table K V
  version : Nat
  patches : List (Diff K V)

/-- What `S.query` returns. -/
structure Answer (K V : Type) where
  version : Nat
  state : Option (Table K V)
  patches : Option (List (Diff K V))

/-- What a cell reads of `conf.persistence` and of its first table. -/
structure Persistence (Name K V : Type) where
  /-- the name matches `(%w+)@(.+)` and its collection is configured -/
  stored : Name → Bool
  /-- the key `_id` -/
  idKey : K
  /-- the value passes `assert` -/
  truthy : Value K V → Bool

namespace Cell

/-- The cell once its chunk has run: a persistent state must have an `_id`, which is taken out. -/
def start {Name : Type} (conf : Persistence Name K V) (id : Name) (t : Table K V) :
    Option (Cell K V) :=
  if conf.stored id then
    if (t.get conf.idKey).any conf.truthy then some ⟨t.erase conf.idKey, 0, []⟩ else none
  else some ⟨t, 0, []⟩

/--
`S.patch(diff)` up to its database call, and whether `ltdiff.patch` returned.  Where
it raises, the version has moved already; the table is then left as it was here.
-/
def patch (cell : Cell K V) (diff : Diff K V) : Cell K V × Bool :=
  let stored := { cell with version := cell.version + 1, patches := cell.patches ++ [diff] }
  match tablePatch diff cell.t with
  | some t => ({ stored with t := t }, true)
  | none => (stored, false)

/-- `S.query(v)`. -/
def query (cell : Cell K V) (v : Option Nat) : Answer K V :=
  let v := v.getD 0
  if v = 0 then ⟨cell.version, some cell.t, none⟩
  else if v = cell.version then ⟨cell.version, none, none⟩
  else if (cell.patches[v]?).isSome then ⟨cell.version, none, some (cell.patches.drop v)⟩
  else ⟨cell.version, some cell.t, none⟩

omit [DecidableEq K] in
/-- Every answer carries the version of the cell. -/
theorem query_version (cell : Cell K V) (v : Option Nat) :
    (cell.query v).version = cell.version := by
  simp only [query]
  split_ifs <;> rfl

end Cell

/-! ## Replaying patches -/

/-- Apply patches one after the other, as `update_state` does; `none` when one raises. -/
def replay (t : Table K V) (patches : List (Diff K V)) : Option (Table K V) :=
  patches.foldlM (fun t diff => tablePatch diff t) t

@[simp] theorem replay_nil (t : Table K V) : replay t [] = some t := rfl

theorem replay_cons (t : Table K V) (diff : Diff K V) (rest : List (Diff K V)) :
    replay t (diff :: rest) = (tablePatch diff t).bind fun t => replay t rest := rfl

theorem replay_append (t : Table K V) (first rest : List (Diff K V)) :
    replay t (first ++ rest) = (replay t first).bind fun t => replay t rest := by
  simp [replay, List.foldlM_append, Option.bind_eq_bind]

theorem replay_snoc (t : Table K V) (first : List (Diff K V)) (diff : Diff K V) :
    replay t (first ++ [diff]) = (replay t first).bind fun t => tablePatch diff t := by
  rw [replay_append]
  simp [replay_cons]

/-- Replaying on a structurally equal table succeeds as well, with an equal result. -/
theorem replay_same {left right final : Table K V} (patches : List (Diff K V))
    (same : left.Same right) (done : replay left patches = some final) :
    ∃ other, replay right patches = some other ∧ final.Same other := by
  induction patches generalizing left right with
  | nil => exact ⟨right, rfl, by simpa using (Option.some.inj done) ▸ same⟩
  | cons diff rest ih =>
      rw [replay_cons] at done
      obtain ⟨patched, step, later⟩ := Option.bind_eq_some_iff.mp done
      obtain ⟨other, stepOther, sameOther⟩ := tablePatch_same same step
      obtain ⟨last, done', sameLast⟩ := ih sameOther later
      exact ⟨last, by rw [replay_cons, stepOther]; exact done', sameLast⟩

/-! ## The cell against its history -/

namespace Cell

/-- The cell has applied its stored patches, one version each, to the state it began with. -/
structure Grown (initial : Table K V) (cell : Cell K V) : Prop where
  version : cell.version = cell.patches.length
  value : replay initial cell.patches = some cell.t

theorem Grown.start {Name : Type} {conf : Persistence Name K V} {id : Name} {t : Table K V}
    {cell : Cell K V} (begun : start conf id t = some cell) :
    Grown cell.t cell ∧ cell.patches = [] := by
  simp only [Cell.start] at begun
  split at begun
  · split at begun
    · cases begun
      exact ⟨⟨rfl, rfl⟩, rfl⟩
    · cases begun
  · cases begun
    exact ⟨⟨rfl, rfl⟩, rfl⟩

/-- A patch that its table takes keeps the cell in step with its history. -/
theorem Grown.patch {initial t : Table K V} {cell : Cell K V} (grown : Grown initial cell)
    {diff : Diff K V} (taken : tablePatch diff cell.t = some t) :
    Grown initial (cell.patch diff).1 ∧ (cell.patch diff).1.patches = cell.patches ++ [diff] := by
  have after : cell.patch diff = (⟨t, cell.version + 1, cell.patches ++ [diff]⟩, true) := by
    simp [Cell.patch, taken]
  rw [after]
  refine ⟨⟨by simp [grown.version], ?_⟩, rfl⟩
  rw [replay_snoc, grown.value]
  exact taken

end Cell

end WindLtask
