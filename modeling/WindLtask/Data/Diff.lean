import WindLtask.Data.Table
import WindLtask.Lib.KeyedLoop

/-!
# Differences of tables

`tableDiff` and `tablePatch` are the two functions of `lualib/ltdiff.lua`.  A
difference is the Lua table `{sub = .., del = .., mod = ..}`: the entries of
`sub` form a chain that ends in the pair of `del` and `mod`, and an empty chain
end stands for fields that were set to `nil` because they were empty.
-/

namespace WindLtask

/-- A difference: its `sub` entries, then its `del` list and its `mod` table. -/
inductive Diff (K V : Type) where
  | flat (del : List K) (mod : Table K V)
  | sub (key : K) (inner rest : Diff K V)
  deriving DecidableEq, Repr

namespace Diff

variable {K V : Type}

/-- `next(diff) == nil`. -/
def isEmpty : Diff K V → Bool
  | .flat del mod => del.isEmpty && mod.isEmpty
  | .sub _ _ _ => false

/-- The difference with the given `sub` entries, `del` list and `mod` table. -/
def ofParts (del : List K) (mod : Table K V) : List (K × Diff K V) → Diff K V
  | [] => .flat del mod
  | (key, inner) :: rest => .sub key inner (ofParts del mod rest)

end Diff

/-! ## `table_patch` -/

section Patch

variable {K V : Type} [DecidableEq K]

/-- The loop `for k,v in pairs(diff.del) do A[v] = nil end`. -/
def eraseAll (del : List K) (t : Table K V) : Table K V :=
  del.foldl Table.erase t

/-- The loop `for k,v in pairs(diff.mod) do A[k] = v end`. -/
def assignAll (mod t : Table K V) : Table K V :=
  mod.pairs.foldl (fun t entry => t.set entry.1 entry.2) t

/-- `table_patch(A, diff)` on a table `A`; `none` when the call raises. -/
def tablePatch : Diff K V → Table K V → Option (Table K V)
  | .flat del mod, t => some (assignAll mod (eraseAll del t))
  | .sub key inner rest, t =>
      match t.get key with
      | some (.table sub) =>
          (tablePatch inner sub).bind fun patched => tablePatch rest (t.set key (.table patched))
      -- indexing a scalar or `nil` raises unless `inner` has nothing to do
      | some (.scalar _) => if inner.isEmpty then tablePatch rest t else none
      | none => if inner.isEmpty then tablePatch rest t else none

end Patch

/-! ## `table_diff` -/

/-- The local variable `diff` of `table_diff` while its two loops run. -/
structure Building (K V : Type) where
  del : List K
  mod : Table K V
  sub : List (K × Diff K V)

namespace Building

variable {K V : Type} [DecidableEq K]

/-- The Lua read `diff.sub[k]`. -/
def getSub (diff : Building K V) (key : K) : Option (Diff K V) :=
  (diff.sub.find? (fun entry => entry.1 = key)).map Prod.snd

/-- `diff.sub[k] = inner`, undone when `next(diff.sub[k]) == nil`. -/
def putSub (diff : Building K V) (key : K) (inner : Diff K V) : Building K V :=
  let others := diff.sub.filter (fun entry => entry.1 ≠ key)
  { diff with sub := if inner.isEmpty then others else (key, inner) :: others }

/-- The value `table_diff` returns: empty parts are set to `nil`. -/
def finish (diff : Building K V) : Diff K V :=
  Diff.ofParts diff.del diff.mod diff.sub

end Building

section Difference

variable {K V : Type} [DecidableEq K] [DecidableEq V]

/-- The Lua comparison `x ~= y` of two values that are not both tables. -/
def Value.differs : Value K V → Value K V → Bool
  | .scalar left, .scalar right => left ≠ right
  | _, _ => true

/-- The body of `for k,v in pairs(A)` in `table_diff`. -/
def scanOld (recur : Table K V → Table K V → Diff K V) (new : Table K V)
    (diff : Building K V) (entry : K × Value K V) : Building K V :=
  match entry.2, new.get entry.1 with
  | .table a, some (.table b) => diff.putSub entry.1 (recur a b)
  | _, none => { diff with del := diff.del ++ [entry.1] }
  | v, some w => if w.differs v then { diff with mod := diff.mod.set entry.1 w } else diff

/-- The body of `for k,v in pairs(B)` in `table_diff`. -/
def scanNew (recur : Table K V → Table K V → Diff K V) (old : Table K V)
    (diff : Building K V) (entry : K × Value K V) : Building K V :=
  if (diff.getSub entry.1).isSome then diff
  else
    match old.get entry.1, entry.2 with
    | some (.table a), .table b => diff.putSub entry.1 (recur b a)
    | none, v => { diff with mod := diff.mod.set entry.1 v }
    | some w, v => if v.differs w then { diff with mod := diff.mod.set entry.1 v } else diff

/-- `table_diff(A, B)`; the fuel bounds the depth of the recursion. -/
def tableDiff : Nat → Table K V → Table K V → Diff K V
  | 0, _, _ => .flat [] .empty
  | fuel + 1, old, new =>
      let diff := old.pairs.foldl (scanOld (tableDiff fuel) new) ⟨[], .empty, []⟩
      let diff := new.pairs.foldl (scanNew (tableDiff fuel) old) diff
      diff.finish

/-- `ltdiff.diff(A, B)`: the difference, or `nil` when there is none. -/
def ltdiff (old new : Table K V) : Option (Diff K V) :=
  let diff := tableDiff (old.depth + 1) old new
  if diff.isEmpty then none else some diff

end Difference

end WindLtask
