import Mathlib.Data.List.AList
import WindLtask.Cell.State
import WindLtask.Lib.Pointers

/-!
# A cell whose tables are references

`S.patch` and `S.query` of `service/state_cell.lua` once more, on a memory of
tables.  A message that arrives is unpacked into new tables; `table_patch`
changes the tables of `t` in place and puts the sub-tables of `diff.mod` into
them, while the list `patches` keeps the same difference; a message that leaves
is packed from what the tables hold then.
-/

set_option linter.unusedSectionVars false

namespace WindLtask

variable {K V : Type} [DecidableEq K]

/-- The fields of a table. -/
abbrev Fields (K V : Type) : Type := AList fun _ : K => Lib.Slot Nat V

/-- The tables of a service, and the place of the next one. -/
structure Heap (K V : Type) where
  tables : Nat → Fields K V
  free : Nat

/-- A difference as the cell keeps it: the values of `mod` are scalars or references. -/
inductive Stored (K V : Type) where
  | flat (del : List K) (mod : Fields K V)
  | sub (key : K) (inner rest : Stored K V)

/-- `next(diff) == nil`. -/
def Stored.isEmpty : Stored K V → Bool
  | .flat del mod => del.isEmpty && mod.entries.isEmpty
  | .sub _ _ _ => false

namespace Heap

/-- The Lua read `a[k]`. -/
def get (h : Heap K V) : Lib.Memory Nat K V := fun a k => (h.tables a).lookup k

/-- The table `a` with other fields. -/
def write (h : Heap K V) (a : Nat) (fields : Fields K V) : Heap K V :=
  { h with tables := Function.update h.tables a fields }

/-- A new table. -/
def new (h : Heap K V) (fields : Fields K V) : Heap K V × Nat :=
  (⟨Function.update h.tables h.free fields, h.free + 1⟩, h.free)

/-! ## Messages -/

/-- The fields of a table that `ltask.unpack` reads. -/
def unpack : Table K V → Heap K V → Heap K V × Fields K V
  | .empty, h => (h, ∅)
  | .scalar key value rest, h =>
      let (h, fields) := unpack rest h
      (h, fields.insert key (.scalar value))
  | .table key sub rest, h =>
      let (h, fields) := unpack rest h
      let (h, below) := unpack sub h
      let (h, b) := h.new below
      (h, fields.insert key (.ref b))

/-- A difference that `ltask.unpack` reads. -/
def unpackDiff : Diff K V → Heap K V → Heap K V × Stored K V
  | .flat del mod, h =>
      let (h, fields) := unpack mod h
      (h, .flat del fields)
  | .sub key inner rest, h =>
      let (h, inner) := unpackDiff inner h
      let (h, rest) := unpackDiff rest h
      (h, .sub key inner rest)

/-- A table that `ltask.unpack` reads. -/
def unpackTable (t : Table K V) (h : Heap K V) : Heap K V × Nat :=
  let (h, fields) := unpack t h
  h.new fields

/-- A list of differences that `ltask.unpack` reads. -/
def unpackAll : List (Diff K V) → Heap K V → Heap K V × List (Stored K V)
  | [], h => (h, [])
  | diff :: rest, h =>
      let (h, stored) := unpackDiff diff h
      let (h, list) := unpackAll rest h
      (h, stored :: list)

/-- Pack fields, given what packs the table at a location. -/
def packFields (pack : Nat → Option (Table K V)) :
    List (Sigma fun _ : K => Lib.Slot Nat V) → Option (Table K V)
  | [] => some .empty
  | ⟨key, .scalar value⟩ :: rest => (packFields pack rest).map (.scalar key value)
  | ⟨key, .ref b⟩ :: rest =>
      (pack b).bind fun sub => (packFields pack rest).map (.table key sub)

/-- The table `a` in a message; `none` when the fuel runs out. -/
def pack (h : Heap K V) : Nat → Nat → Option (Table K V)
  | 0, _ => none
  | fuel + 1, a => packFields (h.pack fuel) (h.tables a).entries

/-- A stored difference in a message. -/
def packDiff (h : Heap K V) (fuel : Nat) : Stored K V → Option (Diff K V)
  | .flat del mod => (packFields (h.pack fuel) mod.entries).map (.flat del)
  | .sub key inner rest =>
      (h.packDiff fuel inner).bind fun inner => (h.packDiff fuel rest).map (.sub key inner)

/-! ## `table_patch` in place -/

/-- The loop `for k,v in pairs(diff.del) do A[v] = nil end`. -/
def eraseAll (del : List K) (fields : Fields K V) : Fields K V :=
  del.foldl (fun fields key => fields.erase key) fields

/-- The loop `for k,v in pairs(diff.mod) do A[k] = v end`. -/
def assignAll (mod : List (Sigma fun _ : K => Lib.Slot Nat V)) (fields : Fields K V) :
    Fields K V :=
  mod.foldl (fun fields entry => fields.insert entry.1 entry.2) fields

/-- `table_patch(A, diff)` on the table `a`, and whether it returns. -/
def tablePatch : Stored K V → Nat → Heap K V → Heap K V × Bool
  | .flat del mod, a, h =>
      (h.write a (assignAll mod.entries (eraseAll del (h.tables a))), true)
  | .sub key inner rest, a, h =>
      match h.get a key with
      | some (.ref b) =>
          let (h, returned) := tablePatch inner b h
          if returned then
            tablePatch rest a (h.write a ((h.tables a).insert key (.ref b)))
          else (h, false)
      -- indexing a scalar or `nil` raises unless `inner` has nothing to do
      | _ => if inner.isEmpty then tablePatch rest a h else (h, false)

end Heap

/-! ## The cell -/

/-- The variables of a cell; the last field is history, the differences as they came. -/
structure SharedCell (K V : Type) where
  heap : Heap K V
  t : Nat
  version : Nat
  patches : List (Stored K V)
  committed : List (Diff K V)

namespace SharedCell

/-- A cell that begins with a table. -/
def start (t : Table K V) : SharedCell K V :=
  let (h, fields) := Heap.unpack t ⟨fun _ => ∅, 0⟩
  let (h, a) := h.new fields
  ⟨h, a, 0, [], []⟩

/-- `S.patch(diff)` up to its database call. -/
def patch (s : SharedCell K V) (diff : Diff K V) : SharedCell K V :=
  let (h, stored) := Heap.unpackDiff diff s.heap
  let (h, _) := Heap.tablePatch stored s.t h
  { s with
    heap := h
    version := s.version + 1
    patches := s.patches ++ [stored]
    committed := s.committed ++ [diff] }

/-- `S.query(v)`; `none` when the fuel runs out. -/
def query (s : SharedCell K V) (fuel : Nat) (v : Option Nat) : Option (Answer K V) :=
  let v := v.getD 0
  if v = 0 then (s.heap.pack fuel s.t).map fun t => ⟨s.version, some t, none⟩
  else if v = s.version then some ⟨s.version, none, none⟩
  else if (s.patches[v]?).isSome then
    ((s.patches.drop v).mapM (s.heap.packDiff fuel)).map fun list => ⟨s.version, none, some list⟩
  else (s.heap.pack fuel s.t).map fun t => ⟨s.version, some t, none⟩

end SharedCell

end WindLtask
