import Mathlib.Logic.Function.Basic

/-!
# Lua tables as finite trees

A state is a finite tree of Lua tables whose leaves are scalars.  Keys and
leaves stay type variables with decidable equality, which stands for the raw
Lua comparison `==` of keys and of scalars.  A table lists its assignments, and
an earlier entry hides a later one with the same key, so every value of the
type is a well-formed Lua table and no uniqueness side condition is needed.

The second half gives the tables their meaning: a partial function from keys to
documents.  Two tables are structurally equal by `==` exactly when they denote
the same function.
-/

namespace WindLtask

/-- A Lua table whose entries hold a scalar or a sub-table. -/
inductive Table (K V : Type) where
  | empty : Table K V
  | scalar (key : K) (value : V) (rest : Table K V)
  | table (key : K) (sub rest : Table K V)
  deriving DecidableEq, Repr

/-- What one key of a table refers to. -/
inductive Value (K V : Type) where
  | scalar (value : V)
  | table (sub : Table K V)
  deriving DecidableEq, Repr

namespace Table

variable {K V : Type} [DecidableEq K]

/-- The Lua read `t[k]`. -/
def get : Table K V → K → Option (Value K V)
  | .empty, _ => none
  | .scalar key value rest, k => if k = key then some (.scalar value) else rest.get k
  | .table key sub rest, k => if k = key then some (.table sub) else rest.get k

/-- Put one entry in front of a table. -/
def cons (key : K) : Value K V → Table K V → Table K V
  | .scalar value, rest => .scalar key value rest
  | .table sub, rest => .table key sub rest

/-- The Lua assignment `t[k] = x` for `x` other than `nil`. -/
def set : Table K V → K → Value K V → Table K V
  | .empty, k, x => cons k x .empty
  | .scalar key value rest, k, x =>
      if k = key then cons k x rest else .scalar key value (rest.set k x)
  | .table key sub rest, k, x =>
      if k = key then cons k x rest else .table key sub (rest.set k x)

/-- The Lua assignment `t[k] = nil`. -/
def erase : Table K V → K → Table K V
  | .empty, _ => .empty
  | .scalar key value rest, k =>
      if k = key then rest.erase k else .scalar key value (rest.erase k)
  | .table key sub rest, k =>
      if k = key then rest.erase k else .table key sub (rest.erase k)

/-- The visible entries, in the order in which `pairs(t)` visits them. -/
def pairs : Table K V → List (K × Value K V)
  | .empty => []
  | .scalar key value rest =>
      (key, .scalar value) :: rest.pairs.filter (fun entry => entry.1 ≠ key)
  | .table key sub rest =>
      (key, .table sub) :: rest.pairs.filter (fun entry => entry.1 ≠ key)

/-- `next(t) == nil`. -/
def isEmpty : Table K V → Bool
  | .empty => true
  | _ => false

/-- How deeply tables nest below a table. -/
def depth : Table K V → Nat
  | .empty => 0
  | .scalar _ _ rest => rest.depth
  | .table _ sub rest => max (sub.depth + 1) rest.depth

/-- `table.clone`, which copies the entries last to first. -/
def clone : Table K V → Table K V
  | .empty => .empty
  | .scalar key value rest => rest.clone.set key (.scalar value)
  | .table key sub rest => rest.clone.set key (.table sub.clone)

@[simp] theorem get_cons (key : K) (x : Value K V) (rest : Table K V) (k : K) :
    (cons key x rest).get k = if k = key then some x else rest.get k := by
  cases x <;> rfl

theorem get_set (t : Table K V) (key : K) (x : Value K V) (k : K) :
    (t.set key x).get k = if k = key then some x else t.get k := by
  induction t with
  | empty => simp [set, get]
  | scalar other value rest ih =>
      by_cases same : key = other
      · subst same
        by_cases hk : k = key <;> simp [set, get, hk]
      · by_cases hk : k = other
        · subst hk
          simp [set, get, same, Ne.symm same]
        · simp [set, get, same, hk, ih]
  | table other sub rest _ ih =>
      by_cases same : key = other
      · subst same
        by_cases hk : k = key <;> simp [set, get, hk]
      · by_cases hk : k = other
        · subst hk
          simp [set, get, same, Ne.symm same]
        · simp [set, get, same, hk, ih]

theorem get_erase (t : Table K V) (key k : K) :
    (t.erase key).get k = if k = key then none else t.get k := by
  induction t with
  | empty => simp [erase, get]
  | scalar other value rest ih =>
      by_cases same : key = other
      · subst same
        simp only [erase, if_pos, ih]
        by_cases hk : k = key <;> simp [get, hk]
      · by_cases hk : k = other
        · subst hk
          simp [erase, get, same, Ne.symm same]
        · simp [erase, get, same, hk, ih]
  | table other sub rest _ ih =>
      by_cases same : key = other
      · subst same
        simp only [erase, if_pos, ih]
        by_cases hk : k = key <;> simp [get, hk]
      · by_cases hk : k = other
        · subst hk
          simp [erase, get, same, Ne.symm same]
        · simp [erase, get, same, hk, ih]

/-- A traversal meets every key at most once. -/
theorem pairs_keys_nodup (t : Table K V) : (t.pairs.map Prod.fst).Nodup := by
  induction t with
  | empty => simp [pairs]
  | scalar key value rest ih =>
      have tail : ((rest.pairs.filter (fun entry => entry.1 ≠ key)).map Prod.fst).Nodup :=
        ih.sublist (List.filter_sublist.map Prod.fst)
      simpa [pairs] using tail
  | table key sub rest _ ih =>
      have tail : ((rest.pairs.filter (fun entry => entry.1 ≠ key)).map Prod.fst).Nodup :=
        ih.sublist (List.filter_sublist.map Prod.fst)
      simpa [pairs] using tail

/-- A traversal meets exactly the entries that reads find. -/
theorem mem_pairs (t : Table K V) (k : K) (x : Value K V) :
    (k, x) ∈ t.pairs ↔ t.get k = some x := by
  induction t with
  | empty => simp [pairs, get]
  | scalar key value rest ih =>
      by_cases hk : k = key
      · subst hk
        simp [pairs, get, eq_comm]
      · simp [pairs, get, hk, ih]
  | table key sub rest _ ih =>
      by_cases hk : k = key
      · subst hk
        simp [pairs, get, eq_comm]
      · simp [pairs, get, hk, ih]

theorem notMem_pairs_of_get {t : Table K V} {k : K} (absent : t.get k = none) :
    k ∉ t.pairs.map Prod.fst := by
  intro member
  obtain ⟨⟨key, x⟩, visited, same⟩ := List.mem_map.mp member
  have present := (mem_pairs t key x).mp visited
  simp only at same
  rw [same, absent] at present
  cases present

/-- A sub-table is strictly less deep than the table that holds it. -/
theorem depth_lt_of_get {t sub : Table K V} {k : K} (found : t.get k = some (.table sub)) :
    sub.depth < t.depth := by
  induction t with
  | empty => simp [get] at found
  | scalar key value rest ih =>
      by_cases hk : k = key
      · simp [get, hk] at found
      · exact ih (by simpa [get, hk] using found)
  | table key inner rest _ ih =>
      by_cases hk : k = key
      · have same : inner = sub := by simpa [get, hk] using found
        subst same
        exact Nat.lt_of_lt_of_le (Nat.lt_succ_self _) (Nat.le_max_left _ _)
      · exact Nat.lt_of_lt_of_le (ih (by simpa [get, hk] using found)) (Nat.le_max_right _ _)

end Table

/-! ## Meaning of tables -/

/-- A document: a scalar, or a partial function from keys to documents. -/
inductive Doc (K V : Type) where
  | scalar (value : V)
  | table (entries : K → Option (Doc K V))

/-- The meaning of a table. -/
abbrev Entries (K V : Type) : Type := K → Option (Doc K V)

namespace Table

variable {K V : Type} [DecidableEq K]

/-- The partial function a table stands for. -/
def denote : Table K V → Entries K V
  | .empty => fun _ => none
  | .scalar key value rest => Function.update rest.denote key (some (.scalar value))
  | .table key sub rest => Function.update rest.denote key (some (.table sub.denote))

end Table

/-- The document a value stands for. -/
def Value.denote {K V : Type} [DecidableEq K] : Value K V → Doc K V
  | .scalar value => .scalar value
  | .table sub => .table sub.denote

namespace Table

variable {K V : Type} [DecidableEq K]

/-- Structural equality of two tables by Lua `==` on keys and leaves. -/
def Same (left right : Table K V) : Prop := left.denote = right.denote

@[refl, simp] theorem Same.refl (t : Table K V) : t.Same t := rfl

theorem Same.symm {left right : Table K V} (same : left.Same right) : right.Same left :=
  Eq.symm same

theorem Same.trans {first second third : Table K V} (left : first.Same second)
    (right : second.Same third) : first.Same third :=
  Eq.trans left right

theorem denote_apply (t : Table K V) (k : K) : t.denote k = (t.get k).map Value.denote := by
  induction t with
  | empty => rfl
  | scalar key value rest ih =>
      by_cases hk : k = key <;> simp [denote, get, hk, ih, Value.denote]
  | table key sub rest _ ih =>
      by_cases hk : k = key <;> simp [denote, get, hk, ih, Value.denote]

@[simp] theorem denote_set (t : Table K V) (key : K) (x : Value K V) :
    (t.set key x).denote = Function.update t.denote key (some x.denote) := by
  funext k
  by_cases hk : k = key <;> simp [denote_apply, get_set, hk]

@[simp] theorem denote_erase (t : Table K V) (key : K) :
    (t.erase key).denote = Function.update t.denote key none := by
  funext k
  by_cases hk : k = key <;> simp [denote_apply, get_erase, hk]

theorem denote_eq_none_iff (t : Table K V) (k : K) : t.denote k = none ↔ t.get k = none := by
  rw [denote_apply, Option.map_eq_none_iff]

theorem denote_eq_scalar_iff (t : Table K V) (k : K) (v : V) :
    t.denote k = some (.scalar v) ↔ t.get k = some (.scalar v) := by
  rw [denote_apply]
  cases t.get k with
  | none => simp
  | some x => cases x <;> simp [Value.denote]

theorem denote_eq_table_iff (t : Table K V) (k : K) (entries : Entries K V) :
    t.denote k = some (.table entries) ↔
      ∃ sub, t.get k = some (.table sub) ∧ sub.denote = entries := by
  rw [denote_apply]
  cases t.get k with
  | none => simp
  | some x => cases x <;> simp [Value.denote]

/-- A copy made by `table.clone` is structurally equal to its original. -/
theorem denote_clone (t : Table K V) : t.clone.denote = t.denote := by
  induction t with
  | empty => rfl
  | scalar key value rest ih => simp [clone, denote, ih, Value.denote]
  | table key sub rest ihSub ih => simp [clone, denote, ih, ihSub, Value.denote]

theorem isEmpty_iff_denote (t : Table K V) : t.isEmpty = true ↔ ∀ k, t.denote k = none := by
  cases t with
  | empty => simp [isEmpty, denote]
  | scalar key value rest =>
      simp only [isEmpty, Bool.false_eq_true, false_iff, not_forall]
      exact ⟨key, by simp [denote]⟩
  | table key sub rest =>
      simp only [isEmpty, Bool.false_eq_true, false_iff, not_forall]
      exact ⟨key, by simp [denote]⟩

end Table

end WindLtask
