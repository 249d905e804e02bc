import WindLtask.Worker.Request

/-!
# The depth of messages

`ltask.pack` refuses a value inside 32 tables.  A state travels inside two tables
to its cell, its difference inside one, but a difference puts two tables around
each table of the state that it enters.  A state can therefore be too deep to be
changed and not too deep to be created.
-/

set_option linter.unusedSectionVars false

namespace WindLtask

/-! ## `pack_one` -/

/-- An argument of `ltask.pack`: a value, or a table that the code builds around values. -/
inductive Wire (N : Type) where
  | value (x : LuaValue N)
  | array (items : List (Wire N))
  | record (fields : List (Scalar N × Wire N))

/-- `MAX_DEPTH` -/
def maxDepth : Nat := 32

variable {N : Type} [DecidableEq N]

/-- `pack_one` on a value, `levels` below `MAX_DEPTH`; a tree has no ancestor to refer to. -/
def packValue : Nat → LuaValue N → Bool
  | 0, _ => false
  | _ + 1, .scalar x => (luaKinds N).packed x
  | levels + 1, .table t => t.pairs.all fun entry =>
      packValue levels (.scalar entry.1) && packValue levels entry.2

/-- `pack_one` on an argument; the keys of the array part are not packed. -/
def packOne : Nat → Wire N → Bool
  | 0, _ => false
  | levels + 1, .value x => packValue (levels + 1) x
  | levels + 1, .array items => items.all (packOne levels)
  | levels + 1, .record fields => fields.all fun field =>
      packValue levels (.scalar field.1) && packOne levels field.2

/-- Whether `ltask.pack(...)` returns; a `nil` is always packed. -/
def pack (args : List (Option (Wire N))) : Bool :=
  args.all fun arg => arg.all (packOne maxDepth)

/-- The scalars that `pack_one` takes have the same kinds as keys. -/
theorem packValue_key (levels : Nat) (key : Scalar N) :
    packValue (levels + 1) (.scalar key) = (luaKinds N).packedKey key := by
  cases key <;> rfl

theorem packValue_table (levels : Nat) (t : LuaTable N) :
    packValue (levels + 1) (.table t) = (luaKinds N).packsTable levels t := by
  induction levels generalizing t with
  | zero => cases t <;> simp [packValue, Kinds.packsTable, Table.pairs, Table.isEmpty]
  | succ levels ih =>
      simp only [packValue, Kinds.packsTable]
      congr 1
      funext entry
      obtain ⟨key, x⟩ := entry
      cases x with
      | scalar x => simp [← packValue_key levels, packValue]
      | table sub => simp [← packValue_key levels, ← ih, packValue]

/-! ## A difference as a table -/

/-- The keys of a difference. -/
def delKey : Scalar N := .string [100, 101, 108]

/-- The key `mod`. -/
def modKey : Scalar N := .string [109, 111, 100]

/-- The key `sub`. -/
def subKey : Scalar N := .string [115, 117, 98]

namespace Diff

variable {K V : Type}

/-- `diff.del` -/
def del : Diff K V → List K
  | .flat del _ => del
  | .sub _ _ rest => rest.del

/-- `diff.mod` -/
def mod : Diff K V → Table K V
  | .flat _ mod => mod
  | .sub _ _ rest => rest.mod

end Diff

/-- The table of a difference with these parts; empty parts are `nil`. -/
def wireParts (del : List (Scalar N)) (mod : LuaTable N) (subs : List (Scalar N × Wire N)) :
    Wire N :=
  .record (
    (if subs.isEmpty then [] else [(subKey, .record subs)]) ++
    (if del.isEmpty then [] else [(delKey, .array (del.map fun key => .value (.scalar key)))]) ++
    if mod.isEmpty then [] else [(modKey, .value (.table mod))])

/-- The entries of `diff.sub`. -/
def wireSubs : Diff (Scalar N) (Scalar N) → List (Scalar N × Wire N)
  | .flat _ _ => []
  | .sub key inner rest => (key, wireParts inner.del inner.mod (wireSubs inner)) :: wireSubs rest

/-- A difference as an argument of `ltask.pack`. -/
def Diff.wire (diff : Diff (Scalar N) (Scalar N)) : Wire N :=
  wireParts diff.del diff.mod (wireSubs diff)

theorem packValue_string (levels : Nat) (bytes : Bytes) :
    packValue levels (.scalar (.string bytes) : LuaValue N) = decide (1 ≤ levels) := by
  cases levels <;> simp [packValue, luaKinds]

/-- A field of a record that is there unless it is empty. -/
theorem packFields_optional (levels : Nat) (absent : Bool) (key : Bytes) (x : Wire N) :
    (if absent then [] else [(Scalar.string key, x)]).all (fun field : Scalar N × Wire N =>
        packValue levels (.scalar field.1) && packOne levels field.2) =
      (absent || decide (1 ≤ levels) && packOne levels x) := by
  cases absent <;> simp [packValue_string]

theorem packOne_keys (levels : Nat) (keys : List (Scalar N)) :
    (keys.isEmpty || decide (1 ≤ levels) &&
        packOne levels (.array (keys.map fun key => .value (.scalar key)))) =
      (keys.isEmpty || decide (2 ≤ levels) && keys.all (luaKinds N).packedKey) := by
  cases keys with
  | nil => rfl
  | cons key keys =>
      cases levels with
      | zero => rfl
      | succ levels =>
          cases levels with
          | zero => simp [packOne]
          | succ levels => simp [packOne, packValue_key, Function.comp_def]

theorem packOne_table (levels : Nat) (t : LuaTable N) :
    (decide (1 ≤ levels) && packOne levels (.value (.table t))) =
      (decide (1 ≤ levels) && (luaKinds N).packsTable (levels - 1) t) := by
  cases levels with
  | zero => rfl
  | succ levels => rw [Nat.add_sub_cancel, ← packValue_table]; rfl

/-- The parts of a difference lie one and two levels below it. -/
theorem packOne_wireParts (levels : Nat) (del : List (Scalar N)) (mod : LuaTable N)
    (subs : List (Scalar N × Wire N)) :
    packOne (levels + 1) (wireParts del mod subs) =
      ((subs.isEmpty || decide (1 ≤ levels) && packOne levels (.record subs)) &&
        (luaKinds N).packsDiff levels (.flat del mod)) := by
  simp only [wireParts, packOne, List.all_append, subKey, delKey, modKey, packFields_optional,
    packOne_keys, packOne_table, Kinds.packsDiff, Bool.and_assoc]

/-- `packsDiff` is what `pack_one` does to the table of a difference. -/
theorem packOne_wire (levels : Nat) (diff : Diff (Scalar N) (Scalar N)) :
    packOne (levels + 1) diff.wire = (luaKinds N).packsDiff levels diff := by
  induction diff generalizing levels with
  | flat del mod => simp [Diff.wire, packOne_wireParts, wireSubs, Diff.del, Diff.mod]
  | sub key inner rest ihInner ihRest =>
      have later := ihRest levels
      simp only [Diff.wire, packOne_wireParts, wireSubs, Diff.del, Diff.mod, Kinds.packsDiff]
        at later ⊢
      rw [← later]
      cases levels with
      | zero => simp
      | succ levels =>
          cases levels with
          | zero => simp [packOne, packValue]
          | succ levels =>
              have here := ihInner levels
              rw [Diff.wire] at here
              cases rest with
              | flat => simp [packOne, packValue_key, here, wireSubs]
              | sub => simp [packOne, packValue_key, here, wireSubs, Bool.and_assoc]

/-! ## Changing one scalar -/

section Change

variable {K V : Type} [DecidableEq K] [DecidableEq V]

/-- The new table differs from the old one in the scalar at this path only. -/
inductive Table.Rewritten (v : V) : List K → Table K V → Table K V → Prop where
  | here {old new : Table K V} (key : K) (before : V) (was : old.get key = some (.scalar before))
      (differs : before ≠ v) (now : new.get key = some (.scalar v))
      (others : ∀ k, k ≠ key → old.denote k = new.denote k) : Rewritten v [key] old new
  | inside {old new sub sub' : Table K V} (key : K) {path : List K}
      (was : old.get key = some (.table sub)) (now : new.get key = some (.table sub'))
      (deeper : Rewritten v path sub sub')
      (others : ∀ k, k ≠ key → old.denote k = new.denote k) : Rewritten v (key :: path) old new

/-- A difference that changes the scalar at a path and no other key. -/
inductive Diff.Rewrites (v : V) : List K → Diff K V → Prop where
  | here {mod : Table K V} (key : K) (now : mod.get key = some (.scalar v))
      (others : ∀ k, k ≠ key → mod.get k = none) : Rewrites v [key] (.flat [] mod)
  | inside {inner : Diff K V} (key : K) {path : List K} (deeper : Rewrites v path inner) :
      Rewrites v (key :: path) (.sub key inner (.flat [] .empty))

/-- Every key of the path lies two levels below the one before it. -/
theorem Diff.Rewrites.packsDiff_iff {v : V} {path : List K} {diff : Diff K V} (kinds : Kinds K V)
    (packed : kinds.packed v = true) (keys : ∀ key ∈ path, kinds.packedKey key = true)
    (rewrites : diff.Rewrites v path) (levels : Nat) :
    kinds.packsDiff levels diff = true ↔ 2 * path.length ≤ levels := by
  induction rewrites generalizing levels with
  | @here mod key now others =>
      have only : ∀ entry, entry ∈ mod.pairs ↔ entry = (key, .scalar v) := by
        rintro ⟨k, x⟩
        rw [mod.mem_pairs]
        by_cases same : k = key
        · subst same
          rw [now]
          simp [eq_comm]
        · simp [others k same, same]
      have filled : mod.isEmpty = false := by
        cases mod with
        | empty => cases now
        | _ => rfl
      have head := keys key (by simp)
      rcases levels with _ | _ | levels
      · simp [Kinds.packsDiff, filled]
      · cases mod with
        | empty => cases now
        | _ => simp [Kinds.packsDiff, Kinds.packsTable, Table.isEmpty]
      · simp [Kinds.packsDiff, Kinds.packsTable, filled, only, head, packed]
  | @inside inner key path deeper ih =>
      have later := ih (fun k member => keys k (List.mem_cons_of_mem _ member)) (levels - 2)
      have head := keys key List.mem_cons_self
      simp only [Kinds.packsDiff, Bool.and_eq_true, decide_eq_true_eq, later, head,
        List.length_cons, Table.isEmpty, List.isEmpty_nil, Bool.true_or, and_true]
      omega

/-- A building that changes nothing by a sub-difference or a deletion. -/
theorem Building.finish_flat {diff : Building K V}
    (slots : ∀ key, diff.getSub key = none ∧ key ∉ diff.del) : diff.finish = .flat [] diff.mod := by
  have noSub : diff.sub = [] := by
    refine List.eq_nil_iff_forall_not_mem.mpr fun entry member => ?_
    exact (diff.getSub_eq_none_iff entry.1).mp (slots entry.1).1 (List.mem_map_of_mem member)
  have noDel : diff.del = [] := List.eq_nil_iff_forall_not_mem.mpr fun key => (slots key).2
  rw [Building.finish, noSub, noDel]
  rfl

/-- A building that changes nothing but one sub-table. -/
theorem Building.finish_single {diff : Building K V} (distinct : diff.Distinct) {key : K}
    {inner : Diff K V} (here : diff.slot key = ⟨some inner, False, none⟩)
    (others : ∀ k, k ≠ key → diff.slot k = ⟨none, False, none⟩) :
    diff.finish = .sub key inner (.flat [] .empty) := by
  have apart : ∀ entry ∈ diff.sub, entry = (key, inner) := by
    rintro ⟨k, found⟩ member
    have known : (diff.slot k).sub = some found := distinct.getSub_of_mem member
    by_cases same : k = key
    · subst same
      rw [here] at known
      cases known
      rfl
    · rw [others k same] at known
      cases known
  have single : diff.sub = [(key, inner)] := by
    have filled : diff.sub ≠ [] := by
      intro empty
      have known : diff.getSub key = some inner := congrArg Slot.sub here
      simp [Building.getSub, empty] at known
    obtain ⟨entry, rest, shape⟩ := List.exists_cons_of_ne_nil filled
    rw [shape] at apart
    obtain rfl := apart entry List.mem_cons_self
    cases rest with
    | nil => exact shape
    | cons other rest =>
        obtain rfl := apart other (by simp)
        rw [Building.Distinct, shape] at distinct
        simp at distinct
  have clear : ∀ k, k ∉ diff.del ∧ diff.mod.get k = none := by
    intro k
    by_cases same : k = key
    · subst same
      exact ⟨of_eq_false (congrArg Slot.deleted here), congrArg Slot.modified here⟩
    · exact ⟨of_eq_false (congrArg Slot.deleted (others k same)),
        congrArg Slot.modified (others k same)⟩
  have noDel : diff.del = [] := List.eq_nil_iff_forall_not_mem.mpr fun k => (clear k).1
  have noMod : diff.mod = .empty := by
    have empty := (Table.isEmpty_iff_denote diff.mod).mpr fun k =>
      (diff.mod.denote_eq_none_iff k).mpr (clear k).2
    cases mod : diff.mod with
    | empty => rfl
    | _ => rw [mod] at empty; cases empty
  rw [Building.finish, single, noDel, noMod]
  rfl

theorem Table.Rewritten.differ {v : V} {path : List K} {old new : Table K V}
    (rewritten : old.Rewritten v path new) : ¬ old.Same new := by
  induction rewritten with
  | @here old new key before was differs now others =>
      intro same
      have meaning := congrFun (show old.denote = new.denote from same) key
      simp [Table.denote_apply, was, now, Value.denote, differs] at meaning
  | @inside old new sub sub' key path was now deeper others ih =>
      intro same
      have meaning := congrFun (show old.denote = new.denote from same) key
      simp only [Table.denote_apply, was, now, Option.map_some, Value.denote, Option.some.injEq,
        Doc.table.injEq] at meaning
      exact ih meaning

/-- The difference under construction after both loops. -/
def afterNew (recur : Table K V → Table K V → Diff K V) (old new : Table K V) : Building K V :=
  new.pairs.foldl (scanNew recur old) (afterOld recur old new)

theorem afterNew_distinct (recur : Table K V → Table K V → Diff K V) (old new : Table K V) :
    (afterNew recur old new).Distinct := by
  have start : Building.Distinct (⟨[], .empty, []⟩ : Building K V) := List.nodup_nil
  exact scanNew_distinct _ _ _ (scanOld_distinct _ _ _ start)

/-- The loops leave no trace at a key where the tables agree. -/
theorem afterNew_quiet {fuel : Nat} {old new : Table K V} (enough : old.depth < fuel + 1) {k : K}
    (same : old.denote k = new.denote k) :
    (afterNew (tableDiff fuel) old new).slot k = ⟨none, False, none⟩ := by
  have inner : ∀ a b, old.get k = some (.table a) → new.get k = some (.table b) →
      Exact (tableDiff fuel) a b ∧ Exact (tableDiff fuel) b a := by
    intro a b inOld inNew
    have shallow := Table.depth_lt_of_get inOld
    exact ⟨tableDiff_exact fuel a b (by omega), tableDiff_exact fuel b a (by omega)⟩
  rw [afterNew, building_slot, slotOf_empty_iff inner, ← Table.denote_apply, ← Table.denote_apply]
  exact same

/-- `table_diff` finds the one scalar that has changed. -/
theorem tableDiff_rewrites {v : V} {path : List K} {old new : Table K V}
    (rewritten : old.Rewritten v path new) (fuel : Nat) (enough : old.depth < fuel) :
    (tableDiff fuel old new).Rewrites v path := by
  induction rewritten generalizing fuel with
  | @here old new key before was differs now others =>
      obtain ⟨fuel, rfl⟩ : ∃ n, fuel = n + 1 := ⟨fuel - 1, by omega⟩
      have changed : (afterNew (tableDiff fuel) old new).slot key =
          ⟨none, False, some (.scalar v)⟩ := by
        rw [afterNew, building_slot, was, now]
        simp [slotOf, Value.differs, Ne.symm differs]
      have flat : (tableDiff (fuel + 1) old new) =
          .flat [] (afterNew (tableDiff fuel) old new).mod := by
        refine Building.finish_flat fun k => ?_
        by_cases same : k = key
        · subst same
          exact ⟨congrArg Slot.sub changed, of_eq_false (congrArg Slot.deleted changed)⟩
        · have quiet := afterNew_quiet enough (others k same)
          exact ⟨congrArg Slot.sub quiet, of_eq_false (congrArg Slot.deleted quiet)⟩
      rw [flat]
      exact .here key (congrArg Slot.modified changed) fun k apart =>
        congrArg Slot.modified (afterNew_quiet enough (others k apart))
  | @inside old new sub sub' key path was now deeper others ih =>
      obtain ⟨fuel, rfl⟩ : ∃ n, fuel = n + 1 := ⟨fuel - 1, by omega⟩
      have shallow := Table.depth_lt_of_get was
      have full : (tableDiff fuel sub sub').isEmpty = false :=
        Bool.eq_false_iff.mpr fun empty =>
          deeper.differ ((tableDiff_exact fuel sub sub' (by omega)).isEmpty_iff.mp empty)
      have changed : (afterNew (tableDiff fuel) old new).slot key =
          ⟨some (tableDiff fuel sub sub'), False, none⟩ := by
        rw [afterNew, building_slot, was, now]
        simp [slotOf, full]
      have single : tableDiff (fuel + 1) old new = .sub key _ (.flat [] .empty) :=
        Building.finish_single (afterNew_distinct _ old new) changed fun k apart =>
          afterNew_quiet enough (others k apart)
      rw [single]
      exact .inside key (ih fuel (by omega))

/-- `ltdiff.diff` finds the one scalar that has changed. -/
theorem ltdiff_rewrites {v : V} {path : List K} {old new : Table K V}
    (rewritten : old.Rewritten v path new) :
    ∃ diff, ltdiff old new = some diff ∧ diff.Rewrites v path := by
  cases found : ltdiff old new with
  | none => exact absurd ((ltdiff_eq_none_iff old new).mp found) rewritten.differ
  | some diff =>
      have rewrites := tableDiff_rewrites rewritten (old.depth + 1) (Nat.lt_succ_self _)
      simp only [ltdiff] at found
      split at found
      · cases found
      · cases found
        exact ⟨_, rfl, rewrites⟩

/-! ## What a table that can be packed holds -/

/-- What `pack_one` asks of an entry of a table, `levels` below `MAX_DEPTH`. -/
def Kinds.PacksEntry (kinds : Kinds K V) (levels : Nat) (key : K) : Value K V → Prop
  | .scalar v => kinds.packedKey key = true ∧ kinds.packed v = true
  | .table sub => kinds.packedKey key = true ∧ kinds.packsTable levels sub = true

theorem Kinds.packsTable_succ (kinds : Kinds K V) (levels : Nat) (t : Table K V) :
    kinds.packsTable (levels + 1) t = true ↔
      ∀ k x, t.get k = some x → kinds.PacksEntry levels k x := by
  simp only [Kinds.packsTable, List.all_eq_true, Bool.and_eq_true]
  constructor
  · intro all k x found
    have entry := all (k, x) ((t.mem_pairs k x).mpr found)
    cases x <;> exact entry
  · rintro all ⟨k, x⟩ member
    have entry := all k x ((t.mem_pairs k x).mp member)
    cases x <;> exact entry

theorem Kinds.packsTable_entry (kinds : Kinds K V) {levels : Nat} {t : Table K V} {k : K}
    {x : Value K V} (packs : kinds.packsTable levels t = true) (found : t.get k = some x) :
    ∃ n, levels = n + 1 ∧ kinds.PacksEntry n k x := by
  cases levels with
  | succ n => exact ⟨n, rfl, (kinds.packsTable_succ n t).mp packs k x found⟩
  | zero =>
      have absent := (t.denote_eq_none_iff k).mp ((Table.isEmpty_iff_denote t).mp packs k)
      rw [found] at absent
      cases absent

theorem Kinds.PacksEntry.congr {kinds : Kinds K V} {levels : Nat} {key : K} {x y : Value K V}
    (below : ∀ a b : Table K V, a.Same b → kinds.packsTable levels a = true →
      kinds.packsTable levels b = true)
    (packs : kinds.PacksEntry levels key x) (same : x.denote = y.denote) :
    kinds.PacksEntry levels key y := by
  cases x with
  | scalar v =>
      cases y with
      | scalar w =>
          have equal : v = w := by simpa [Value.denote] using same
          exact equal ▸ packs
      | table b => simp [Value.denote] at same
  | table a =>
      cases y with
      | scalar w => simp [Value.denote] at same
      | table b =>
          have equal : a.denote = b.denote := by simpa [Value.denote] using same
          exact ⟨packs.1, below a b equal packs.2⟩

theorem Kinds.packsTable_same (kinds : Kinds K V) (levels : Nat) (left right : Table K V)
    (same : left.Same right) (packs : kinds.packsTable levels left = true) :
    kinds.packsTable levels right = true := by
  induction levels generalizing left right with
  | zero =>
      rw [Kinds.packsTable, Table.isEmpty_iff_denote] at packs ⊢
      rwa [← show left.denote = right.denote from same]
  | succ levels ih =>
      rw [Kinds.packsTable_succ] at packs ⊢
      intro k x found
      have meaning := congrFun (show left.denote = right.denote from same) k
      rw [Table.denote_apply, Table.denote_apply, found] at meaning
      obtain ⟨y, inLeft, denotes⟩ := Option.map_eq_some_iff.mp meaning
      exact (packs k y inLeft).congr (fun a b => ih a b) denotes

/-- A change of a scalar leaves a table as deep as it was, and its path has keys of the table. -/
theorem Table.Rewritten.packs {kinds : Kinds K V} {v : V} {path : List K} {old new : Table K V}
    (rewritten : old.Rewritten v path new) (packed : kinds.packed v = true) {levels : Nat}
    (packs : kinds.packsTable levels old = true) :
    kinds.packsTable levels new = true ∧ ∀ key ∈ path, kinds.packedKey key = true := by
  have elsewhere : ∀ {levels : Nat} {old new : Table K V} {k : K} {x : Value K V},
      kinds.packsTable (levels + 1) old = true → old.denote k = new.denote k →
        new.get k = some x → kinds.PacksEntry levels k x := by
    intro levels old new k x packs same found
    rw [Table.denote_apply, Table.denote_apply, found] at same
    obtain ⟨y, inOld, denotes⟩ := Option.map_eq_some_iff.mp same
    exact ((kinds.packsTable_succ levels old).mp packs k y inOld).congr
      (kinds.packsTable_same levels) denotes
  induction rewritten generalizing levels with
  | @here old new key before was differs now others =>
      obtain ⟨levels, rfl, head, -⟩ := kinds.packsTable_entry packs was
      refine ⟨(kinds.packsTable_succ levels new).mpr fun k x found => ?_, by simpa using head⟩
      by_cases same : k = key
      · subst same
        rw [now] at found
        cases found
        exact ⟨head, packed⟩
      · exact elsewhere packs (others k same) found
  | @inside old new sub sub' key path was now deeper others ih =>
      obtain ⟨levels, rfl, head, inside⟩ := kinds.packsTable_entry packs was
      obtain ⟨below, keys⟩ := ih inside
      refine ⟨(kinds.packsTable_succ levels new).mpr fun k x found => ?_,
        by simpa [head] using keys⟩
      by_cases same : k = key
      · subst same
        rw [now] at found
        cases found
        exact ⟨head, below⟩
      · exact elsewhere packs (others k same) found

/-- `table_diff` returns on tables that can be packed. -/
theorem Kinds.diffReturns_of_packs {kinds : Kinds K V}
    (compared : ∀ v, kinds.packed v = true → kinds.compared v = true) (fuel : Nat)
    {levels levels' : Nat} {old new : Table K V} (packsOld : kinds.packsTable levels old = true)
    (packsNew : kinds.packsTable levels' new = true) : kinds.diffReturns fuel old new = true := by
  induction fuel generalizing levels levels' old new with
  | zero => rfl
  | succ fuel ih =>
      simp only [Kinds.diffReturns, Bool.and_eq_true, List.all_eq_true]
      constructor
      · rintro ⟨k, x⟩ member
        obtain ⟨n, rfl, entry⟩ := kinds.packsTable_entry packsOld ((old.mem_pairs k x).mp member)
        cases x with
        | scalar v => exact compared v entry.2
        | table a =>
            cases inNew : new.get k with
            | none => simp
            | some y =>
                cases y with
                | scalar w => simp
                | table b =>
                    obtain ⟨m, rfl, other⟩ := kinds.packsTable_entry packsNew inNew
                    simpa [inNew] using ih entry.2 other.2
      · rintro ⟨k, x⟩ member
        obtain ⟨n, rfl, entry⟩ := kinds.packsTable_entry packsNew ((new.mem_pairs k x).mp member)
        cases x with
        | scalar v => exact compared v entry.2
        | table b => rfl

end Change

/-! ## The messages -/

/-- The paths in the first message of every service. -/
structure Paths where
  lua : Bytes
  luaC : Bytes
  service : Bytes

/-- A string among the arguments of `ltask.pack`. -/
def wireString (bytes : Bytes) : Wire N :=
  .value (.scalar (.string bytes))

/-- `ltask.call(state_mgr(), "newstate", name, t)` -/
def newstateMessage (name : Bytes) (t : LuaTable N) : List (Option (Wire N)) :=
  [some (wireString [110, 101, 119, 115, 116, 97, 116, 101]), some (wireString name),
    some (.value (.table t))]

/-- `ltask.spawn("state_cell", name, t)` -/
def spawnMessage (name : Bytes) (t : LuaTable N) : List (Option (Wire N)) :=
  [some (wireString [115, 112, 97, 119, 110]),
    some (wireString [115, 116, 97, 116, 101, 95, 99, 101, 108, 108]), some (wireString name),
    some (.value (.table t))]

/-- The `init` message of `init_service`, whose field `args` holds the name and the state. -/
def initMessage (paths : Paths) (name : Bytes) (t : LuaTable N) : List (Option (Wire N)) :=
  [some (wireString [105, 110, 105, 116]),
    some (.record [
      (.string [108, 117, 97, 95, 112, 97, 116, 104], wireString paths.lua),
      (.string [108, 117, 97, 95, 99, 112, 97, 116, 104], wireString paths.luaC),
      (.string [115, 101, 114, 118, 105, 99, 101, 95, 112, 97, 116, 104], wireString paths.service),
      (.string [110, 97, 109, 101],
        wireString [115, 116, 97, 116, 101, 95, 99, 101, 108, 108]),
      (.string [97, 114, 103, 115], .array [wireString name, .value (.table t)])])]

/-- `ltask.send(state_mgr(), "unlock", patch_map)` -/
def unlockMessage (patchMap : List (Bytes × Option (Diff (Scalar N) (Scalar N)))) :
    List (Option (Wire N)) :=
  [some (wireString [117, 110, 108, 111, 99, 107]),
    some (.record (patchMap.map fun entry =>
      (.string entry.1, (entry.2.map Diff.wire).getD (.value (.scalar (.boolean false))))))]

/-- `ltask.call(state[name], "patch", patch)` -/
def patchMessage (patch : Diff (Scalar N) (Scalar N)) : List (Option (Wire N)) :=
  [some (wireString [112, 97, 116, 99, 104]), some patch.wire]

/-- `return version, nil, list` -/
def queryReply (version : N) (list : List (Diff (Scalar N) (Scalar N))) :
    List (Option (Wire N)) :=
  [some (.value (.scalar (.number version))), none, some (.array (list.map Diff.wire))]

theorem packOne_wireString (levels : Nat) (bytes : Bytes) :
    packOne (levels + 1) (wireString bytes : Wire N) = true := rfl

/-- The state lies two tables deep in the message that reaches its cell. -/
theorem pack_initMessage (paths : Paths) (name : Bytes) (t : LuaTable N) :
    pack (initMessage paths name t) = (luaKinds N).packsTable 29 t := by
  simp [pack, initMessage, maxDepth, packOne, packOne_wireString, packValue_string,
    packValue_table 29]

theorem pack_unlockMessage (patchMap : List (Bytes × Option (Diff (Scalar N) (Scalar N)))) :
    pack (unlockMessage patchMap) = patchMap.all fun entry => (luaKinds N).packsChange entry.2 := by
  have each : ∀ entry : Bytes × Option (Diff (Scalar N) (Scalar N)),
      packOne 31 ((entry.2.map Diff.wire).getD (.value (.scalar (.boolean false)))) =
        (luaKinds N).packsChange entry.2 := by
    rintro ⟨name, change⟩
    cases change with
    | none => rfl
    | some diff => exact packOne_wire 30 diff
  simp [pack, unlockMessage, maxDepth, packOne, packOne_wireString, packValue_string, each,
    Function.comp_def]

theorem pack_patchMessage (patch : Diff (Scalar N) (Scalar N)) :
    pack (patchMessage patch) = (luaKinds N).packsDiff 31 patch := by
  simp [pack, patchMessage, maxDepth, packOne_wireString, packOne_wire]

theorem pack_queryReply (version : N) (list : List (Diff (Scalar N) (Scalar N))) :
    pack (queryReply version list) = list.all ((luaKinds N).packsDiff 30) := by
  simp [pack, queryReply, maxDepth, packOne, packValue, luaKinds, packOne_wire, Function.comp_def]

/-! ## States that can be created and changed -/

section Update

variable {Addr : Type}

/-- The query of one state whose handler has left the table `new`. -/
def Query.single (name : Bytes) (addr : Addr) (old new : LuaTable N) :
    Query Bytes Addr (Scalar N) (Scalar N) :=
  ⟨[name], [some addr], 1, [old], [new]⟩

/-- The caches move on before the message is packed. -/
theorem Query.single_unlock (name : Bytes) (addr : Addr) {old new : LuaTable N}
    {diff : Diff (Scalar N) (Scalar N)} (cache : Cache Bytes (Scalar N) (Scalar N))
    (found : ltdiff old new = some diff)
    (compared : (luaKinds N).diffReturns (old.depth + 1) old new = true) :
    ((Query.single name addr old new).close cache).1 = commit cache name (some diff) new ∧
      (((Query.single name addr old new).unlock (luaKinds N) cache).isSome =
        (luaKinds N).packsDiff 30 diff) := by
  have closed : (Query.single name addr old new).close cache =
      (commit cache name (some diff) new, some [(name, some diff)]) := by
    simp [Query.single, Query.close, closeLoop, found]
  rw [closed]
  refine ⟨rfl, ?_⟩
  unfold Query.unlock
  rw [closed]
  simp [Query.single, compared, Kinds.packsChange, Option.isSome_filter]

/--
Let a state be created, and let one scalar at any position be changed.  The
`unlock` with the difference, the `patch` call and every later answer that
carries it are packed, and the close function returns, if and only if the
position is at most 15 keys deep; the close function has moved the caches on
in any case.
-/
theorem change_packed_iff (paths : Paths) (name : Bytes) {t new : LuaTable N}
    {path : List (Scalar N)} {v : Scalar N}
    (created : pack (newstateMessage name t) = true ∧ pack (spawnMessage name t) = true ∧
      pack (initMessage paths name t) = true)
    (rewritten : t.Rewritten v path new) (packed : (luaKinds N).packed v = true) :
    ∃ diff, ltdiff t new = some diff ∧
      (∀ before after, pack (unlockMessage (before ++ after)) = true →
        (pack (unlockMessage (before ++ (name, some diff) :: after)) = true ↔
          path.length ≤ 15)) ∧
      (pack (patchMessage diff) = true ↔ path.length ≤ 15) ∧
      (∀ version before after, pack (queryReply version (before ++ after)) = true →
        (pack (queryReply version (before ++ diff :: after)) = true ↔ path.length ≤ 15)) ∧
      ∀ (addr : Addr) (cache : Cache Bytes (Scalar N) (Scalar N)),
        ((Query.single name addr t new).close cache).1 =
          Query.commit cache name (some diff) new ∧
        (((Query.single name addr t new).unlock (luaKinds N) cache).isSome = true ↔
          path.length ≤ 15) := by
  have packs : (luaKinds N).packsTable 29 t = true := by
    rw [← pack_initMessage paths name]
    exact created.2.2
  obtain ⟨packsNew, keys⟩ := rewritten.packs packed packs
  obtain ⟨diff, found, rewrites⟩ := ltdiff_rewrites rewritten
  have deep := fun levels => rewrites.packsDiff_iff (luaKinds N) packed keys levels
  have thirty : (luaKinds N).packsDiff 30 diff = true ↔ path.length ≤ 15 := by
    rw [deep 30]
    omega
  refine ⟨diff, found, ?_, ?_, ?_, ?_⟩
  · intro before after others
    rw [pack_unlockMessage, List.all_append, Bool.and_eq_true] at others
    rw [pack_unlockMessage, List.all_append, List.all_cons, others.1, others.2]
    simpa [Kinds.packsChange] using thirty
  · rw [pack_patchMessage, deep 31]
    omega
  · intro version before after others
    rw [pack_queryReply, List.all_append, Bool.and_eq_true] at others
    rw [pack_queryReply, List.all_append, List.all_cons, others.1, others.2]
    simpa using thirty
  · intro addr cache
    have compared : (luaKinds N).diffReturns (t.depth + 1) t new = true := by
      refine Kinds.diffReturns_of_packs (fun v packs => ?_) _ packs packsNew
      cases v <;> first | rfl | cases packs
    obtain ⟨moved, sent⟩ := Query.single_unlock name addr cache found compared
    exact ⟨moved, by rw [sent]; exact thirty⟩

/-! ### Two states -/

/-- The number `x` below `n` more tables. -/
def nest (x : Int) : Nat → LuaTable Int
  | 0 => .scalar goldKey (.number x) .empty
  | n + 1 => .table okKey (nest x n) .empty

/-- Another number below the same tables. -/
theorem nest_rewritten {x y : Int} (differs : x ≠ y) (n : Nat) :
    (nest x n).Rewritten (.number y) (List.replicate n okKey ++ [goldKey]) (nest y n) := by
  induction n with
  | zero =>
      refine .here goldKey (.number x) (by simp [nest, Table.get]) (by simpa using differs)
        (by simp [nest, Table.get]) fun k apart => ?_
      simp [nest, Table.denote, apart]
  | succ n ih =>
      refine .inside okKey (by simp [nest, Table.get]) (by simp [nest, Table.get]) ih
        fun k apart => ?_
      simp [nest, Table.denote, apart]

/-- The gold of a player is at depth one. -/
theorem change_packed_of_player :
    ∃ diff, ltdiff (nest 50000 0) (nest 49000 0) = some diff ∧
      pack (patchMessage diff) = true := by
  have rewritten := nest_rewritten (show (50000 : Int) ≠ 49000 by decide) 0
  obtain ⟨diff, found, -, patch, -⟩ := @change_packed_iff Int _ Nat ⟨[], [], []⟩ (user [97]) _ _ _ _
    (by decide) rewritten rfl
  exact ⟨diff, found, patch.mpr (by decide)⟩

/--
A state with 15 tables below it is created; its scalar has 16 keys, and the close
function raises after it has counted the change.
-/
theorem change_unpacked :
    pack (newstateMessage (user [97]) (nest 1 15)) = true ∧
      pack (spawnMessage (user [97]) (nest 1 15)) = true ∧
      pack (initMessage ⟨[], [], []⟩ (user [97]) (nest 1 15)) = true ∧
      ∃ diff, ltdiff (nest 1 15) (nest 2 15) = some diff ∧
        pack (unlockMessage [(user [97], some diff)]) = false ∧
        pack (patchMessage diff) = false ∧ pack (queryReply 1 [diff]) = false ∧
        ∀ cache : Cache Bytes (Scalar Int) (Scalar Int),
          ((Query.single (user [97]) 40 (nest 1 15) (nest 2 15)).close cache).1 =
            Query.commit cache (user [97]) (some diff) (nest 2 15) ∧
          (Query.single (user [97]) 40 (nest 1 15) (nest 2 15)).unlock (luaKinds Int) cache =
            none := by
  have rewritten := nest_rewritten (show (1 : Int) ≠ 2 by decide) 15
  obtain ⟨diff, found, rewrites⟩ := ltdiff_rewrites rewritten
  have keys : ∀ key ∈ List.replicate 15 okKey ++ [goldKey],
      (luaKinds Int).packedKey key = true := by
    decide
  have refused : ∀ levels < 32, (luaKinds Int).packsDiff levels diff = false := by
    intro levels less
    rw [← Bool.not_eq_true, rewrites.packsDiff_iff (luaKinds Int) rfl keys levels]
    simp only [List.length_append, List.length_replicate, List.length_singleton]
    omega
  refine ⟨by decide, by decide, by decide, diff, found, ?_, ?_, ?_, fun cache => ?_⟩
  · rw [pack_unlockMessage]
    simp [Kinds.packsChange, refused 30 (by decide)]
  · rw [pack_patchMessage, refused 31 (by decide)]
  · rw [pack_queryReply]
    simp [refused 30 (by decide)]
  · obtain ⟨moved, sent⟩ := Query.single_unlock (user [97]) 40 cache found (by decide)
    rw [refused 30 (by decide)] at sent
    exact ⟨moved, by simpa using sent⟩

end Update

end WindLtask
