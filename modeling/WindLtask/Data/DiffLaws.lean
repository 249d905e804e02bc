import WindLtask.Data.Diff

/-!
# Laws of differences

A difference acts on the meaning of tables, and `tablePatch` computes that
action.  The main result is that the difference of two tables is empty exactly
when they are structurally equal, and that patching the old table with it gives
the new one.
-/

namespace WindLtask

variable {K V : Type} [DecidableEq K]

namespace Diff

/-- The action of a difference on the meaning of a table. -/
def apply : Diff K V → Entries K V → Option (Entries K V)
  | .flat del mod, entries =>
      some fun k => (mod.denote k).or (if k ∈ del then none else entries k)
  | .sub key inner rest, entries =>
      match entries key with
      | some (.table below) =>
          (inner.apply below).bind fun patched =>
            rest.apply (Function.update entries key (some (.table patched)))
      | _ => if inner.isEmpty then rest.apply entries else none

/-- An inner difference for an entry that is no table must have nothing to do. -/
theorem apply_of_noTable {key : K} {inner rest : Diff K V} {entries : Entries K V}
    (noTable : ∀ below, entries key ≠ some (.table below)) :
    (Diff.sub key inner rest).apply entries =
      if inner.isEmpty then rest.apply entries else none := by
  rw [apply]
  split
  · next below entry => exact absurd entry (noTable below)
  · rfl

end Diff

theorem eraseAll_denote (del : List K) (t : Table K V) :
    (eraseAll del t).denote = fun k => if k ∈ del then none else t.denote k := by
  induction del generalizing t with
  | nil => simp [eraseAll]
  | cons key rest ih =>
      have step : eraseAll (key :: rest) t = eraseAll rest (t.erase key) := rfl
      rw [step, ih]
      funext k
      by_cases hk : k = key <;> simp [hk]

private theorem assign_isLocal :
    Lib.KeyLocal (fun (t : Table K V) (entry : K × Value K V) => t.set entry.1 entry.2)
      (fun t k => t.denote k) (fun _ x _ => some x.denote) where
  here := by intro t key x; simp
  elsewhere := by intro t key x other apart; simp [apart]

theorem assignAll_denote (mod t : Table K V) :
    (assignAll mod t).denote = fun k => (mod.denote k).or (t.denote k) := by
  funext k
  cases found : mod.get k with
  | none =>
      have kept := assign_isLocal.foldl_of_notMem mod.pairs t k
        (Table.notMem_pairs_of_get found)
      simpa [assignAll, Table.denote_apply mod, found] using kept
  | some x =>
      have assigned := assign_isLocal.foldl_of_mem mod.pairs_keys_nodup t
        ((Table.mem_pairs mod k x).mpr found)
      simpa [assignAll, Table.denote_apply mod, found] using assigned

/-- `tablePatch` computes the action of a difference, and raises when it fails. -/
theorem denote_tablePatch (diff : Diff K V) (t : Table K V) :
    (tablePatch diff t).map Table.denote = diff.apply t.denote := by
  induction diff generalizing t with
  | flat del mod =>
      simp only [tablePatch, Option.map_some, Diff.apply, assignAll_denote, eraseAll_denote]
  | sub key inner rest ihInner ihRest =>
      cases found : t.get key with
      | none =>
          have meaning : t.denote key = none := (t.denote_eq_none_iff key).mpr found
          simp only [tablePatch, found, Diff.apply, meaning]
          split
          · exact ihRest t
          · rfl
      | some x =>
          cases x with
          | scalar v =>
              have meaning := (t.denote_eq_scalar_iff key v).mpr found
              simp only [tablePatch, found, Diff.apply, meaning]
              split
              · exact ihRest t
              · rfl
          | table sub =>
              have meaning := (t.denote_eq_table_iff key sub.denote).mpr ⟨sub, found, rfl⟩
              simp only [tablePatch, found, Diff.apply, meaning]
              rw [← ihInner sub]
              cases tablePatch inner sub with
              | none => rfl
              | some patched =>
                  simpa [Value.denote] using ihRest (t.set key (.table patched))

/-- Patching respects structural equality of the patched table. -/
theorem tablePatch_same {diff : Diff K V} {left right patched : Table K V}
    (same : left.Same right) (done : tablePatch diff left = some patched) :
    ∃ other, tablePatch diff right = some other ∧ patched.Same other := by
  have onLeft := denote_tablePatch diff left
  have onRight := denote_tablePatch diff right
  have same' : left.denote = right.denote := same
  rw [done, same', ← onRight, Option.map_some] at onLeft
  obtain ⟨other, doneRight, meaning⟩ := Option.map_eq_some_iff.mp onLeft.symm
  exact ⟨other, doneRight, meaning.symm⟩

/-- Acting with a chain of `sub` entries, checked key by key against a goal. -/
theorem Diff.apply_ofParts (goal : Entries K V) (del : List K) (mod : Table K V)
    (subs : List (K × Diff K V)) (distinct : (subs.map Prod.fst).Nodup)
    (entries : Entries K V)
    (inside : ∀ entry ∈ subs, ∃ before after, entries entry.1 = some (.table before) ∧
      entry.2.apply before = some after ∧ goal entry.1 = some (.table after) ∧
      mod.denote entry.1 = none ∧ entry.1 ∉ del)
    (outside : ∀ k, k ∉ subs.map Prod.fst →
      (mod.denote k).or (if k ∈ del then none else entries k) = goal k) :
    (Diff.ofParts del mod subs).apply entries = some goal := by
  induction subs generalizing entries with
  | nil =>
      simp only [Diff.ofParts, Diff.apply, Option.some.injEq]
      funext k
      exact outside k (by simp)
  | cons entry rest ih =>
      obtain ⟨key, inner⟩ := entry
      rw [List.map_cons, List.nodup_cons] at distinct
      obtain ⟨before, after, hbefore, happly, hafter, hmod, hdel⟩ :=
        inside (key, inner) List.mem_cons_self
      simp only at hbefore happly hafter hmod hdel
      simp only [Diff.ofParts, Diff.apply, hbefore, happly, Option.bind_some]
      apply ih distinct.2
      · intro other member
        have apart : other.1 ≠ key := fun same =>
          distinct.1 (List.mem_map.mpr ⟨other, member, same⟩)
        simpa [Function.update_apply, apart] using inside other (List.mem_cons_of_mem _ member)
      · intro k absent
        by_cases hk : k = key
        · subst hk
          simp [hmod, hdel, hafter]
        · simpa [Function.update_apply, hk] using outside k (by simpa [hk] using absent)

/-! ## The two loops of `table_diff`, key by key -/

/-- What the difference under construction says about one key. -/
@[ext]
structure Slot (K V : Type) where
  sub : Option (Diff K V)
  deleted : Prop
  modified : Option (Value K V)

namespace Building

/-- The part of the difference under construction that belongs to one key. -/
def slot (diff : Building K V) (key : K) : Slot K V :=
  ⟨diff.getSub key, key ∈ diff.del, diff.mod.get key⟩

theorem slot_sub (diff : Building K V) (key : K) : (diff.slot key).sub = diff.getSub key := rfl

@[simp] theorem slot_modify (diff : Building K V) (key : K) (w : Value K V) (k : K) :
    Building.slot { diff with mod := diff.mod.set key w } k =
      if k = key then { diff.slot k with modified := some w } else diff.slot k := by
  by_cases hk : k = key <;> simp [slot, getSub, Table.get_set, hk]

@[simp] theorem slot_delete (diff : Building K V) (key k : K) :
    Building.slot { diff with del := diff.del ++ [key] } k =
      if k = key then { diff.slot k with deleted := True } else diff.slot k := by
  by_cases hk : k = key <;> simp [slot, getSub, hk]

theorem getSub_putSub (diff : Building K V) (key : K) (inner : Diff K V) (k : K) :
    (diff.putSub key inner).getSub k =
      if k = key then (if inner.isEmpty then none else some inner) else diff.getSub k := by
  have dropped : (diff.sub.filter (fun entry => entry.1 ≠ key)).find?
      (fun entry => entry.1 = k) = if k = key then none else
        diff.sub.find? (fun entry => entry.1 = k) := by
    induction diff.sub with
    | nil => simp
    | cons entry rest ih =>
        by_cases first : entry.1 = key <;> by_cases hk : entry.1 = k <;> simp_all
  by_cases hk : k = key
  · subst hk
    cases hi : inner.isEmpty <;> simp_all [putSub, getSub]
  · cases hi : inner.isEmpty <;> simp_all [putSub, getSub, Ne.symm hk]

@[simp] theorem slot_putSub (diff : Building K V) (key : K) (inner : Diff K V) (k : K) :
    (diff.putSub key inner).slot k =
      if k = key then { diff.slot k with sub := if inner.isEmpty then none else some inner }
      else diff.slot k := by
  by_cases hk : k = key <;> simp [slot, getSub_putSub, hk] <;> exact ⟨Iff.rfl, rfl⟩

/-- Every key of `diff.sub` occurs once. -/
def Distinct (diff : Building K V) : Prop := (diff.sub.map Prod.fst).Nodup

theorem Distinct.putSub {diff : Building K V} (distinct : diff.Distinct) (key : K)
    (inner : Diff K V) : (diff.putSub key inner).Distinct := by
  have others : ((diff.sub.filter (fun entry => entry.1 ≠ key)).map Prod.fst).Nodup :=
    List.Nodup.sublist (List.filter_sublist.map Prod.fst) distinct
  cases hi : inner.isEmpty with
  | true => simpa [Distinct, Building.putSub, hi] using others
  | false =>
      have fresh : key ∉ (diff.sub.filter (fun entry => entry.1 ≠ key)).map Prod.fst := by
        simp
      simpa [Distinct, Building.putSub, hi] using And.intro fresh others

theorem getSub_eq_none_iff (diff : Building K V) (key : K) :
    diff.getSub key = none ↔ key ∉ diff.sub.map Prod.fst := by
  simp only [getSub, Option.map_eq_none_iff, List.find?_eq_none, List.mem_map, not_exists, not_and]
  exact ⟨fun absent entry member same => absent entry member (by simpa using same),
    fun absent entry member same => absent entry member (by simpa using same)⟩

theorem Distinct.getSub_of_mem {diff : Building K V} (distinct : diff.Distinct) {key : K}
    {inner : Diff K V} (member : (key, inner) ∈ diff.sub) : diff.getSub key = some inner := by
  have general : ∀ entries : List (K × Diff K V), (entries.map Prod.fst).Nodup →
      (key, inner) ∈ entries →
      (entries.find? (fun entry => entry.1 = key)).map Prod.snd = some inner := by
    intro entries nodup present
    induction entries with
    | nil => cases present
    | cons entry rest ih =>
        rw [List.map_cons, List.nodup_cons] at nodup
        rcases List.mem_cons.mp present with same | later
        · simp [← same]
        · have apart : entry.1 ≠ key := fun same =>
            nodup.1 (List.mem_map.mpr ⟨(key, inner), later, same.symm⟩)
          simpa [List.find?_cons, apart] using ih nodup.2 later
  exact general diff.sub distinct member

/-- A finished difference is empty when no key has a change. -/
theorem finish_isEmpty_iff (diff : Building K V) :
    diff.finish.isEmpty = true ↔ ∀ key, diff.slot key = ⟨none, False, none⟩ := by
  obtain ⟨del, mod, sub⟩ := diff
  constructor
  · intro empty key
    cases sub with
    | cons entry rest => cases empty
    | nil =>
        simp only [finish, Diff.ofParts, Diff.isEmpty, Bool.and_eq_true] at empty
        have noDel : del = [] := List.isEmpty_iff.mp empty.1
        have noMod := (mod.denote_eq_none_iff key).mp
          ((Table.isEmpty_iff_denote mod).mp empty.2 key)
        simp [slot, getSub, noDel, noMod]
  · intro empty
    cases sub with
    | cons entry rest =>
        have found := congrArg Slot.sub (empty entry.1)
        simp [slot, getSub] at found
    | nil =>
        cases del with
        | cons key rest =>
            have found := congrArg Slot.deleted (empty key)
            simp [slot] at found
        | nil =>
            have noMod : mod.isEmpty = true := (Table.isEmpty_iff_denote mod).mpr fun key =>
              (mod.denote_eq_none_iff key).mpr (congrArg Slot.modified (empty key))
            simp [finish, Diff.ofParts, Diff.isEmpty, noMod]

end Building

section Difference

variable [DecidableEq V]

/-- The effect of the first loop on the slot of the key it visits. -/
def oldUpdate (recur : Table K V → Table K V → Diff K V) (new : Table K V)
    (key : K) (v : Value K V) (slot : Slot K V) : Slot K V :=
  match v, new.get key with
  | .table a, some (.table b) =>
      { slot with sub := if (recur a b).isEmpty then none else some (recur a b) }
  | _, none => { slot with deleted := True }
  | v, some w => if w.differs v then { slot with modified := some w } else slot

/-- The effect of the second loop on the slot of the key it visits. -/
def newUpdate (recur : Table K V → Table K V → Diff K V) (old : Table K V)
    (key : K) (v : Value K V) (slot : Slot K V) : Slot K V :=
  if slot.sub.isSome then slot
  else
    match old.get key, v with
    | some (.table a), .table b =>
        { slot with sub := if (recur b a).isEmpty then none else some (recur b a) }
    | none, v => { slot with modified := some v }
    | some w, v => if v.differs w then { slot with modified := some v } else slot

theorem scanOld_isLocal (recur : Table K V → Table K V → Diff K V) (new : Table K V) :
    Lib.KeyLocal (scanOld recur new) Building.slot (oldUpdate recur new) where
  here := by
    intro diff key v
    cases found : new.get key with
    | none => cases v <;> simp [scanOld, oldUpdate, found]
    | some w =>
        cases differ : w.differs v <;> cases v <;> cases w <;>
          simp [scanOld, oldUpdate, found, differ]
  elsewhere := by
    intro diff key v other apart
    cases found : new.get key with
    | none => cases v <;> simp [scanOld, found, apart]
    | some w =>
        cases differ : w.differs v <;> cases v <;> cases w <;>
          simp [scanOld, found, differ, apart]

theorem scanNew_isLocal (recur : Table K V → Table K V → Diff K V) (old : Table K V) :
    Lib.KeyLocal (scanNew recur old) Building.slot (newUpdate recur old) where
  here := by
    intro diff key v
    cases known : diff.getSub key with
    | some inner => simp [scanNew, newUpdate, Building.slot, known]
    | none =>
        cases found : old.get key with
        | none => cases v <;> simp [scanNew, newUpdate, known, found, Building.slot_sub]
        | some w =>
            cases differ : v.differs w <;> cases v <;> cases w <;>
              simp [scanNew, newUpdate, known, found, differ, Building.slot_sub]
  elsewhere := by
    intro diff key v other apart
    cases known : diff.getSub key with
    | some inner => simp [scanNew, known]
    | none =>
        cases found : old.get key with
        | none => cases v <;> simp [scanNew, known, found, apart]
        | some w =>
            cases differ : v.differs w <;> cases v <;> cases w <;>
              simp [scanNew, known, found, differ, apart]

theorem scanOld_distinct (recur : Table K V → Table K V → Diff K V) (new : Table K V)
    (entries : List (K × Value K V)) {diff : Building K V} (distinct : diff.Distinct) :
    (entries.foldl (scanOld recur new) diff).Distinct := by
  induction entries generalizing diff with
  | nil => exact distinct
  | cons entry rest ih =>
      rw [List.foldl_cons]
      apply ih
      simp only [scanOld]
      split
      · exact distinct.putSub _ _
      · exact distinct
      · split <;> exact distinct

theorem scanNew_distinct (recur : Table K V → Table K V → Diff K V) (old : Table K V)
    (entries : List (K × Value K V)) {diff : Building K V} (distinct : diff.Distinct) :
    (entries.foldl (scanNew recur old) diff).Distinct := by
  induction entries generalizing diff with
  | nil => exact distinct
  | cons entry rest ih =>
      rw [List.foldl_cons]
      apply ih
      simp only [scanNew]
      split
      · exact distinct
      · split
        · exact distinct.putSub _ _
        · exact distinct
        · split <;> exact distinct

/-- What the two loops leave at a key, from what the two tables hold there. -/
def slotOf (recur : Table K V → Table K V → Diff K V) :
    Option (Value K V) → Option (Value K V) → Slot K V
  | none, new => ⟨none, False, new⟩
  | some _, none => ⟨none, True, none⟩
  | some (.table a), some (.table b) =>
      if (recur a b).isEmpty then
        ⟨if (recur b a).isEmpty then none else some (recur b a), False, none⟩
      else ⟨some (recur a b), False, none⟩
  | some v, some w => ⟨none, False, if w.differs v then some w else none⟩

/-- The difference under construction after the loop over the old table. -/
def afterOld (recur : Table K V → Table K V → Diff K V) (old new : Table K V) :
    Building K V :=
  old.pairs.foldl (scanOld recur new) ⟨[], .empty, []⟩

theorem afterOld_slot (recur : Table K V → Table K V → Diff K V) (old new : Table K V)
    (key : K) :
    (afterOld recur old new).slot key =
      match old.get key with
      | none => ⟨none, False, none⟩
      | some v => oldUpdate recur new key v ⟨none, False, none⟩ := by
  have start : Building.slot (⟨[], .empty, []⟩ : Building K V) key = ⟨none, False, none⟩ := by
    simp [Building.slot, Building.getSub, Table.get]
  cases found : old.get key with
  | none =>
      rw [afterOld, (scanOld_isLocal recur new).foldl_of_notMem _ _ _
        (Table.notMem_pairs_of_get found), start]
  | some v =>
      rw [afterOld, (scanOld_isLocal recur new).foldl_of_mem old.pairs_keys_nodup _
        ((Table.mem_pairs old key v).mpr found), start]

/-- The two loops compute `slotOf` at every key. -/
theorem building_slot (recur : Table K V → Table K V → Diff K V) (old new : Table K V)
    (key : K) :
    (new.pairs.foldl (scanNew recur old) (afterOld recur old new)).slot key =
      slotOf recur (old.get key) (new.get key) := by
  cases foundNew : new.get key with
  | none =>
      rw [(scanNew_isLocal recur old).foldl_of_notMem _ _ _
        (Table.notMem_pairs_of_get foundNew), afterOld_slot]
      cases foundOld : old.get key with
      | none => rfl
      | some v => cases v <;> simp [oldUpdate, foundNew, slotOf]
  | some w =>
      rw [(scanNew_isLocal recur old).foldl_of_mem new.pairs_keys_nodup _
        ((Table.mem_pairs new key w).mpr foundNew), afterOld_slot]
      cases foundOld : old.get key with
      | none => simp [newUpdate, foundOld, slotOf]
      | some v =>
          cases v with
          | scalar v =>
              cases differ : w.differs (.scalar v) <;>
                simp [oldUpdate, newUpdate, foundNew, foundOld, slotOf, differ]
          | table a =>
              cases w with
              | scalar w => simp [oldUpdate, newUpdate, foundNew, foundOld, slotOf, Value.differs]
              | table b =>
                  cases empty : (recur a b).isEmpty <;>
                    simp [oldUpdate, newUpdate, foundNew, foundOld, slotOf, empty]

/-! ## The difference of two tables -/

/-- What a recursive call of `table_diff` must achieve on two sub-tables. -/
structure Exact (recur : Table K V → Table K V → Diff K V) (old new : Table K V) : Prop where
  isEmpty_iff : (recur old new).isEmpty = true ↔ old.Same new
  apply : (recur old new).apply old.denote = some new.denote

/-- A pair of values at one key has an empty slot exactly when they agree. -/
theorem slotOf_empty_iff {recur : Table K V → Table K V → Diff K V}
    {old new : Option (Value K V)}
    (inner : ∀ a b, old = some (.table a) → new = some (.table b) →
      Exact recur a b ∧ Exact recur b a) :
    slotOf recur old new = ⟨none, False, none⟩ ↔
      old.map Value.denote = new.map Value.denote := by
  cases old with
  | none => cases new <;> simp [slotOf]
  | some v =>
      cases new with
      | none => simp [slotOf]
      | some w =>
          cases v with
          | scalar v =>
              cases w with
              | scalar w =>
                  by_cases same : w = v <;>
                    simp [slotOf, Value.differs, Value.denote, same, Ne.symm]
              | table b => simp [slotOf, Value.differs, Value.denote]
          | table a =>
              cases w with
              | scalar w => simp [slotOf, Value.differs, Value.denote]
              | table b =>
                  obtain ⟨forth, back⟩ := inner a b rfl rfl
                  by_cases same : a.Same b
                  · have emptyForth := forth.isEmpty_iff.mpr same
                    have emptyBack := back.isEmpty_iff.mpr same.symm
                    have meaning : a.denote = b.denote := same
                    simp [slotOf, emptyForth, emptyBack, Value.denote, meaning]
                  · have fullForth : (recur a b).isEmpty = false :=
                      Bool.eq_false_iff.mpr fun empty => same (forth.isEmpty_iff.mp empty)
                    have meaning : a.denote ≠ b.denote := same
                    simp [slotOf, fullForth, Value.denote, meaning]

/-- A slot with a sub-difference belongs to two tables, which it leads between. -/
theorem slotOf_of_sub {recur : Table K V → Table K V → Diff K V}
    {old new : Option (Value K V)} {found : Diff K V}
    (inner : ∀ a b, old = some (.table a) → new = some (.table b) →
      Exact recur a b ∧ Exact recur b a)
    (sub : (slotOf recur old new).sub = some found) :
    ∃ a b, old = some (.table a) ∧ new = some (.table b) ∧
      found.apply a.denote = some b.denote ∧
      slotOf recur old new = ⟨some found, False, none⟩ := by
  cases old with
  | none => cases sub
  | some v =>
      cases new with
      | none => simp [slotOf] at sub
      | some w =>
          cases v with
          | scalar v => simp [slotOf] at sub
          | table a =>
              cases w with
              | scalar w => simp [slotOf] at sub
              | table b =>
                  obtain ⟨forth, back⟩ := inner a b rfl rfl
                  cases empty : (recur a b).isEmpty with
                  | true =>
                      have same := forth.isEmpty_iff.mp empty
                      simp [slotOf, empty, back.isEmpty_iff.mpr same.symm] at sub
                  | false =>
                      have same : recur a b = found := by simpa [slotOf, empty] using sub
                      subst same
                      exact ⟨a, b, rfl, rfl, forth.apply, by simp [slotOf, empty]⟩

/-- Without a sub-difference, deleting and then assigning gives the new value. -/
theorem slotOf_flat {recur : Table K V → Table K V → Diff K V}
    {old new : Option (Value K V)} {deleted : Prop} [Decidable deleted]
    {modified : Option (Value K V)}
    (inner : ∀ a b, old = some (.table a) → new = some (.table b) →
      Exact recur a b ∧ Exact recur b a)
    (slot : slotOf recur old new = ⟨none, deleted, modified⟩) :
    (modified.map Value.denote).or (if deleted then none else old.map Value.denote) =
      new.map Value.denote := by
  by_cases change : slotOf recur old new = ⟨none, False, none⟩
  · have agree := (slotOf_empty_iff inner).mp change
    obtain ⟨noDelete, noModify⟩ : deleted = False ∧ modified = none := by
      simpa using slot.symm.trans change
    simp [noDelete, noModify, agree]
  · cases old with
    | none =>
        obtain ⟨noDelete, modify⟩ : False = deleted ∧ new = modified := by
          simpa [slotOf] using slot
        simp [← noDelete, ← modify]
    | some v =>
        cases new with
        | none =>
            obtain ⟨delete, noModify⟩ : True = deleted ∧ none = modified := by
              simpa [slotOf] using slot
            simp [← delete, ← noModify]
        | some w =>
            cases v with
            | scalar v =>
                have shape : slotOf recur (some (.scalar v)) (some w) =
                    ⟨none, False, if w.differs (.scalar v) then some w else none⟩ := by
                  simp only [slotOf]
                rw [shape] at slot change
                cases differ : w.differs (.scalar v) with
                | false => simp [differ] at change
                | true =>
                    obtain ⟨noDelete, modify⟩ : False = deleted ∧ some w = modified := by
                      simpa [differ] using slot
                    simp [← noDelete, ← modify]
            | table a =>
                cases w with
                | scalar w =>
                    obtain ⟨noDelete, modify⟩ : False = deleted ∧ some (.scalar w) = modified := by
                      simpa [slotOf, Value.differs] using slot
                    simp [← noDelete, ← modify]
                | table b =>
                    -- a pair of tables always gets a sub-difference or no change
                    cases empty : (recur a b).isEmpty <;> cases back : (recur b a).isEmpty <;>
                      simp_all [slotOf]

/-- One unfolding of `table_diff` is exact when its recursive calls are. -/
theorem exact_of_recur (recur : Table K V → Table K V → Diff K V) (old new : Table K V)
    (inner : ∀ key a b, old.get key = some (.table a) → new.get key = some (.table b) →
      Exact recur a b ∧ Exact recur b a)
    (diff : Building K V) (distinct : diff.Distinct)
    (slots : ∀ key, diff.slot key = slotOf recur (old.get key) (new.get key)) :
    (diff.finish.isEmpty = true ↔ old.Same new) ∧
      diff.finish.apply old.denote = some new.denote := by
  constructor
  · rw [diff.finish_isEmpty_iff]
    have perKey (key : K) : diff.slot key = ⟨none, False, none⟩ ↔
        old.denote key = new.denote key := by
      rw [slots, slotOf_empty_iff (inner key), ← Table.denote_apply, ← Table.denote_apply]
    simp only [perKey]
    exact funext_iff.symm
  · apply Diff.apply_ofParts _ _ _ _ distinct
    · rintro ⟨key, entry⟩ member
      have known : diff.getSub key = some entry := distinct.getSub_of_mem member
      have here := slots key
      have sub : (slotOf recur (old.get key) (new.get key)).sub = some entry := by
        rw [← here]; exact known
      obtain ⟨a, b, oldTable, newTable, happly, whole⟩ := slotOf_of_sub (inner key) sub
      rw [whole] at here
      refine ⟨a.denote, b.denote, ?_, happly, ?_, ?_, ?_⟩
      · exact (old.denote_eq_table_iff key _).mpr ⟨a, oldTable, rfl⟩
      · exact (new.denote_eq_table_iff key _).mpr ⟨b, newTable, rfl⟩
      · exact (diff.mod.denote_eq_none_iff key).mpr (congrArg Slot.modified here)
      · exact of_eq_false (congrArg Slot.deleted here)
    · intro key absent
      have unknown : diff.getSub key = none := (diff.getSub_eq_none_iff key).mpr absent
      have here : slotOf recur (old.get key) (new.get key) =
          ⟨none, key ∈ diff.del, diff.mod.get key⟩ := by
        rw [← slots key, ← unknown]; rfl
      simpa [Table.denote_apply] using slotOf_flat (inner key) here

/-- `table_diff` is exact when its fuel exceeds the depth it has to descend. -/
theorem tableDiff_exact (fuel : Nat) (old new : Table K V)
    (enough : min old.depth new.depth < fuel) : Exact (tableDiff fuel) old new := by
  induction fuel generalizing old new with
  | zero => omega
  | succ fuel ih =>
      have inner : ∀ key a b, old.get key = some (.table a) → new.get key = some (.table b) →
          Exact (tableDiff fuel) a b ∧ Exact (tableDiff fuel) b a := by
        intro key a b oldTable newTable
        have shallowA := Table.depth_lt_of_get oldTable
        have shallowB := Table.depth_lt_of_get newTable
        exact ⟨ih a b (by omega), ih b a (by omega)⟩
      have start : Building.Distinct (⟨[], .empty, []⟩ : Building K V) := List.nodup_nil
      have whole := exact_of_recur (tableDiff fuel) old new inner
        (new.pairs.foldl (scanNew (tableDiff fuel) old) (afterOld (tableDiff fuel) old new))
        (scanNew_distinct _ _ _ (scanOld_distinct _ _ _ start))
        (building_slot (tableDiff fuel) old new)
      exact ⟨whole.1, whole.2⟩

/-- `ltdiff.diff` is `nil` exactly on structurally equal tables. -/
theorem ltdiff_eq_none_iff (old new : Table K V) : ltdiff old new = none ↔ old.Same new := by
  have exact := tableDiff_exact (old.depth + 1) old new (by omega)
  rw [← exact.isEmpty_iff]
  simp [ltdiff]

/-- A difference that `ltdiff.diff` returns leads from the old table to the new one. -/
theorem ltdiff_apply {old new : Table K V} {diff : Diff K V}
    (found : ltdiff old new = some diff) : diff.apply old.denote = some new.denote := by
  have exact := tableDiff_exact (old.depth + 1) old new (by omega)
  have same : tableDiff (old.depth + 1) old new = diff := by
    simp only [ltdiff] at found
    split at found
    · cases found
    · exact Option.some.inj found
  rw [← same]
  exact exact.apply

/-- Patching any copy of the old table gives a copy of the new one. -/
theorem tablePatch_ltdiff {old new t : Table K V} {diff : Diff K V}
    (found : ltdiff old new = some diff) (copy : t.Same old) :
    ∃ patched, tablePatch diff t = some patched ∧ patched.Same new := by
  have action := denote_tablePatch diff t
  have meaning : t.denote = old.denote := copy
  rw [meaning, ltdiff_apply found] at action
  obtain ⟨patched, done, same⟩ := Option.map_eq_some_iff.mp action
  exact ⟨patched, done, same⟩

end Difference

end WindLtask
