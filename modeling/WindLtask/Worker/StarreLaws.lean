import Mathlib.Data.List.Nodup
import WindLtask.Worker.Starre

/-!
# What a query leaves in the caches

`update_state` brings a cache entry to the cell's value when the entry is missing,
belongs to an earlier version of the same cell, or carries a version that cannot
be taken for one of the cell's own.  The loop of `__close` then moves every
changed entry one version on.
-/

set_option linter.unusedSectionVars false

namespace WindLtask

variable {Name Addr K V : Type} [DecidableEq Name] [DecidableEq K] [DecidableEq V]

/-- A cached version and table from which `update_state` reaches the value of the cell. -/
inductive Fits (initial : Table K V) (cell : Cell K V) :
    Option Nat → Option (Table K V) → Prop where
  | absent (map : Option (Table K V)) : Fits initial cell none map
  | earlier (v : Nat) (map value : Table K V) (bound : v ≤ cell.version)
      (reached : replay initial (cell.patches.take v) = some value) (same : value.Same map) :
      Fits initial cell (some v) (some map)
  | ahead (v : Nat) (map : Option (Table K V)) (above : cell.version < v) :
      Fits initial cell (some v) map
  | zero (map : Option (Table K V)) (moved : 0 < cell.version) : Fits initial cell (some 0) map

/-- A cached version and table that are those of the cell fit it. -/
theorem Fits.of_current {initial old : Table K V} {cell : Cell K V} (grown : cell.Grown initial)
    (same : cell.t.Same old) : Fits initial cell (some cell.version) (some old) := by
  refine .earlier cell.version old cell.t (Nat.le_refl _) ?_ same
  rw [List.take_of_length_le (Nat.le_of_eq grown.version.symm)]
  exact grown.value

/-- The caches with one entry set. -/
def Cache.store (cache : Cache Name K V) (name : Name) (version : Nat) (table : Table K V) :
    Cache Name K V where
  stateMap := Function.update cache.stateMap name (some table)
  stateVersion := Function.update cache.stateVersion name (some version)

theorem Cache.store_self {cache : Cache Name K V} {name : Name} {version : Nat}
    {table : Table K V} (sameVersion : cache.stateVersion name = some version)
    (sameMap : cache.stateMap name = some table) : cache.store name version table = cache := by
  rw [Cache.store, ← sameVersion, ← sameMap, Function.update_eq_self, Function.update_eq_self]

/-- An answer that carries the whole table. -/
theorem updateState_of_state {cache : Cache Name K V} {name : Name} {version : Nat}
    {t : Table K V} (differs : cache.stateVersion name ≠ some version) :
    updateState cache name ⟨version, some t, none⟩ = (cache.store name version t, some t) := by
  simp [updateState, differs, Cache.store]

/-- A query from a fitting cache entry returns the value that the cell holds. -/
theorem updateState_of_fits {initial : Table K V} {cell : Cell K V} (grown : cell.Grown initial)
    (cache : Cache Name K V) (name : Name)
    (fits : Fits initial cell (cache.stateVersion name) (cache.stateMap name)) :
    ∃ old, updateState cache name (cell.query (cache.stateVersion name)) =
      (cache.store name cell.version old, some old) ∧ cell.t.Same old := by
  generalize atVersion : cache.stateVersion name = version at fits
  generalize atMap : cache.stateMap name = map at fits
  cases fits with
  | absent map =>
      refine ⟨cell.t, ?_, Table.Same.refl _⟩
      exact updateState_of_state (by simp [atVersion])
  | zero map moved =>
      refine ⟨cell.t, ?_, Table.Same.refl _⟩
      refine updateState_of_state ?_
      rw [atVersion]
      simp only [ne_eq, Option.some.injEq]
      omega
  | ahead v map above =>
      refine ⟨cell.t, ?_, Table.Same.refl _⟩
      have notZero : v ≠ 0 := by omega
      have notSame : v ≠ cell.version := by omega
      have beyond : cell.patches[v]? = none :=
        List.getElem?_eq_none (by rw [← grown.version]; omega)
      have answer : cell.query (some v) = ⟨cell.version, some cell.t, none⟩ := by
        simp [Cell.query, notZero, notSame, beyond]
      rw [answer]
      exact updateState_of_state (by rw [atVersion]; simpa using notSame)
  | earlier v map value bound reached same =>
      have whole := grown.value
      rw [← List.take_append_drop v cell.patches, replay_append, reached] at whole
      by_cases current : v = cell.version
      · subst current
        have all : value = cell.t := by
          rw [List.drop_of_length_le (Nat.le_of_eq grown.version.symm)] at whole
          simpa using whole
        refine ⟨map, ?_, all ▸ same⟩
        rw [Cache.store_self atVersion atMap]
        simp [updateState, atVersion, cell.query_version, atMap]
      · by_cases atZero : v = 0
        · subst atZero
          refine ⟨cell.t, ?_, Table.Same.refl _⟩
          exact updateState_of_state (by rw [atVersion]; simpa using current)
        · have inside : v < cell.patches.length := by rw [← grown.version]; omega
          have answer : cell.query (some v) =
              ⟨cell.version, none, some (cell.patches.drop v)⟩ := by
            simp [Cell.query, atZero, current, inside]
          obtain ⟨old, replayed, sameOld⟩ := replay_same _ same
            (show replay value (cell.patches.drop v) = some cell.t from whole)
          refine ⟨old, ?_, sameOld⟩
          rw [answer]
          simp [updateState, atVersion, current, atMap, replayed, Cache.store]

namespace Query

theorem commit_of_ne (cache : Cache Name K V) {name n : Name} (change : Option (Diff K V))
    (new : Table K V) (other : n ≠ name) :
    (commit cache name change new).stateVersion n = cache.stateVersion n ∧
      (commit cache name change new).stateMap n = cache.stateMap n := by
  cases change <;> simp [commit, other]

theorem commit_congr {left right : Cache Name K V} {name : Name}
    (version : left.stateVersion name = right.stateVersion name)
    (map : left.stateMap name = right.stateMap name) (change : Option (Diff K V))
    (new : Table K V) :
    (commit left name change new).stateVersion name =
        (commit right name change new).stateVersion name ∧
      (commit left name change new).stateMap name =
        (commit right name change new).stateMap name := by
  cases change with
  | none => exact ⟨version, map⟩
  | some diff => simp only [commit, Function.update_self, version, and_self]

/-- The loop leaves the entries of names alone that have no table. -/
theorem closeLoop_of_notMem {names : List Name} (cache : Cache Name K V)
    (olds news : List (Table K V)) {n : Name} (absent : n ∉ names.take olds.length) :
    (closeLoop cache names olds news).1.stateVersion n = cache.stateVersion n ∧
      (closeLoop cache names olds news).1.stateMap n = cache.stateMap n := by
  induction names generalizing cache olds news with
  | nil => exact ⟨rfl, rfl⟩
  | cons name names ih =>
      cases olds with
      | nil => exact ⟨rfl, rfl⟩
      | cons old olds =>
          cases news with
          | nil => exact ⟨rfl, rfl⟩
          | cons new news =>
              rw [List.length_cons, List.take_succ_cons, List.mem_cons, not_or] at absent
              have rest := ih (commit cache name (ltdiff old new) new) olds news absent.2
              have here := commit_of_ne cache (ltdiff old new) new absent.1
              exact ⟨rest.1.trans here.1, rest.2.trans here.2⟩

/-- What the loop does at one index. -/
theorem closeLoop_at {names : List Name} {olds news : List (Table K V)}
    (cache : Cache Name K V) (distinct : names.Nodup) {i : Nat} {name : Name}
    {old new : Table K V} (atName : names[i]? = some name) (atOld : olds[i]? = some old)
    (atNew : news[i]? = some new) :
    (closeLoop cache names olds news).1.stateVersion name =
        (commit cache name (ltdiff old new) new).stateVersion name ∧
      (closeLoop cache names olds news).1.stateMap name =
        (commit cache name (ltdiff old new) new).stateMap name := by
  induction names generalizing cache olds news i with
  | nil => simp at atName
  | cons first names ih =>
      obtain ⟨fresh, distinct⟩ := List.nodup_cons.mp distinct
      cases olds with
      | nil => simp at atOld
      | cons old' olds =>
          cases news with
          | nil => simp at atNew
          | cons new' news =>
              cases i with
              | zero =>
                  simp only [List.getElem?_cons_zero, Option.some.injEq] at atName atOld atNew
                  subst atName atOld atNew
                  exact closeLoop_of_notMem _ olds news fun member =>
                    fresh (List.mem_of_mem_take member)
              | succ i =>
                  simp only [List.getElem?_cons_succ] at atName atOld atNew
                  have other : name ≠ first := by
                    rintro rfl
                    exact fresh (List.mem_of_getElem? atName)
                  have rest := ih (commit cache first (ltdiff old' new') new') distinct
                    atName atOld atNew
                  have here := commit_of_ne cache (ltdiff old' new') new' other
                  have same := commit_congr here.1 here.2 (ltdiff old new) new
                  exact ⟨rest.1.trans same.1, rest.2.trans same.2⟩

/-- The patch map of a query that has all its tables. -/
theorem closeLoop_patchMap {names : List Name} {olds news : List (Table K V)}
    (cache : Cache Name K V) (distinct : names.Nodup) (oldLength : olds.length = names.length)
    (newLength : news.length = names.length) :
    (closeLoop cache names olds news).2 = some (names.zip (List.zipWith ltdiff olds news)) := by
  induction names generalizing cache olds news with
  | nil => rfl
  | cons name names ih =>
      obtain ⟨fresh, distinct⟩ := List.nodup_cons.mp distinct
      obtain ⟨old, olds, rfl⟩ := List.exists_cons_of_length_eq_add_one oldLength
      obtain ⟨new, news, rfl⟩ := List.exists_cons_of_length_eq_add_one newLength
      have rest := ih (commit cache name (ltdiff old new) new) distinct (by simpa using oldLength)
        (by simpa using newLength)
      have absent : ((names.zip (List.zipWith ltdiff olds news)).any
          fun entry => entry.1 = name) = false := by
        rw [List.any_eq_false]
        intro entry member same
        have same : entry.1 = name := by simpa using same
        exact fresh (same ▸ (List.of_mem_zip member).1)
      simp [closeLoop, rest, absent]

/-- A query that misses a table raises in the fork. -/
theorem closeLoop_short {names : List Name} {olds news : List (Table K V)}
    (cache : Cache Name K V) (lengths : olds.length = news.length)
    (short : olds.length < names.length) : (closeLoop cache names olds news).2 = none := by
  induction names generalizing cache olds news with
  | nil => simp at short
  | cons name names ih =>
      cases olds with
      | nil => rfl
      | cons old olds =>
          obtain ⟨new, news, rfl⟩ := List.exists_cons_of_length_eq_add_one lengths.symm
          have rest := ih (commit cache name (ltdiff old new) new) (by simpa using lengths)
            (by simpa using short)
          simp [closeLoop, rest]

end Query

end WindLtask
