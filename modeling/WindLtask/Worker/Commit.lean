import WindLtask.Worker.StarreLaws

/-!
# The changes that a query commits

What the function that `__close` forks computes for one returned table, and what
the cell makes of it: a difference exists exactly when the handler has changed
the table, the cell that applies it holds the table as the handler left it, and
a query that changes nothing moves no version.
-/

set_option linter.unusedSectionVars false

namespace WindLtask

variable {Name Addr K V : Type} [DecidableEq Name] [DecidableEq K] [DecidableEq V]

/-- A cell that holds a copy of the old table takes the difference and then holds the new one. -/
theorem Cell.patch_ltdiff {old new : Table K V} {diff : Diff K V}
    (found : ltdiff old new = some diff) (cell : Cell K V) (copy : cell.t.Same old) :
    (cell.patch diff).2 = true ∧ (cell.patch diff).1.t.Same new := by
  obtain ⟨patched, taken, same⟩ := tablePatch_ltdiff found copy
  have after : cell.patch diff =
      (⟨patched, cell.version + 1, cell.patches ++ [diff]⟩, true) := by
    simp [Cell.patch, taken]
  rw [after]
  exact ⟨rfl, same⟩

/-- `table.clone` makes a table that `ltdiff.diff` does not tell from its original. -/
theorem ltdiff_clone (t : Table K V) : ltdiff t t.clone = none :=
  (ltdiff_eq_none_iff t t.clone).mpr t.denote_clone.symm

namespace Query

/-- The query as a handler leaves it that writes to none of its tables. -/
def unwritten (q : Query Name Addr K V) : Query Name Addr K V :=
  { q with newList := q.oldList.map Table.clone }

/-- The forked loop leaves the caches alone where no table has been written to. -/
theorem closeLoop_clones (names : List Name) (cache : Cache Name K V) (olds : List (Table K V)) :
    (closeLoop cache names olds (olds.map Table.clone)).1 = cache ∧
      ∀ patchMap, (closeLoop cache names olds (olds.map Table.clone)).2 = some patchMap →
        ∀ entry ∈ patchMap, entry.2 = none := by
  induction names generalizing olds with
  | nil => exact ⟨rfl, by simp [closeLoop]⟩
  | cons name names ih =>
      cases olds with
      | nil => exact ⟨rfl, by simp [closeLoop]⟩
      | cons old olds =>
          obtain ⟨still, later⟩ := ih olds
          simp only [List.map_cons, closeLoop, ltdiff_clone, commit]
          refine ⟨still, fun patchMap done entry member => ?_⟩
          obtain ⟨rest, found, rfl⟩ := Option.map_eq_some_iff.mp done
          split at member
          · exact later rest found entry member
          · rcases List.mem_cons.mp member with rfl | inRest
            · rfl
            · exact later rest found entry inRest

end Query

/--
The difference of two tables is `nil` exactly when they are structurally equal,
and otherwise it takes a cell with the old table to the new one; a table that was
only cloned has none, so a query that only reads moves no version and sends no patch.
-/
theorem commit_exact (old new : Table K V) (q : Query Name Addr K V) (cache : Cache Name K V) :
    (ltdiff old new = none ↔ old.Same new) ∧
      (∀ diff, ltdiff old new = some diff → ∀ cell : Cell K V, cell.t.Same old →
        (cell.patch diff).2 = true ∧ (cell.patch diff).1.t.Same new) ∧
      ltdiff old old.clone = none ∧
      (q.unwritten.close cache).1 = cache ∧
      ∀ patchMap, (q.unwritten.close cache).2 = some patchMap →
        ∀ entry ∈ patchMap, entry.2 = none :=
  ⟨ltdiff_eq_none_iff old new, fun _ found => Cell.patch_ltdiff found, ltdiff_clone old,
    Query.closeLoop_clones q.names cache q.oldList⟩

/-- The key 1 goes from a scalar to a table, the key 2 is deleted and the key 3 is added. -/
example : ltdiff (.scalar 1 5 (.scalar 2 6 .empty) : Table Nat Nat)
      (.table 1 (.scalar 4 7 .empty) (.scalar 3 8 .empty)) =
    some (Diff.ofParts [2] (.table 1 (.scalar 4 7 .empty) (.scalar 3 8 .empty)) []) := by
  decide

end WindLtask
