import WindLtask.Cell.Sync

/-!
# Differences that do not fit

`table_patch` raises where it would index a scalar or `nil`, with what it has done
until then left in the tables.  Whether it does is a matter of shape: every `sub`
entry with something to do must lie under a key that holds a table.
-/

set_option linter.unusedSectionVars false

namespace WindLtask

open Lib

variable {K V : Type} [DecidableEq K]

/-! ## Shape -/

namespace Diff

/-- Every `sub` entry that has something to do lies under a key that holds a table. -/
def Fits : Diff K V → Table K V → Prop
  | .flat _ _, _ => True
  | .sub key inner rest, t =>
      (match t.get key with
        | some (.table below) => inner.Fits below
        | _ => inner.isEmpty = true) ∧ rest.Fits t

/-- Every difference of the list fits the table that those before it make. -/
def FitsAll : List (Diff K V) → Table K V → Prop
  | [], _ => True
  | diff :: rest, t => diff.Fits t ∧ ∀ patched, tablePatch diff t = some patched →
      FitsAll rest patched

/-- What is left of a table, whether the difference is applied to the end or raises. -/
def leaves : Diff K V → Entries K V → Entries K V
  | .flat del mod, entries =>
      fun k => (mod.denote k).or (if k ∈ del then none else entries k)
  | .sub key inner rest, entries =>
      match entries key with
      | some (.table below) =>
          let entries := Function.update entries key (some (.table (inner.leaves below)))
          if (inner.apply below).isSome then rest.leaves entries else entries
      | _ => if inner.isEmpty then rest.leaves entries else entries

theorem leaves_of_noTable {key : K} {inner rest : Diff K V} {entries : Entries K V}
    (noTable : ∀ below, entries key ≠ some (.table below)) :
    (Diff.sub key inner rest).leaves entries =
      if inner.isEmpty then rest.leaves entries else entries := by
  rw [leaves]
  split
  · next below entry => exact absurd entry (noTable below)
  · rfl

/-- Only the keys that the difference enters matter. -/
theorem fits_congr {d : Diff K V} {left right : Table K V}
    (same : ∀ k path, d.Enters (k :: path) → left.get k = right.get k) :
    d.Fits left ↔ d.Fits right := by
  induction d with
  | flat del mod => exact Iff.rfl
  | sub key inner rest _ ihRest =>
      simp only [Fits, same key [] (.inl rfl)]
      rw [ihRest fun k path enters => same k path (.inr (.inr enters))]

end Diff

/-- `table_patch` returns on the tables that the difference fits. -/
theorem tablePatch_isSome_iff {d : Diff K V} (distinct : d.Distinct) (t : Table K V) :
    (tablePatch d t).isSome ↔ d.Fits t := by
  induction d generalizing t with
  | flat del mod => simp [tablePatch, Diff.Fits]
  | sub key inner rest ihInner ihRest =>
      obtain ⟨distinctInner, distinctRest, fresh⟩ := distinct
      simp only [tablePatch, Diff.Fits]
      cases entry : t.get key with
      | none => cases inner.isEmpty <;> simp [ihRest distinctRest]
      | some value =>
          cases value with
          | scalar v => cases inner.isEmpty <;> simp [ihRest distinctRest]
          | table sub =>
              -- the rest does not look at the table that has been patched
              have later : ∀ patched, (tablePatch rest (t.set key (.table patched))).isSome ↔
                  rest.Fits t := by
                intro patched
                rw [ihRest distinctRest]
                refine Diff.fits_congr fun k path enters => ?_
                have apart : k ≠ key := fun same => fresh path (same ▸ enters)
                rw [Table.get_set, if_neg apart]
              dsimp only
              rw [← ihInner distinctInner sub]
              cases patched : tablePatch inner sub with
              | none => simp
              | some table => simp [later]

/-! ## In place -/

namespace Heap

/-- `table_patch` in place raises where the difference has no meaning. -/
theorem tablePatch_raises (stored : Stored K V) {h : Heap K V} {a : Nat} {diff : Diff K V}
    {entries : Entries K V} (fit : Fit h a stored diff entries)
    (action : diff.apply entries = none) : (tablePatch stored a h).2 = false := by
  induction stored generalizing h a diff entries with
  | flat del mod =>
      cases diff with
      | sub => exact fit.stored.elim
      | flat del' mod' => cases action
  | sub key inner rest ihInner ihRest =>
      cases diff with
      | flat => exact fit.stored.elim
      | sub key' inner' rest' =>
          obtain rfl : key = key' := fit.stored.1
          by_cases table : ∃ below, entries key = some (.table below)
          · obtain ⟨below, entry⟩ := table
            obtain ⟨b, field, shownBelow⟩ := fit.shown.table entry
            have descended := fit.descend field shownBelow
            simp only [Diff.apply, entry] at action
            cases innerDone : inner'.apply below with
            | none => simp [tablePatch, field, ihInner descended innerDone]
            | some patched =>
                -- the inner difference has been applied when the rest raises
                obtain ⟨returned, inside⟩ := tablePatch_spec inner descended innerDone
                obtain ⟨h₁, step, inside'⟩ := tablePatch_of_inner fit field returned inside
                rw [step]
                exact ihRest (fit.resume field inside') (by simpa [innerDone] using action)
          · have noTable : ∀ below, entries key ≠ some (.table below) :=
              fun below entry => table ⟨below, entry⟩
            rw [Diff.apply_of_noTable noTable] at action
            rw [tablePatch_of_noTable fit noTable]
            cases empty : inner'.isEmpty with
            | false => rfl
            | true => exact ihRest fit.skip (by simpa [empty] using action)

/-- Whether `table_patch` returns is a matter of what the tables show. -/
theorem tablePatch_returns (stored : Stored K V) {h : Heap K V} {a : Nat} {diff : Diff K V}
    {entries : Entries K V} (fit : Fit h a stored diff entries) :
    (tablePatch stored a h).2 = (diff.apply entries).isSome := by
  cases action : diff.apply entries with
  | none => exact tablePatch_raises stored fit action
  | some final => exact (tablePatch_spec stored fit action).1

/-- Where nothing has been done yet. -/
theorem Patched.start {stored : Stored K V} {h : Heap K V} {a : Nat} {diff : Diff K V}
    {entries : Entries K V} (fit : Fit h a stored diff entries) :
    Patched h h a stored diff entries where
  free := rfl
  frame := fun _ _ _ => rfl
  track := fun _ _ reach => .inl reach
  shown := fit.shown

/-- What `table_patch` has done in place, whether it returns or raises. -/
theorem tablePatch_leaves (stored : Stored K V) {h : Heap K V} {a : Nat} {diff : Diff K V}
    {entries : Entries K V} (fit : Fit h a stored diff entries) :
    Patched h (tablePatch stored a h).1 a stored diff (diff.leaves entries) := by
  induction stored generalizing h a diff entries with
  | flat del mod =>
      cases diff with
      | sub => exact fit.stored.elim
      | flat del' mod' => exact (tablePatch_spec _ fit rfl).2
  | sub key inner rest ihInner ihRest =>
      cases diff with
      | flat => exact fit.stored.elim
      | sub key' inner' rest' =>
          obtain rfl : key = key' := fit.stored.1
          by_cases table : ∃ below, entries key = some (.table below)
          · obtain ⟨below, entry⟩ := table
            obtain ⟨b, field, shownBelow⟩ := fit.shown.table entry
            have descended := fit.descend field shownBelow
            have inside := ihInner descended
            have returns := tablePatch_returns inner descended
            simp only [Diff.leaves, entry, ← returns]
            cases returned : (tablePatch inner b h).2 with
            | true =>
                obtain ⟨h₁, step, inside'⟩ := tablePatch_of_inner fit field returned inside
                rw [step, if_pos rfl]
                exact .join fit field inside' (ihRest (fit.resume field inside'))
            | false =>
                have stops : tablePatch (.sub key inner rest) a h =
                    ((tablePatch inner b h).1, false) := by
                  simp [tablePatch, field, returned]
                rw [stops, if_neg Bool.false_ne_true]
                exact .within fit field inside
          · have noTable : ∀ below, entries key ≠ some (.table below) :=
              fun below entry => table ⟨below, entry⟩
            rw [Diff.leaves_of_noTable noTable, tablePatch_of_noTable fit noTable]
            cases inner'.isEmpty with
            | true => exact (ihRest fit.skip).skip
            | false => exact .start fit

/-- On a tree that shows `t`, the call returns exactly when the difference fits `t`. -/
theorem tablePatch_returns_iff {stored : Stored K V} {h : Heap K V} {a : Nat} {diff : Diff K V}
    {t : Table K V} (fit : Fit h a stored diff t.denote) :
    (tablePatch stored a h).2 = true ↔ diff.Fits t := by
  rw [tablePatch_returns stored fit, ← tablePatch_isSome_iff fit.distinct, ← denote_tablePatch,
    Option.isSome_map]

/-- Where it returns, the tree shows the patched table. -/
theorem tablePatch_table {stored : Stored K V} {h : Heap K V} {a : Nat} {diff : Diff K V}
    {t : Table K V} (fit : Fit h a stored diff t.denote) (fits : diff.Fits t) :
    ∃ patched, WindLtask.tablePatch diff t = some patched ∧
      Patched h (tablePatch stored a h).1 a stored diff patched.denote := by
  obtain ⟨patched, done⟩ :=
    Option.isSome_iff_exists.mp ((tablePatch_isSome_iff fit.distinct t).mpr fits)
  have action := denote_tablePatch diff t
  rw [done, Option.map_some] at action
  exact ⟨patched, done, (tablePatch_spec stored fit action.symm).2⟩

end Heap

/-! ## `S.patch` -/

namespace SharedCell

/-- Whether `ltdiff.patch` returns in `S.patch(diff)`. -/
def returns (s : SharedCell K V) (diff : Diff K V) : Bool :=
  let (h, stored) := Heap.unpackDiff diff s.heap
  (Heap.tablePatch stored s.t h).2

/--
`S.patch(diff)` on a cell with the state `t` is all or nothing: a call that raises
leaves `version`, `patches` and `t` as they were, and a call that returns adds one
version and the difference, and patches `t`.
-/
def AllOrNothing (s : SharedCell K V) (t : Table K V) (diff : Diff K V) : Prop :=
  let s' := s.patch diff
  if s.returns diff then
    s'.version = s.version + 1 ∧
      (∃ stored, s'.patches = s.patches ++ [stored] ∧ stored.Shows s'.heap.get diff) ∧
      ∃ patched, tablePatch diff t = some patched ∧
        s'.heap.Holds s'.heap.free s'.t patched.denote
  else
    s'.version = s.version ∧ s'.patches = s.patches ∧
      s'.heap.Holds s'.heap.free s'.t t.denote

variable {s : SharedCell K V} {t : Table K V} {diff : Diff K V}

theorem returns_iff (holds : s.heap.Holds s.heap.free s.t t.denote) (distinct : diff.Distinct) :
    s.returns diff = true ↔ diff.Fits t := by
  have unpacked := Heap.unpackDiff_spec diff s.heap
  exact Heap.tablePatch_returns_iff (holds.fit_unpacked distinct unpacked).2

/-- The state stays a tree, also where `ltdiff.patch` raises. -/
theorem patch_holds {entries : Entries K V}
    (holds : s.heap.Holds s.heap.free s.t entries) (distinct : diff.Distinct) :
    (s.patch diff).heap.Holds (s.patch diff).heap.free (s.patch diff).t
      (diff.leaves entries) := by
  have unpacked := Heap.unpackDiff_spec diff s.heap
  obtain ⟨old, fit⟩ := holds.fit_unpacked distinct unpacked
  have after := Heap.tablePatch_leaves _ fit
  have holdsNow := after.holds fit old unpacked.grows fun path l reaches =>
    (unpacked.fresh path l reaches).2
  rwa [← after.free] at holdsNow

/-- In every state that patches lead to, `t` is a tree. -/
theorem tree_of_patches (t : Table K V) {diffs : List (Diff K V)}
    (distinct : ∀ diff ∈ diffs, diff.Distinct) :
    ∃ now : Table K V, (diffs.foldl patch (start t)).heap.Holds
      (diffs.foldl patch (start t)).heap.free (diffs.foldl patch (start t)).t now.denote := by
  have run : ∀ (s : SharedCell K V) (entries : Entries K V),
      s.heap.Holds s.heap.free s.t entries → ∃ entries', (diffs.foldl patch s).heap.Holds
        (diffs.foldl patch s).heap.free (diffs.foldl patch s).t entries' := by
    induction diffs with
    | nil => exact fun s entries holds => ⟨entries, holds⟩
    | cons diff rest ih =>
        intro s entries holds
        exact ih (fun d member => distinct d (List.mem_cons_of_mem _ member)) _ _
          (patch_holds holds (distinct diff List.mem_cons_self))
  obtain ⟨entries, holds⟩ := run _ _ (start_holds t)
  obtain ⟨bound, packed⟩ := Heap.pack_of_shows holds.shown
  obtain ⟨now, -, meaning⟩ := packed bound (Nat.le_refl _)
  exact ⟨now, meaning ▸ holds⟩

/-- A difference that fits is applied, stored and counted. -/
theorem patch_of_fits (holds : s.heap.Holds s.heap.free s.t t.denote) (distinct : diff.Distinct)
    (fits : diff.Fits t) : s.AllOrNothing t diff := by
  have unpacked := Heap.unpackDiff_spec diff s.heap
  obtain ⟨old, fit⟩ := holds.fit_unpacked distinct unpacked
  obtain ⟨patched, done, after⟩ := Heap.tablePatch_table fit fits
  have holdsNow := after.holds fit old unpacked.grows fun path l reaches =>
    (unpacked.fresh path l reaches).2
  rw [← after.free] at holdsNow
  rw [AllOrNothing, if_pos ((returns_iff holds distinct).mpr fits)]
  exact ⟨rfl, ⟨_, rfl, unpacked.shown.frame (after.own fit)⟩, patched, done, holdsNow⟩

/-- Where `ltdiff.patch` raises, the version has moved already. -/
theorem not_allOrNothing (raises : s.returns diff = false) : ¬ s.AllOrNothing t diff := by
  rw [AllOrNothing, if_neg (by simp [raises])]
  rintro ⟨version, -⟩
  exact absurd version (Nat.succ_ne_self _)

theorem allOrNothing_iff_fits (holds : s.heap.Holds s.heap.free s.t t.denote)
    (distinct : diff.Distinct) : s.AllOrNothing t diff ↔ diff.Fits t := by
  refine ⟨fun whole => ?_, patch_of_fits holds distinct⟩
  by_contra misfit
  refine not_allOrNothing ?_ whole
  rw [← returns_iff holds distinct] at misfit
  simpa using misfit

end SharedCell

end WindLtask
