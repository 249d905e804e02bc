import WindLtask.Cell.Heap

/-!
# What tables of a memory stand for

A slot shows a document, and a stored difference shows the difference that came.
Unpacking makes new tables that show the message, and packing with enough fuel
gives back what is shown.
-/

set_option linter.unusedSectionVars false

namespace WindLtask

open Lib

/-- The slot stands for the document. -/
inductive Shows {L K V : Type} (m : Memory L K V) : Lib.Slot L V → Doc K V → Prop where
  | scalar (value : V) : Shows m (.scalar value) (.scalar value)
  | ref (a : L) (entries : Entries K V) (absent : ∀ k, m a k = none ↔ entries k = none)
      (present : ∀ k slot doc, m a k = some slot → entries k = some doc → Shows m slot doc) :
      Shows m (.ref a) (.table entries)

/-- The fields stand for the entries. -/
structure ShowsFields {L K V : Type} (m : Memory L K V) (f : Record L K V)
    (entries : Entries K V) : Prop where
  absent : ∀ k, f k = none ↔ entries k = none
  present : ∀ k slot doc, f k = some slot → entries k = some doc → Shows m slot doc

section Meaning

variable {L K V : Type} {m m' : Memory L K V} {f f' : Record L K V} {entries : Entries K V}

theorem Shows.fields {a : L} (shown : Shows m (.ref a) (.table entries)) :
    ShowsFields m (m a) entries := by
  cases shown with
  | ref _ _ absent present => exact ⟨absent, present⟩

theorem ShowsFields.shows {a : L} (shown : ShowsFields m (m a) entries) :
    Shows m (.ref a) (.table entries) :=
  .ref a entries shown.absent shown.present

theorem ShowsFields.get {k : K} {slot : Lib.Slot L V} (shown : ShowsFields m f entries)
    (field : f k = some slot) : ∃ doc, entries k = some doc ∧ Shows m slot doc := by
  cases entry : entries k with
  | none => exact nomatch ((shown.absent k).mpr entry).symm.trans field
  | some doc => exact ⟨doc, rfl, shown.present k slot doc field entry⟩

theorem ShowsFields.get_back {k : K} {doc : Doc K V} (shown : ShowsFields m f entries)
    (entry : entries k = some doc) : ∃ slot, f k = some slot ∧ Shows m slot doc := by
  cases field : f k with
  | none => exact nomatch ((shown.absent k).mp field).symm.trans entry
  | some slot => exact ⟨slot, rfl, shown.present k slot doc field entry⟩

/-- A field that stands for a table holds a reference. -/
theorem ShowsFields.table {k : K} {below : Entries K V} (shown : ShowsFields m f entries)
    (entry : entries k = some (.table below)) :
    ∃ b, f k = some (.ref b) ∧ ShowsFields m (m b) below := by
  obtain ⟨slot, field, shows⟩ := shown.get_back entry
  cases shows with
  | ref b _ absent present => exact ⟨b, field, absent, present⟩

/-- Key by key. -/
theorem ShowsFields.of_forall
    (keys : ∀ k, (f k = none ∧ entries k = none) ∨
      ∃ slot doc, f k = some slot ∧ entries k = some doc ∧ Shows m slot doc) :
    ShowsFields m f entries := by
  constructor
  · intro k
    rcases keys k with ⟨left, right⟩ | ⟨slot, doc, left, right, -⟩
    · simp [left, right]
    · simp [left, right]
  · intro k slot doc field entry
    rcases keys k with ⟨left, -⟩ | ⟨slot', doc', left, right, shows⟩
    · exact nomatch left.symm.trans field
    · cases left.symm.trans field
      cases right.symm.trans entry
      exact shows

theorem ShowsFields.at (shown : ShowsFields m f entries) (k : K) :
    (f k = none ∧ entries k = none) ∨
      ∃ slot doc, f k = some slot ∧ entries k = some doc ∧ Shows m slot doc := by
  cases field : f k with
  | none => exact .inl ⟨rfl, (shown.absent k).mp field⟩
  | some slot =>
      obtain ⟨doc, entry, shows⟩ := shown.get field
      exact .inr ⟨slot, doc, rfl, entry, shows⟩

/-- What is shown is still shown when nothing that can be reached has changed. -/
theorem Shows.frame {slot : Lib.Slot L V} {doc : Doc K V} (shown : Shows m slot doc)
    (agrees : ∀ a, slot = .ref a → m' a = m a ∧ Agrees m m' (m a)) : Shows m' slot doc := by
  induction shown with
  | scalar value => exact .scalar value
  | ref a entries absent present ih =>
      obtain ⟨same, rest⟩ := agrees a rfl
      refine .ref a entries (by rw [same]; exact absent) ?_
      intro k slot doc field entry
      rw [same] at field
      refine ih k slot doc field entry ?_
      rintro b rfl
      exact rest.below field

theorem ShowsFields.frame (shown : ShowsFields m f entries) (agrees : Agrees m m' f) :
    ShowsFields m' f entries where
  absent := shown.absent
  present := by
    intro k slot doc field entry
    refine (shown.present k slot doc field entry).frame ?_
    rintro b rfl
    exact agrees.below field

/-- A slot stands for one document only. -/
theorem Shows.unique {slot : Lib.Slot L V} {left right : Doc K V} (first : Shows m slot left)
    (second : Shows m slot right) : left = right := by
  induction first generalizing right with
  | scalar value => cases second with | scalar => rfl
  | ref a entries absent present ih =>
      cases second with
      | ref _ entries' absent' present' =>
          congr 1
          funext k
          cases field : m a k with
          | none => rw [(absent k).mp field, (absent' k).mp field]
          | some slot =>
              obtain ⟨doc, entry, -⟩ := ShowsFields.get ⟨absent, present⟩ field
              obtain ⟨doc', entry', shows'⟩ := ShowsFields.get ⟨absent', present'⟩ field
              rw [entry, entry', ih k slot doc field entry shows']

end Meaning

variable {K V : Type} [DecidableEq K]

/-! ## Stored differences -/

namespace Stored

/-- A location that the difference puts at a path of the table it is applied to. -/
def Reaches (m : Memory Nat K V) : Stored K V → List K → Nat → Prop
  | .flat _ mod, path, l => Reach m (fun k => mod.lookup k) path l
  | .sub key inner rest, path, l =>
      (∃ below, path = key :: below ∧ inner.Reaches m below l) ∨ rest.Reaches m path l

/-- No location occurs twice in the difference. -/
def IsTree (m : Memory Nat K V) : Stored K V → Prop
  | .flat _ mod => Lib.IsTree m fun k => mod.lookup k
  | .sub _ inner rest => inner.IsTree m ∧ rest.IsTree m ∧
      ∀ p q l, inner.Reaches m p l → ¬ rest.Reaches m q l

/-- The stored difference stands for the difference. -/
def Shows (m : Memory Nat K V) : Stored K V → Diff K V → Prop
  | .flat del mod, .flat del' mod' => del = del' ∧ ShowsFields m (fun k => mod.lookup k) mod'.denote
  | .sub key inner rest, .sub key' inner' rest' =>
      key = key' ∧ inner.Shows m inner' ∧ rest.Shows m rest'
  | _, _ => False

variable {m m' : Memory Nat K V} {d : Stored K V} {e : Diff K V}

theorem IsTree.path_eq (tree : d.IsTree m) {p q : List K} {l : Nat} (left : d.Reaches m p l)
    (right : d.Reaches m q l) : p = q := by
  induction d generalizing p q with
  | flat del mod => exact tree p q l left right
  | sub key inner rest ihInner ihRest =>
      obtain ⟨treeInner, treeRest, apart⟩ := tree
      rcases left with ⟨p', rfl, left⟩ | left
      · rcases right with ⟨q', rfl, right⟩ | right
        · rw [ihInner treeInner left right]
        · exact absurd right (apart _ _ _ left)
      · rcases right with ⟨q', rfl, right⟩ | right
        · exact absurd left (apart _ _ _ right)
        · exact ihRest treeRest left right

/-- The memories agree on every location of the difference. -/
def Agrees (m m' : Memory Nat K V) (d : Stored K V) : Prop :=
  ∀ path l, d.Reaches m path l → m' l = m l

theorem Agrees.inner {key : K} {inner rest : Stored K V}
    (agrees : Agrees m m' (.sub key inner rest)) : Agrees m m' inner :=
  fun path l reaches => agrees (key :: path) l (.inl ⟨path, rfl, reaches⟩)

theorem Agrees.rest {key : K} {inner rest : Stored K V}
    (agrees : Agrees m m' (.sub key inner rest)) : Agrees m m' rest :=
  fun path l reaches => agrees path l (.inr reaches)

theorem Agrees.reaches_iff (agrees : Agrees m m' d) {path : List K} {l : Nat} :
    d.Reaches m' path l ↔ d.Reaches m path l := by
  induction d generalizing path with
  | flat del mod => exact Lib.Agrees.reach_iff (f := fun k => mod.lookup k) agrees
  | sub key inner rest ihInner ihRest =>
      simp only [Reaches, ihInner agrees.inner, ihRest agrees.rest]

theorem IsTree.frame (tree : d.IsTree m) (agrees : Agrees m m' d) : d.IsTree m' := by
  induction d with
  | flat del mod => exact Lib.IsTree.congr tree agrees
  | sub key inner rest ihInner ihRest =>
      obtain ⟨treeInner, treeRest, apart⟩ := tree
      refine ⟨ihInner treeInner agrees.inner, ihRest treeRest agrees.rest, ?_⟩
      intro p q l left right
      exact apart p q l (agrees.inner.reaches_iff.mp left) (agrees.rest.reaches_iff.mp right)

theorem Shows.frame (shown : d.Shows m e) (agrees : Agrees m m' d) : d.Shows m' e := by
  induction d generalizing e with
  | flat del mod =>
      cases e with
      | flat del' mod' => exact ⟨shown.1, shown.2.frame agrees⟩
      | sub => exact shown
  | sub key inner rest ihInner ihRest =>
      cases e with
      | flat => exact shown
      | sub key' inner' rest' =>
          exact ⟨shown.1, ihInner shown.2.1 agrees.inner, ihRest shown.2.2 agrees.rest⟩

theorem Shows.isEmpty_eq (shown : d.Shows m e) : d.isEmpty = e.isEmpty := by
  cases d with
  | sub key inner rest =>
      cases e with
      | flat => exact shown.elim
      | sub => rfl
  | flat del mod =>
      cases e with
      | sub => exact shown.elim
      | flat del' mod' =>
          obtain ⟨rfl, fields⟩ := shown
          have same : mod.entries.isEmpty = mod'.isEmpty := by
            rw [Bool.eq_iff_iff, Table.isEmpty_iff_denote, List.isEmpty_iff]
            constructor
            · intro empty k
              refine (fields.absent k).mp ?_
              rw [AList.lookup_eq_none]
              simp [AList.mem_keys, AList.keys, empty]
            · intro empty
              refine List.eq_nil_iff_forall_not_mem.mpr ?_
              rintro ⟨k, slot⟩ member
              have found : mod.lookup k = some slot := AList.mem_lookup_iff.mpr member
              exact nomatch ((fields.absent k).mpr (empty k)).symm.trans found
          simp [Stored.isEmpty, Diff.isEmpty, same]

end Stored

end WindLtask
