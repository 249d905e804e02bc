import WindLtask.Cell.Shows

/-!
# Messages of a cell

Unpacking a message makes a tree of new tables that show it.  Packing gives back
what is shown, once the fuel is enough.
-/

set_option linter.unusedSectionVars false

namespace WindLtask

open Lib

variable {K V : Type} [DecidableEq K]

theorem Fields.lookup_insert (f : Fields K V) (key : K) (slot : Lib.Slot Nat V) (k : K) :
    (f.insert key slot).lookup k = if k = key then some slot else f.lookup k := by
  by_cases same : k = key
  · subst same
    simp
  · simp [AList.lookup_insert_ne same, same]

theorem Fields.lookup_insert_eq (f : Fields K V) (key : K) (slot : Lib.Slot Nat V) :
    (fun k => (f.insert key slot).lookup k) =
      Function.update (fun k => f.lookup k) key (some slot) := by
  funext k
  rw [lookup_insert, Function.update_apply]

namespace Heap

@[simp] theorem get_write (h : Heap K V) (a : Nat) (fields : Fields K V) :
    (h.write a fields).get = Function.update h.get a fun k => fields.lookup k := by
  funext b k
  by_cases same : b = a
  · subst same
    simp [get, write]
  · simp [get, write, same]

@[simp] theorem get_new (h : Heap K V) (fields : Fields K V) :
    (h.new fields).1.get = Function.update h.get h.free fun k => fields.lookup k := by
  funext b k
  by_cases same : b = h.free
  · subst same
    simp [get, new]
  · simp [get, new, same]

theorem get_new_old (h : Heap K V) (fields : Fields K V) {l : Nat} (less : l < h.free) :
    (h.new fields).1.get l = h.get l := by
  rw [get_new, Function.update_of_ne (Nat.ne_of_lt less)]

theorem get_new_here (h : Heap K V) (fields : Fields K V) :
    (h.new fields).1.get h.free = fun k => fields.lookup k := by
  rw [get_new, Function.update_self]

/-! ## Unpacking -/

/-- The fields `f` and the tables below them are new and form a tree. -/
structure Unpacked (h h' : Heap K V) (f : Record Nat K V) : Prop where
  grows : h.free ≤ h'.free
  old : ∀ a < h.free, h'.get a = h.get a
  fresh : ∀ path l, Reach h'.get f path l → h.free ≤ l ∧ l < h'.free
  tree : IsTree h'.get f

/-- What has been unpacked does not change when more is unpacked. -/
theorem Unpacked.agrees {h h' later : Heap K V} {f : Record Nat K V} (unpacked : Unpacked h h' f)
    (old : ∀ a < h'.free, later.get a = h'.get a) : Agrees h'.get later.get f :=
  fun path l reach => old l (unpacked.fresh path l reach).2

/-- One more field with a scalar. -/
theorem Unpacked.scalar {h h' : Heap K V} {f : Record Nat K V} (unpacked : Unpacked h h' f)
    (key : K) (value : V) : Unpacked h h' (Function.update f key (some (.scalar value))) := by
  have back : ∀ path l, Reach h'.get (Function.update f key (some (.scalar value))) path l →
      Reach h'.get f path l := by
    intro path l reach
    cases path with
    | nil => exact absurd rfl reach.path_ne_nil
    | cons k path => exact (Reach.update_scalar_iff.mp reach).2
  refine ⟨unpacked.grows, unpacked.old, fun path l reach => ?_, fun p q l left right => ?_⟩
  · exact unpacked.fresh path l (back path l reach)
  · exact unpacked.tree p q l (back p l left) (back q l right)

section NewTable

variable {h h₁ h₂ : Heap K V} {f₁ f₂ : Fields K V}

/-- The new table and what is below it, or what the other fields reach. -/
theorem Unpacked.reach_new (rest : Unpacked h h₁ fun k => f₁.lookup k)
    (sub : Unpacked h₁ h₂ fun k => f₂.lookup k) {key k : K} {path : List K} {l : Nat}
    (reach : Reach (h₂.new f₂).1.get
      (Function.update (fun k => f₁.lookup k) key (some (.ref h₂.free))) (k :: path) l) :
    (k = key ∧ (path = [] ∧ l = h₂.free ∨ Reach h₂.get (fun k => f₂.lookup k) path l)) ∨
      (k ≠ key ∧ Reach h₁.get (fun k => f₁.lookup k) (k :: path) l) := by
  have agreesSub := sub.agrees fun l less => get_new_old h₂ f₂ less
  have agreesRest := rest.agrees fun l less =>
    (get_new_old h₂ f₂ (Nat.lt_of_lt_of_le less sub.grows)).trans (sub.old l less)
  refine (Reach.update_ref_iff.mp reach).imp ?_ ?_
  · rw [get_new_here]
    exact fun inside => inside.imp_right fun found => found.imp_right agreesSub.reach_back
  · exact fun outside => outside.imp_right agreesRest.reach_back

/-- One more field with a table that is unpacked after the rest. -/
theorem Unpacked.table (rest : Unpacked h h₁ fun k => f₁.lookup k)
    (sub : Unpacked h₁ h₂ fun k => f₂.lookup k) (key : K) :
    Unpacked h (h₂.new f₂).1
      (Function.update (fun k => f₁.lookup k) key (some (.ref h₂.free))) := by
  have size : (h₂.new f₂).1.free = h₂.free + 1 := rfl
  have grown₁ := rest.grows
  have grown₂ := sub.grows
  refine ⟨?_, ?_, ?_, ?_⟩
  · omega
  · intro l less
    rw [get_new_old h₂ f₂ (by omega), sub.old l (by omega), rest.old l less]
  · intro path l reach
    cases path with
    | nil => exact absurd rfl reach.path_ne_nil
    | cons k path =>
        rcases rest.reach_new sub reach with ⟨-, ⟨-, rfl⟩ | below⟩ | ⟨-, other⟩
        · omega
        · have range := sub.fresh path l below
          omega
        · have range := rest.fresh _ l other
          omega
  · intro p q l left right
    cases p with
    | nil => exact absurd rfl left.path_ne_nil
    | cons k p =>
        cases q with
        | nil => exact absurd rfl right.path_ne_nil
        | cons k' q =>
            rcases rest.reach_new sub left with ⟨rfl, ⟨rfl, rfl⟩ | below⟩ | ⟨-, other⟩
            · rcases rest.reach_new sub right with ⟨rfl, ⟨rfl, -⟩ | below⟩ | ⟨-, other⟩
              · rfl
              · exact absurd (sub.fresh q _ below).2 (Nat.lt_irrefl _)
              · have range := (rest.fresh _ _ other).2
                omega
            · have range := sub.fresh p l below
              rcases rest.reach_new sub right with ⟨rfl, ⟨rfl, rfl⟩ | below'⟩ | ⟨-, other⟩
              · exact absurd range.2 (Nat.lt_irrefl _)
              · rw [sub.tree p q l below below']
              · have range' := rest.fresh _ l other
                omega
            · have range := rest.fresh _ l other
              rcases rest.reach_new sub right with ⟨-, ⟨-, rfl⟩ | below⟩ | ⟨-, other'⟩
              · omega
              · have range' := sub.fresh q l below
                omega
              · exact rest.tree _ _ l other other'

/-- The field stands for the table that has been unpacked. -/
theorem Unpacked.shows_table (rest : Unpacked h h₁ fun k => f₁.lookup k)
    (sub : Unpacked h₁ h₂ fun k => f₂.lookup k) {entries below : Entries K V}
    (shownRest : ShowsFields h₁.get (fun k => f₁.lookup k) entries)
    (shownSub : ShowsFields h₂.get (fun k => f₂.lookup k) below) (key : K) :
    ShowsFields (h₂.new f₂).1.get
      (Function.update (fun k => f₁.lookup k) key (some (.ref h₂.free)))
      (Function.update entries key (some (.table below))) := by
  have agreesSub := sub.agrees fun l less => get_new_old h₂ f₂ less
  have agreesRest := rest.agrees fun l less =>
    (get_new_old h₂ f₂ (Nat.lt_of_lt_of_le less sub.grows)).trans (sub.old l less)
  refine .of_forall fun k => ?_
  by_cases same : k = key
  · refine .inr ⟨.ref h₂.free, .table below, by simp [same], by simp [same], ?_⟩
    apply ShowsFields.shows
    rw [get_new_here]
    exact shownSub.frame agreesSub
  · simpa [same] using (shownRest.frame agreesRest).at k

end NewTable

theorem unpack_spec (t : Table K V) (h : Heap K V) :
    Unpacked h (unpack t h).1 (fun k => (unpack t h).2.lookup k) ∧
      ShowsFields (unpack t h).1.get (fun k => (unpack t h).2.lookup k) t.denote := by
  induction t generalizing h with
  | empty =>
      have nothing : ∀ path l, ¬ Reach h.get (fun k => (∅ : Fields K V).lookup k) path l := by
        intro path l reach
        cases reach <;> simp_all
      exact ⟨⟨Nat.le_refl _, fun _ _ => rfl, fun path l reach => absurd reach (nothing path l),
        fun p q l left _ => absurd left (nothing p l)⟩, ⟨by simp [unpack, Table.denote],
        by simp [unpack]⟩⟩
  | scalar key value rest ih =>
      obtain ⟨unpacked, shown⟩ := ih h
      simp only [unpack, Fields.lookup_insert_eq]
      refine ⟨unpacked.scalar key value, .of_forall fun k => ?_⟩
      by_cases same : k = key
      · exact .inr ⟨.scalar value, .scalar value, by simp [same],
          by simp [Table.denote, same], .scalar value⟩
      · simpa [Table.denote, same] using shown.at k
  | table key sub rest ihSub ihRest =>
      obtain ⟨unpackedRest, shownRest⟩ := ihRest h
      obtain ⟨unpackedSub, shownSub⟩ := ihSub (unpack rest h).1
      simp only [unpack, Fields.lookup_insert_eq]
      exact ⟨unpackedRest.table unpackedSub key,
        unpackedRest.shows_table unpackedSub shownRest shownSub key⟩

/-- A difference that has been unpacked is new and a tree, and shows what came. -/
structure UnpackedDiff (h h' : Heap K V) (stored : Stored K V) (diff : Diff K V) : Prop where
  grows : h.free ≤ h'.free
  old : ∀ a < h.free, h'.get a = h.get a
  fresh : ∀ path l, stored.Reaches h'.get path l → h.free ≤ l ∧ l < h'.free
  tree : stored.IsTree h'.get
  shown : stored.Shows h'.get diff

theorem unpackDiff_spec (diff : Diff K V) (h : Heap K V) :
    UnpackedDiff h (unpackDiff diff h).1 (unpackDiff diff h).2 diff := by
  induction diff generalizing h with
  | flat del mod =>
      obtain ⟨unpacked, shown⟩ := unpack_spec mod h
      exact ⟨unpacked.grows, unpacked.old, unpacked.fresh, unpacked.tree, rfl, shown⟩
  | sub key inner rest ihInner ihRest =>
      have first := ihInner h
      have second := ihRest (unpackDiff inner h).1
      simp only [unpackDiff]
      generalize unpackDiff inner h = one at *
      obtain ⟨h₁, inner'⟩ := one
      generalize unpackDiff rest h₁ = two at *
      obtain ⟨h₂, rest'⟩ := two
      simp only at *
      have agrees : Stored.Agrees h₁.get h₂.get inner' :=
        fun path l reaches => second.old l (first.fresh path l reaches).2
      have ranges : ∀ path l, inner'.Reaches h₂.get path l → h.free ≤ l ∧ l < h₁.free :=
        fun path l reaches => first.fresh path l (agrees.reaches_iff.mp reaches)
      refine ⟨Nat.le_trans first.grows second.grows, ?_, ?_, ⟨first.tree.frame agrees,
        second.tree, ?_⟩, rfl, first.shown.frame agrees, second.shown⟩
      · intro a less
        rw [second.old a (Nat.lt_of_lt_of_le less first.grows), first.old a less]
      · rintro path l (⟨below, rfl, reaches⟩ | reaches)
        · have range := ranges below l reaches
          exact ⟨range.1, Nat.lt_of_lt_of_le range.2 second.grows⟩
        · have range := second.fresh path l reaches
          exact ⟨Nat.le_trans first.grows range.1, range.2⟩
      · intro p q l left right
        exact absurd (Nat.lt_of_lt_of_le (ranges p l left).2 (second.fresh q l right).1)
          (Nat.lt_irrefl _)

/-! ## Packing -/

/-- Packing what the slot refers to gives back the document, once the fuel is enough. -/
def Packs (h : Heap K V) (slot : Lib.Slot Nat V) (doc : Doc K V) : Prop :=
  match slot with
  | .scalar value => doc = .scalar value
  | .ref a => ∃ entries bound, doc = .table entries ∧
      ∀ fuel ≥ bound, ∃ t, h.pack fuel a = some t ∧ t.denote = entries

theorem packFields_of_packs (h : Heap K V) (entries : Entries K V)
    (list : List (Sigma fun _ : K => Lib.Slot Nat V)) (distinct : list.NodupKeys)
    (each : ∀ entry ∈ list, ∃ doc, entries entry.1 = some doc ∧ Packs h entry.2 doc) :
    ∃ bound, ∀ fuel ≥ bound, ∃ t, packFields (h.pack fuel) list = some t ∧
      ∀ k, t.denote k = if k ∈ list.keys then entries k else none := by
  induction list with
  | nil => exact ⟨0, fun fuel _ => ⟨.empty, rfl, fun k => by simp [Table.denote]⟩⟩
  | cons entry rest ih =>
      obtain ⟨key, slot⟩ := entry
      rw [List.nodupKeys_cons] at distinct
      obtain ⟨bound, packed⟩ := ih distinct.2 fun entry member =>
        each entry (List.mem_cons_of_mem _ member)
      obtain ⟨doc, atKey, packs⟩ := each ⟨key, slot⟩ List.mem_cons_self
      have joined : ∀ t : Table K V, (∀ k, t.denote k = if k ∈ rest.keys then entries k else none) →
          ∀ k, Function.update t.denote key (some doc) k =
            if k ∈ List.keys (⟨key, slot⟩ :: rest) then entries k else none := by
        intro t agrees k
        by_cases same : k = key
        · simp [same, ← atKey]
        · simp [same, agrees]
      cases slot with
      | scalar value =>
          refine ⟨bound, fun fuel enough => ?_⟩
          obtain ⟨t, done, agrees⟩ := packed fuel enough
          obtain rfl : doc = .scalar value := packs
          exact ⟨.scalar key value t, by simp [packFields, done], joined t agrees⟩
      | ref b =>
          obtain ⟨below, bound', rfl, packs⟩ := packs
          refine ⟨max bound bound', fun fuel enough => ?_⟩
          obtain ⟨t, done, agrees⟩ := packed fuel (by omega)
          obtain ⟨sub, doneSub, rfl⟩ := packs fuel (by omega)
          exact ⟨.table key sub t, by simp [packFields, done, doneSub], joined t agrees⟩

theorem packFields_of_shows {h : Heap K V} {entries : Entries K V} (fields : Fields K V)
    (shown : ShowsFields h.get (fun k => fields.lookup k) entries)
    (each : ∀ k slot doc, fields.lookup k = some slot → entries k = some doc → Packs h slot doc) :
    ∃ bound, ∀ fuel ≥ bound, ∃ t, packFields (h.pack fuel) fields.entries = some t ∧
      t.denote = entries := by
  obtain ⟨bound, packed⟩ := packFields_of_packs h entries fields.entries
    fields.nodupKeys fun entry member => by
      have field : fields.lookup entry.1 = some entry.2 := AList.mem_lookup_iff.mpr member
      obtain ⟨doc, atKey, -⟩ := shown.get field
      exact ⟨doc, atKey, each _ _ _ field atKey⟩
  refine ⟨bound, fun fuel enough => ?_⟩
  obtain ⟨t, done, agrees⟩ := packed fuel enough
  refine ⟨t, done, funext fun k => ?_⟩
  rw [agrees k]
  by_cases member : k ∈ fields.entries.keys
  · rw [if_pos member]
  · rw [if_neg member, (shown.absent k).mp (AList.lookup_eq_none.mpr member)]

theorem packs_of_shows {h : Heap K V} {slot : Lib.Slot Nat V} {doc : Doc K V}
    (shown : Shows h.get slot doc) : Packs h slot doc := by
  induction shown with
  | scalar value => exact rfl
  | ref a entries absent present ih =>
      obtain ⟨bound, packed⟩ := packFields_of_shows (h.tables a)
        ⟨absent, present⟩ ih
      refine ⟨entries, bound + 1, rfl, fun fuel enough => ?_⟩
      obtain ⟨fuel, rfl⟩ : ∃ n, fuel = n + 1 := ⟨fuel - 1, by omega⟩
      exact packed fuel (by omega)

/-- Packing a table gives back its meaning, once the fuel is enough. -/
theorem pack_of_shows {h : Heap K V} {a : Nat} {entries : Entries K V}
    (shown : ShowsFields h.get (h.get a) entries) :
    ∃ bound, ∀ fuel ≥ bound, ∃ t, h.pack fuel a = some t ∧ t.denote = entries := by
  obtain ⟨entries', bound, same, packed⟩ := packs_of_shows shown.shows
  cases same
  exact ⟨bound, packed⟩

end Heap

/-- Two differences with the same keys and structurally equal values. -/
def Diff.Same : Diff K V → Diff K V → Prop
  | .flat del mod, .flat del' mod' => del = del' ∧ mod.Same mod'
  | .sub key inner rest, .sub key' inner' rest' => key = key' ∧ inner.Same inner' ∧ rest.Same rest'
  | _, _ => False

theorem Diff.Same.isEmpty_eq {d e : Diff K V} (same : d.Same e) : d.isEmpty = e.isEmpty := by
  cases d with
  | sub key inner rest =>
      cases e with
      | flat => exact same.elim
      | sub => rfl
  | flat del mod =>
      cases e with
      | sub => exact same.elim
      | flat del' mod' =>
          obtain ⟨rfl, fields⟩ := same
          have meaning : mod.denote = mod'.denote := fields
          have empty : mod.isEmpty = mod'.isEmpty := by
            rw [Bool.eq_iff_iff, Table.isEmpty_iff_denote, Table.isEmpty_iff_denote, meaning]
          simp [Diff.isEmpty, empty]

/-- Differences that are the same act in the same way. -/
theorem Diff.Same.apply_eq {d e : Diff K V} (same : d.Same e) (entries : Entries K V) :
    d.apply entries = e.apply entries := by
  induction d generalizing e entries with
  | flat del mod =>
      cases e with
      | sub => exact same.elim
      | flat del' mod' =>
          obtain ⟨rfl, fields⟩ := same
          have meaning : mod.denote = mod'.denote := fields
          simp [Diff.apply, meaning]
  | sub key inner rest ihInner ihRest =>
      cases e with
      | flat => exact same.elim
      | sub key' inner' rest' =>
          obtain ⟨rfl, sameInner, sameRest⟩ := same
          simp only [Diff.apply, sameInner.isEmpty_eq, ihRest sameRest, ihInner sameInner]

theorem Heap.packDiff_of_shows {h : Heap K V} {stored : Stored K V} {diff : Diff K V}
    (shown : stored.Shows h.get diff) :
    ∃ bound, ∀ fuel ≥ bound, ∃ served, h.packDiff fuel stored = some served ∧
      diff.Same served := by
  induction stored generalizing diff with
  | flat del mod =>
      cases diff with
      | sub => exact shown.elim
      | flat del' mod' =>
          obtain ⟨rfl, fields⟩ := shown
          obtain ⟨bound, packed⟩ := packFields_of_shows mod fields fun k slot doc field entry =>
            packs_of_shows (fields.present k slot doc field entry)
          refine ⟨bound, fun fuel enough => ?_⟩
          obtain ⟨t, done, meaning⟩ := packed fuel enough
          exact ⟨.flat del t, by simp [Heap.packDiff, done], rfl, meaning.symm⟩
  | sub key inner rest ihInner ihRest =>
      cases diff with
      | flat => exact shown.elim
      | sub key' inner' rest' =>
          obtain ⟨rfl, shownInner, shownRest⟩ := shown
          obtain ⟨bound, packed⟩ := ihInner shownInner
          obtain ⟨bound', packed'⟩ := ihRest shownRest
          refine ⟨max bound bound', fun fuel enough => ?_⟩
          obtain ⟨d, done, same⟩ := packed fuel (by omega)
          obtain ⟨e, done', same'⟩ := packed' fuel (by omega)
          exact ⟨.sub key d e, by simp [Heap.packDiff, done, done'], rfl, same, same'⟩

end WindLtask
