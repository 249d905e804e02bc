import WindLtask.Cell.Messages

/-!
# Patching in place

Which tables `table_patch` changes when it works on references: the patched one
and those that the difference enters.  What it reaches afterwards it reached
before, or the difference has put there.
-/

set_option linter.unusedSectionVars false

namespace WindLtask

open Lib

variable {K V : Type} [DecidableEq K]

namespace Diff

/-- The difference changes entries of the table at this path. -/
def Enters : Diff K V → List K → Prop
  | .flat _ _, _ => False
  | .sub key inner rest, path =>
      path = [key] ∨ (∃ below, path = key :: below ∧ inner.Enters below) ∨ rest.Enters path

/-- The difference assigns a table of its own to this path. -/
def Installs : Diff K V → List K → Prop
  | .flat _ mod, path => ∃ key sub, path = [key] ∧ mod.get key = some (.table sub)
  | .sub key inner rest, path =>
      (∃ below, path = key :: below ∧ inner.Installs below) ∨ rest.Installs path

/-- No key occurs twice among the `sub` entries of one level. -/
def Distinct : Diff K V → Prop
  | .flat _ _ => True
  | .sub key inner rest => inner.Distinct ∧ rest.Distinct ∧ ∀ path, ¬ rest.Enters (key :: path)

/-- The way to a table that the difference enters leads through tables that it enters. -/
theorem Enters.of_longer {d : Diff K V} {path later : List K} (enters : d.Enters (path ++ later))
    (some' : path ≠ []) : d.Enters path := by
  induction d generalizing path with
  | flat => exact enters
  | sub key inner rest ihInner ihRest =>
      obtain ⟨k, path, rfl⟩ := List.exists_cons_of_ne_nil some'
      rcases enters with single | ⟨below, joined, enters⟩ | enters
      · have here : k = key ∧ path = [] := by
          have parts : k = key ∧ path ++ later = [] := by simpa using single
          exact ⟨parts.1, (List.append_eq_nil_iff.mp parts.2).1⟩
        exact .inl (by rw [here.1, here.2])
      · obtain ⟨rfl, rfl⟩ : k = key ∧ path ++ later = below := by simpa using joined
        cases path with
        | nil => exact .inl rfl
        | cons k' path =>
            exact .inr (.inl ⟨_, rfl, ihInner enters (List.cons_ne_nil _ _)⟩)
      · exact .inr (.inr (ihRest enters (List.cons_ne_nil _ _)))

theorem enters_ofParts {del : List K} {mod : Table K V} {subs : List (K × Diff K V)} {k : K}
    {path : List K} (enters : (ofParts del mod subs).Enters (k :: path)) :
    k ∈ subs.map Prod.fst := by
  induction subs with
  | nil => exact enters.elim
  | cons entry rest ih =>
      rcases enters with single | ⟨below, joined, -⟩ | enters
      · have same : k = entry.1 := (List.cons.inj single).1
        exact List.mem_cons.mpr (.inl same)
      · have same : k = entry.1 := (List.cons.inj joined).1
        exact List.mem_cons.mpr (.inl same)
      · exact List.mem_cons_of_mem _ (ih enters)

theorem distinct_ofParts {del : List K} {mod : Table K V} {subs : List (K × Diff K V)}
    (keys : (subs.map Prod.fst).Nodup) (inner : ∀ entry ∈ subs, entry.2.Distinct) :
    (ofParts del mod subs).Distinct := by
  induction subs with
  | nil => trivial
  | cons entry rest ih =>
      obtain ⟨fresh, keys⟩ := List.nodup_cons.mp keys
      refine ⟨inner entry List.mem_cons_self,
        ih keys fun other member => inner other (List.mem_cons_of_mem _ member), ?_⟩
      intro path enters
      exact fresh (enters_ofParts enters)

end Diff

section Differences

variable [DecidableEq V]

theorem putSub_forall {P : Diff K V → Prop} {diff : Building K V} {key : K} {inner : Diff K V}
    (all : ∀ entry ∈ diff.sub, P entry.2) (here : P inner) :
    ∀ entry ∈ (diff.putSub key inner).sub, P entry.2 := by
  intro entry member
  simp only [Building.putSub] at member
  split at member
  · exact all entry (List.mem_of_mem_filter member)
  · rcases List.mem_cons.mp member with rfl | old
    · exact here
    · exact all entry (List.mem_of_mem_filter old)

/-- The loops of `table_diff` put only results of recursive calls into `diff.sub`. -/
theorem scans_forall {P : Diff K V → Prop} {recur : Table K V → Table K V → Diff K V}
    (each : ∀ a b, P (recur a b)) (old new : Table K V) :
    ∀ entry ∈ (new.pairs.foldl (scanNew recur old) (afterOld recur old new)).sub, P entry.2 := by
  have first : ∀ (list : List (K × Value K V)) (diff : Building K V),
      (∀ entry ∈ diff.sub, P entry.2) →
      ∀ entry ∈ (list.foldl (scanOld recur new) diff).sub, P entry.2 := by
    intro list
    induction list with
    | nil => exact fun _ all => all
    | cons item list ih =>
        intro diff all
        refine ih _ ?_
        simp only [scanOld]
        split
        · exact putSub_forall all (each _ _)
        · exact all
        · split <;> exact all
  have second : ∀ (list : List (K × Value K V)) (diff : Building K V),
      (∀ entry ∈ diff.sub, P entry.2) →
      ∀ entry ∈ (list.foldl (scanNew recur old) diff).sub, P entry.2 := by
    intro list
    induction list with
    | nil => exact fun _ all => all
    | cons item list ih =>
        intro diff all
        refine ih _ ?_
        simp only [scanNew]
        split
        · exact all
        · split
          · exact putSub_forall all (each _ _)
          · exact all
          · split <;> exact all
  exact second _ _ (first _ _ (by simp))

theorem tableDiff_distinct (fuel : Nat) (old new : Table K V) :
    (tableDiff fuel old new).Distinct := by
  induction fuel generalizing old new with
  | zero => trivial
  | succ fuel ih =>
      have start : Building.Distinct (⟨[], .empty, []⟩ : Building K V) := List.nodup_nil
      exact Diff.distinct_ofParts (scanNew_distinct _ _ _ (scanOld_distinct _ _ _ start))
        (scans_forall ih old new)

theorem ltdiff_distinct {old new : Table K V} {diff : Diff K V}
    (found : ltdiff old new = some diff) : diff.Distinct := by
  simp only [ltdiff] at found
  split at found
  · cases found
  · cases found
    exact tableDiff_distinct _ _ _

end Differences

/-! ## The loops over `del` and `mod` -/

theorem Heap.eraseAll_lookup (del : List K) (fields : Fields K V) (k : K) :
    (eraseAll del fields).lookup k = if k ∈ del then none else fields.lookup k := by
  induction del generalizing fields with
  | nil => simp [eraseAll]
  | cons key rest ih =>
      have step : eraseAll (key :: rest) fields = eraseAll rest (fields.erase key) := rfl
      rw [step, ih]
      by_cases same : k = key
      · subst same
        simp
      · simp [AList.lookup_erase_ne same, same]

theorem Heap.assignAll_lookup (mod : List (Sigma fun _ : K => Lib.Slot Nat V))
    (distinct : mod.NodupKeys) (fields : Fields K V) (k : K) :
    (assignAll mod fields).lookup k = (mod.dlookup k).or (fields.lookup k) := by
  induction mod generalizing fields with
  | nil => rfl
  | cons entry rest ih =>
      obtain ⟨key, slot⟩ := entry
      rw [List.nodupKeys_cons] at distinct
      have step : assignAll (⟨key, slot⟩ :: rest) fields =
          assignAll rest (fields.insert key slot) := rfl
      rw [step, ih distinct.2, Fields.lookup_insert]
      by_cases same : k = key
      · subst same
        have absent : rest.dlookup k = none := List.dlookup_eq_none.mpr distinct.1
        simp [absent]
      · simp [same, List.dlookup_cons_ne rest ⟨key, slot⟩ same]

/-! ## What `table_patch` changes -/

namespace Heap

/-- A table and a difference that can be applied to it: both are trees, and they share nothing. -/
structure Fit (h : Heap K V) (a : Nat) (stored : Stored K V) (diff : Diff K V)
    (entries : Entries K V) : Prop where
  rooted : Rooted h.get a
  tree : stored.IsTree h.get
  apart : ∀ q l, stored.Reaches h.get q l → l ≠ a ∧ ∀ p, ¬ Reach h.get (h.get a) p l
  shown : ShowsFields h.get (h.get a) entries
  stored : stored.Shows h.get diff
  distinct : diff.Distinct

/-- What `table_patch(A, diff)` has done when it returns. -/
structure Patched (h h' : Heap K V) (a : Nat) (stored : Stored K V) (diff : Diff K V)
    (entries : Entries K V) : Prop where
  free : h'.free = h.free
  frame : ∀ l, l ≠ a → (∀ p, Reach h.get (h.get a) p l → ¬ diff.Enters p) → h'.get l = h.get l
  track : ∀ p l, Reach h'.get (h'.get a) p l →
    Reach h.get (h.get a) p l ∨ stored.Reaches h.get p l
  shown : ShowsFields h'.get (h'.get a) entries

variable {h h' : Heap K V} {a b : Nat} {key : K} {inner rest : Stored K V}
  {inner' rest' : Diff K V} {entries below patched : Entries K V}

theorem patched_flat {del : List K} {mod : Fields K V} {mod' : Table K V}
    (fit : Fit h a (.flat del mod) (.flat del mod') entries) (free : h'.free = h.free)
    (other : ∀ l, l ≠ a → h'.get l = h.get l)
    (fields : ∀ k, h'.get a k = (mod.lookup k).or (if k ∈ del then none else h.get a k)) :
    Patched h h' a (.flat del mod) (.flat del mod')
      fun k => (mod'.denote k).or (if k ∈ del then none else entries k) := by
  have agreesMod : Agrees h.get h'.get fun k => mod.lookup k :=
    fun path l reach => other l (fit.apart path l reach).1
  have agreesOld : Agrees h.get h'.get (h.get a) :=
    fun path l reach => other l fun same => fit.rooted.fresh path (same ▸ reach)
  refine ⟨free, fun l apart _ => other l apart, ?_, .of_forall fun k => ?_⟩
  · intro path l reach
    cases path with
    | nil => exact absurd rfl reach.path_ne_nil
    | cons k path =>
        cases assigned : mod.lookup k with
        | some slot =>
            have through : Reach h'.get (fun k => mod.lookup k) (k :: path) l :=
              reach.congr_field (by simp [fields, assigned])
            exact .inr (agreesMod.reach_back through)
        | none =>
            by_cases deleted : k ∈ del
            · obtain ⟨b, field, -⟩ := Reach.cons_iff.mp reach
              simp [fields, assigned, deleted] at field
            · have through : Reach h'.get (h.get a) (k :: path) l :=
                reach.congr_field (by simp [fields, assigned, deleted])
              exact .inl (agreesOld.reach_back through)
  · obtain ⟨-, shownMod⟩ := fit.stored
    rcases (shownMod.frame agreesMod).at k with ⟨unassigned, absent⟩ |
      ⟨slot, doc, assigned, entry, shows⟩
    · by_cases deleted : k ∈ del
      · exact .inl (by simp [fields, unassigned, absent, deleted])
      · simpa [fields, unassigned, absent, deleted] using (fit.shown.frame agreesOld).at k
    · exact .inr ⟨slot, doc, by simp [fields, assigned], by simp [entry], shows⟩

/-- The table that a `sub` entry leads to, with the inner difference. -/
theorem Fit.descend (fit : Fit h a (.sub key inner rest) (.sub key inner' rest') entries)
    (field : h.get a key = some (.ref b)) (shown : ShowsFields h.get (h.get b) below) :
    Fit h b inner inner' below where
  rooted := fit.rooted.tree.rooted field
  tree := fit.tree.1
  apart := by
    intro q l reaches
    obtain ⟨-, outside⟩ := fit.apart (key :: q) l (.inl ⟨q, rfl, reaches⟩)
    refine ⟨?_, fun p reach => outside (key :: p) (.step field reach)⟩
    rintro rfl
    exact outside [key] (.here field)
  shown := shown
  stored := fit.stored.2.1
  distinct := fit.distinct.1

/-- The tables that an inner difference leaves alone. -/
theorem Patched.outside (fit : Fit h a (.sub key inner rest) (.sub key inner' rest') entries)
    (field : h.get a key = some (.ref b)) (inside : Patched h h' b inner inner' patched) :
    h'.get a = h.get a ∧ Stored.Agrees h.get h'.get rest ∧
      ∀ k path l, k ≠ key → Reach h.get (h.get a) (k :: path) l → h'.get l = h.get l := by
  refine ⟨?_, ?_, ?_⟩
  · refine inside.frame a ?_ fun p reach => absurd (Reach.step field reach) (fit.rooted.fresh _)
    rintro rfl
    exact fit.rooted.fresh [key] (.here field)
  · intro path l reaches
    obtain ⟨-, outside⟩ := fit.apart path l (.inr reaches)
    refine inside.frame l ?_ fun p reach => absurd (Reach.step field reach) (outside _)
    rintro rfl
    exact outside [key] (.here field)
  · intro k path l apart reach
    refine inside.frame l ?_ fun p reach' => ?_
    · rintro rfl
      exact apart (fit.rooted.tree.apart reach (.here field))
    · exact absurd (fit.rooted.tree.apart reach (.step field reach')) apart

/-- What the table reaches when the inner difference has been applied. -/
theorem Patched.track_outer (fit : Fit h a (.sub key inner rest) (.sub key inner' rest') entries)
    (field : h.get a key = some (.ref b)) (inside : Patched h h' b inner inner' patched)
    {path : List K} {l : Nat} (reach : Reach h'.get (h'.get a) path l) :
    Reach h.get (h.get a) path l ∨ ∃ q, path = key :: q ∧ inner.Reaches h.get q l := by
  obtain ⟨same, -, others⟩ := Patched.outside fit field inside
  rw [same] at reach
  cases path with
  | nil => exact absurd rfl reach.path_ne_nil
  | cons k path =>
      obtain ⟨c, fieldK, found⟩ := Reach.cons_iff.mp reach
      by_cases here : k = key
      · subst here
        obtain rfl : b = c := by simpa [field] using fieldK
        rcases found with ⟨rfl, rfl⟩ | deeper
        · exact .inl (.here field)
        · rcases inside.track path l deeper with old | new
          · exact .inl (.step field old)
          · exact .inr ⟨path, rfl, new⟩
      · have agrees : Agrees h.get h'.get (h.get c) := fun p l' reach' =>
          others k p l' here (.step fieldK reach')
        rw [others k [] c here (.here fieldK)] at found
        left
        exact Reach.cons_iff.mpr ⟨c, fieldK, found.imp_right agrees.reach_back⟩

/-- The rest of the difference, once the inner one has been applied. -/
theorem Fit.resume (fit : Fit h a (.sub key inner rest) (.sub key inner' rest') entries)
    (field : h.get a key = some (.ref b)) (inside : Patched h h' b inner inner' patched) :
    Fit h' a rest rest' (Function.update entries key (some (.table patched))) := by
  obtain ⟨same, agreesRest, others⟩ := Patched.outside fit field inside
  have track (path : List K) (l : Nat) (reach : Reach h'.get (h'.get a) path l) :=
    Patched.track_outer fit field inside reach
  obtain ⟨treeInner, treeRest, apartInner⟩ := fit.tree
  refine ⟨⟨?_, ?_⟩, treeRest.frame agreesRest, ?_, .of_forall fun k => ?_,
    fit.stored.2.2.frame agreesRest, fit.distinct.2.1⟩
  · intro p q l left right
    rcases track _ _ left with old | ⟨p', rfl, new⟩
    · rcases track _ _ right with old' | ⟨q', rfl, new'⟩
      · exact fit.rooted.tree p q l old old'
      · exact absurd old ((fit.apart _ l (.inl ⟨q', rfl, new'⟩)).2 p)
    · rcases track _ _ right with old' | ⟨q', rfl, new'⟩
      · exact absurd old' ((fit.apart _ l (.inl ⟨p', rfl, new⟩)).2 q)
      · rw [treeInner.path_eq new new']
  · intro path loops
    rcases track _ _ loops with old | ⟨q, rfl, new⟩
    · exact fit.rooted.fresh path old
    · exact (fit.apart _ a (.inl ⟨q, rfl, new⟩)).1 rfl
  · intro q l reaches
    have reaches := agreesRest.reaches_iff.mp reaches
    obtain ⟨away, outside⟩ := fit.apart q l (.inr reaches)
    refine ⟨away, fun p reach => ?_⟩
    rcases track _ _ reach with old | ⟨p', rfl, new⟩
    · exact outside p old
    · exact apartInner p' q l new reaches
  · rw [same]
    by_cases here : k = key
    · subst here
      exact .inr ⟨.ref b, .table patched, field, by simp, inside.shown.shows⟩
    · rcases fit.shown.at k with ⟨noField, noEntry⟩ | ⟨slot, doc, fieldK, entry, shows⟩
      · exact .inl ⟨noField, by simp [here, noEntry]⟩
      · refine .inr ⟨slot, doc, fieldK, by simp [here, entry], shows.frame ?_⟩
        rintro c rfl
        exact ⟨others k [] c here (.here fieldK), fun p l reach =>
          others k p l here (.step fieldK reach)⟩

/-- The inner difference alone, as a part of the whole one. -/
theorem Patched.within (fit : Fit h a (.sub key inner rest) (.sub key inner' rest') entries)
    (field : h.get a key = some (.ref b)) (inside : Patched h h' b inner inner' patched) :
    Patched h h' a (.sub key inner rest) (.sub key inner' rest')
      (Function.update entries key (some (.table patched))) := by
  refine ⟨inside.free, ?_, ?_, (Fit.resume fit field inside).shown⟩
  · intro l away untouched
    refine inside.frame l ?_ fun p reach enters => ?_
    · rintro rfl
      exact untouched [key] (.here field) (.inl rfl)
    · exact untouched (key :: p) (.step field reach) (.inr (.inl ⟨p, rfl, enters⟩))
  · intro p l reach
    rcases Patched.track_outer fit field inside reach with old | ⟨q, rfl, added⟩
    · exact .inl old
    · exact .inr (.inl ⟨q, rfl, added⟩)

/-- Two steps of `table_patch`: the inner difference, then the rest. -/
theorem Patched.join {h'' : Heap K V}
    (fit : Fit h a (.sub key inner rest) (.sub key inner' rest') entries)
    (field : h.get a key = some (.ref b)) (inside : Patched h h' b inner inner' patched)
    (after : Patched h' h'' a rest rest' below) :
    Patched h h'' a (.sub key inner rest) (.sub key inner' rest') below := by
  obtain ⟨same, agreesRest, others⟩ := Patched.outside fit field inside
  refine ⟨after.free.trans inside.free, ?_, ?_, after.shown⟩
  · intro l away untouched
    have later : h''.get l = h'.get l := by
      refine after.frame l away fun p reach enters => ?_
      rcases Patched.track_outer fit field inside reach with old | ⟨q, rfl, -⟩
      · exact untouched p old (.inr (.inr enters))
      · exact fit.distinct.2.2 q enters
    rw [later]
    exact (Patched.within fit field inside).frame l away untouched
  · intro p l reach
    rcases after.track p l reach with old | new
    · exact (Patched.within fit field inside).track p l old
    · exact .inr (.inr (agreesRest.reaches_iff.mp new))

/-- The rest of the difference, where the `sub` entry has nothing to do. -/
theorem Patched.skip (after : Patched h h' a rest rest' below) :
    Patched h h' a (.sub key inner rest) (.sub key inner' rest') below where
  free := after.free
  frame := fun l away untouched =>
    after.frame l away fun p reach enters => untouched p reach (.inr (.inr enters))
  track := fun p l reach => (after.track p l reach).imp_right .inr
  shown := after.shown

theorem Fit.skip (fit : Fit h a (.sub key inner rest) (.sub key inner' rest') entries) :
    Fit h a rest rest' entries where
  rooted := fit.rooted
  tree := fit.tree.2.1
  apart := fun q l reaches => fit.apart q l (.inr reaches)
  shown := fit.shown
  stored := fit.stored.2.2
  distinct := fit.distinct.2.1

theorem Patched.of_get {h'' : Heap K V} {stored : Stored K V} {diff : Diff K V}
    (patched : Patched h h' a stored diff entries) (same : h''.get = h'.get)
    (free : h''.free = h'.free) : Patched h h'' a stored diff entries := by
  obtain ⟨unmoved, frame, track, shown⟩ := patched
  rw [← same] at frame track shown
  exact ⟨free.trans unmoved, frame, track, shown⟩

/-- Writing a field back that the table has already changes nothing. -/
theorem get_rewrite (h : Heap K V) {slot : Lib.Slot Nat V} (field : h.get a key = some slot) :
    (h.write a ((h.tables a).insert key slot)).get = h.get := by
  rw [get_write]
  refine Function.update_eq_self_iff.mpr (funext fun k => ?_)
  rw [Fields.lookup_insert]
  split
  · next same => rw [same, field]
  · rfl

/-- An inner difference for an entry that is no table must have nothing to do. -/
theorem tablePatch_of_noTable
    (fit : Fit h a (.sub key inner rest) (.sub key inner' rest') entries)
    (noTable : ∀ below, entries key ≠ some (.table below)) :
    tablePatch (.sub key inner rest) a h =
      if inner'.isEmpty then tablePatch rest a h else (h, false) := by
  have noRef : ∀ b, h.get a key ≠ some (.ref b) := by
    intro b field
    obtain ⟨doc, entry, shows⟩ := fit.shown.get field
    cases shows with
    | ref _ below _ _ => exact noTable below entry
  rw [tablePatch]
  split
  · next b field => exact absurd field (noRef b)
  · rw [fit.stored.2.1.isEmpty_eq]

/-- Once the inner call has returned, the loop goes on with the rest. -/
theorem tablePatch_of_inner
    (fit : Fit h a (.sub key inner rest) (.sub key inner' rest') entries)
    (field : h.get a key = some (.ref b)) (returned : (tablePatch inner b h).2 = true)
    (inside : Patched h (tablePatch inner b h).1 b inner inner' patched) :
    ∃ h₁, tablePatch (.sub key inner rest) a h = tablePatch rest a h₁ ∧
      Patched h h₁ b inner inner' patched := by
  have kept := (Patched.outside fit field inside).1
  simp only [tablePatch, field, returned, if_true]
  generalize (tablePatch inner b h).1 = h₁ at *
  have fieldNow : h₁.get a key = some (.ref b) := by rw [kept, field]
  exact ⟨_, rfl, inside.of_get (get_rewrite h₁ fieldNow) rfl⟩

/-- `table_patch` in place does what the difference means. -/
theorem tablePatch_spec (stored : Stored K V) {diff : Diff K V} {entries final : Entries K V}
    (fit : Fit h a stored diff entries) (action : diff.apply entries = some final) :
    (tablePatch stored a h).2 = true ∧ Patched h (tablePatch stored a h).1 a stored diff final := by
  induction stored generalizing h a diff entries final with
  | flat del mod =>
      cases diff with
      | sub => exact fit.stored.elim
      | flat del' mod' =>
          obtain rfl : del = del' := fit.stored.1
          cases action
          refine ⟨rfl, patched_flat fit rfl ?_ ?_⟩
          · intro l away
            simp [tablePatch, away]
          · intro k
            rw [tablePatch, get_write, Function.update_self, assignAll_lookup _ mod.nodupKeys,
              eraseAll_lookup]
            rfl
  | sub key inner rest ihInner ihRest =>
      cases diff with
      | flat => exact fit.stored.elim
      | sub key' inner' rest' =>
          obtain rfl : key = key' := fit.stored.1
          -- where the entry is no table, the inner difference is empty
          have skips : (∀ below, entries key ≠ some (.table below)) →
              (tablePatch (.sub key inner rest) a h).2 = true ∧
                Patched h (tablePatch (.sub key inner rest) a h).1 a (.sub key inner rest)
                  (.sub key inner' rest') final := by
            intro noTable
            rw [Diff.apply_of_noTable noTable] at action
            rw [tablePatch_of_noTable fit noTable]
            cases empty : inner'.isEmpty with
            | false => simp [empty] at action
            | true =>
                obtain ⟨returned, after⟩ := ihRest fit.skip (by simpa [empty] using action)
                exact ⟨returned, after.skip⟩
          cases entry : entries key with
          | none => exact skips (by simp [entry])
          | some doc =>
              cases doc with
              | scalar value => exact skips (by simp [entry])
              | table below =>
                  obtain ⟨b, field, shownBelow⟩ := fit.shown.table entry
                  simp only [Diff.apply, entry] at action
                  obtain ⟨patched, innerDone, restDone⟩ := Option.bind_eq_some_iff.mp action
                  obtain ⟨returned, inside⟩ := ihInner (fit.descend field shownBelow) innerDone
                  obtain ⟨h₁, step, inside'⟩ := tablePatch_of_inner fit field returned inside
                  obtain ⟨returned', after⟩ := ihRest (fit.resume field inside') restDone
                  rw [step]
                  exact ⟨returned', .join fit field inside' after⟩

section Consequences

variable {stored : Stored K V} {diff : Diff K V} {before : Entries K V}

/-- The tables of the difference itself are left alone. -/
theorem Patched.own (fit : Fit h a stored diff before)
    (patched : Patched h h' a stored diff entries) : Stored.Agrees h.get h'.get stored :=
  fun path l reaches => patched.frame l (fit.apart path l reaches).1 fun p reach =>
    absurd reach ((fit.apart path l reaches).2 p)

/-- The patched table is a tree again. -/
theorem Patched.rooted (fit : Fit h a stored diff before)
    (patched : Patched h h' a stored diff entries) : Rooted h'.get a where
  tree := by
    intro p q l left right
    rcases patched.track p l left with old | new
    · rcases patched.track q l right with old' | new'
      · exact fit.rooted.tree p q l old old'
      · exact absurd old ((fit.apart q l new').2 p)
    · rcases patched.track q l right with old' | new'
      · exact absurd old' ((fit.apart p l new).2 q)
      · exact fit.tree.path_eq new new'
  fresh := by
    intro path loops
    rcases patched.track path a loops with old | new
    · exact fit.rooted.fresh path old
    · exact (fit.apart path a new).1 rfl

end Consequences

/-! ## Trees below a bound -/

/-- The table `a` is a tree of locations below the bound, and shows the entries. -/
structure Holds (h : Heap K V) (bound a : Nat) (entries : Entries K V) : Prop where
  root : a < bound
  rooted : Rooted h.get a
  known : ∀ path l, Reach h.get (h.get a) path l → l < bound
  shown : ShowsFields h.get (h.get a) entries

section Bounded

variable {bound : Nat} {stored : Stored K V} {diff : Diff K V} {before : Entries K V}

theorem Holds.agrees (holds : Holds h bound a entries) (old : ∀ l < bound, h'.get l = h.get l) :
    Agrees h.get h'.get (h.get a) :=
  fun path l reach => old l (holds.known path l reach)

/-- A tree stays when only locations from the bound on change. -/
theorem Holds.frame (holds : Holds h bound a entries) (old : ∀ l < bound, h'.get l = h.get l) :
    Holds h' bound a entries := by
  have same := old a holds.root
  have agrees := holds.agrees old
  refine ⟨holds.root, ⟨?_, ?_⟩, ?_, ?_⟩
  · rw [same]
    exact holds.rooted.tree.congr agrees
  · rw [same]
    exact fun path loops => holds.rooted.fresh path (agrees.reach_back loops)
  · rw [same]
    exact fun path l reach => holds.known path l (agrees.reach_back reach)
  · rw [same]
    exact holds.shown.frame agrees

/-- A difference whose tables lie from the bound on shares nothing with the tree. -/
theorem Holds.fit (holds : Holds h bound a entries) (tree : stored.IsTree h.get)
    (shown : stored.Shows h.get diff) (distinct : diff.Distinct)
    (fresh : ∀ path l, stored.Reaches h.get path l → bound ≤ l) :
    Fit h a stored diff entries where
  rooted := holds.rooted
  tree := tree
  apart := fun q l reaches =>
    ⟨Nat.ne_of_gt (Nat.lt_of_lt_of_le holds.root (fresh q l reaches)), fun p reach =>
      absurd (holds.known p l reach) (Nat.not_lt.mpr (fresh q l reaches))⟩
  shown := holds.shown
  stored := shown
  distinct := distinct

/-- The patched tree, below a bound for the tables of the difference as well. -/
theorem Patched.holds {next : Nat} (patched : Patched h h' a stored diff entries)
    (fit : Fit h a stored diff before) (holds : Holds h bound a before) (grows : bound ≤ next)
    (fresh : ∀ path l, stored.Reaches h.get path l → l < next) : Holds h' next a entries where
  root := Nat.lt_of_lt_of_le holds.root grows
  rooted := patched.rooted fit
  known := by
    intro path l reach
    rcases patched.track path l reach with old | new
    · exact Nat.lt_of_lt_of_le (holds.known path l old) grows
    · exact fresh path l new
  shown := patched.shown

end Bounded

theorem Holds.mono {bound next : Nat} (holds : Holds h bound a entries) (grows : bound ≤ next) :
    Holds h next a entries where
  root := Nat.lt_of_lt_of_le holds.root grows
  rooted := holds.rooted
  known := fun path l reach => Nat.lt_of_lt_of_le (holds.known path l reach) grows
  shown := holds.shown

/-- A message that has been unpacked, on a tree that was there before. -/
theorem Holds.fit_unpacked {stored : Stored K V} {diff : Diff K V}
    (holds : Holds h h.free a entries) (distinct : diff.Distinct)
    (unpacked : UnpackedDiff h h' stored diff) :
    Holds h' h.free a entries ∧ Fit h' a stored diff entries := by
  have kept := holds.frame unpacked.old
  exact ⟨kept, kept.fit unpacked.tree unpacked.shown distinct fun path l reaches =>
    (unpacked.fresh path l reaches).1⟩

/-- A table that has been unpacked is a tree of new locations. -/
theorem unpackTable_spec (t : Table K V) (h : Heap K V) :
    Holds (unpackTable t h).1 (unpackTable t h).1.free (unpackTable t h).2 t.denote ∧
      h.free ≤ (unpackTable t h).1.free ∧
      ∀ l < h.free, (unpackTable t h).1.get l = h.get l := by
  obtain ⟨unpacked, shown⟩ := unpack_spec t h
  simp only [unpackTable]
  generalize unpack t h = result at *
  obtain ⟨h₁, fields⟩ := result
  simp only at *
  have atNew := get_new_here h₁ fields
  have agrees := unpacked.agrees fun l less => get_new_old h₁ fields less
  have below : ∀ path l, Reach (h₁.new fields).1.get ((h₁.new fields).1.get h₁.free) path l →
      Reach h₁.get (fun k => fields.lookup k) path l := by
    intro path l reach
    rw [atNew] at reach
    exact agrees.reach_back reach
  refine ⟨⟨Nat.lt_succ_self _, ⟨?_, ?_⟩, ?_, ?_⟩, Nat.le_succ_of_le unpacked.grows, ?_⟩
  · intro p q l left right
    exact unpacked.tree p q l (below p l left) (below q l right)
  · intro path loops
    exact absurd (unpacked.fresh path _ (below path _ loops)).2 (Nat.lt_irrefl _)
  · intro path l reach
    exact Nat.lt_succ_of_lt (unpacked.fresh path l (below path l reach)).2
  · have shownNew := shown.frame agrees
    rwa [← atNew] at shownNew
  · intro l less
    rw [get_new_old h₁ fields (Nat.lt_of_lt_of_le less unpacked.grows), unpacked.old l less]

end Heap

end WindLtask
