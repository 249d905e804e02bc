import WindLtask.Cell.Patching
import WindLtask.Lib.Transition
import WindLtask.Worker.StarreLaws

/-!
# Synchronising with a cell

Whether a worker that holds an old value and replays the patches of `S.query`
ends with the value that the cell has now.  The stored patches share tables with
`t`, so this rests on what later patches leave of them.
-/

set_option linter.unusedSectionVars false

namespace WindLtask

open Lib

variable {K V : Type} [DecidableEq K] [DecidableEq V]

/-- A commit: the state that a worker has read, and the one it wants. -/
structure Commit (K V : Type) where
  old : Table K V
  new : Table K V

/-- Differences one after the other. -/
def applyAll (diffs : List (Diff K V)) (entries : Entries K V) : Option (Entries K V) :=
  diffs.foldlM (fun entries diff => diff.apply entries) entries

namespace SharedCell

/-- The effect of a commit. -/
def next (s : SharedCell K V) (commit : Commit K V) : SharedCell K V :=
  match ltdiff commit.old commit.new with
  | some diff => s.patch diff
  | none => s

/-- The worker has read the state that the cell holds, and changes it. -/
def Enabled (s : SharedCell K V) (commit : Commit K V) : Prop :=
  ShowsFields s.heap.get (s.heap.get s.t) commit.old.denote ∧
    (ltdiff commit.old commit.new).isSome

/-- One commit. -/
def Step (s : SharedCell K V) (commit : Commit K V) (s' : SharedCell K V) : Prop :=
  s.Enabled commit ∧ s' = s.next commit

/--
The commit enters no path to which a difference from the second one on has
assigned a table.
-/
def Apart (s : SharedCell K V) (commit : Commit K V) : Prop :=
  ∀ diff, ltdiff commit.old commit.new = some diff →
    ∀ earlier ∈ s.committed.drop 1, ∀ path, earlier.Installs path → ¬ diff.Enters path

/-! ## The invariant -/

/-- The state is a tree, and has the value to which the committed differences lead. -/
structure Kept (initial : Entries K V) (s : SharedCell K V) : Prop where
  root : s.t < s.heap.free
  rooted : Rooted s.heap.get s.t
  known : ∀ path l, Reach s.heap.get (s.heap.get s.t) path l → l < s.heap.free
  version : s.version = s.committed.length
  stored : s.patches.length = s.committed.length
  value : ∃ entries, ShowsFields s.heap.get (s.heap.get s.t) entries ∧
    applyAll s.committed initial = some entries

/-- A stored patch shows what was committed, and sits in `t` only where it was put. -/
structure Intact (s : SharedCell K V) (stored : Stored K V) (diff : Diff K V) : Prop where
  shown : stored.Shows s.heap.get diff
  known : ∀ path l, stored.Reaches s.heap.get path l → l < s.heap.free ∧ l ≠ s.t
  placed : ∀ path l, stored.Reaches s.heap.get path l →
    ∀ q, Reach s.heap.get (s.heap.get s.t) q l → path = q

/-- The stored patches from the second one on are intact. -/
def AllIntact (s : SharedCell K V) : Prop :=
  ∀ i stored diff, 1 ≤ i → s.patches[i]? = some stored → s.committed[i]? = some diff →
    s.Intact stored diff

/-- Every location of a stored patch lies below a table that the difference assigns. -/
theorem installs_of_reaches {m : Memory Nat K V} {stored : Stored K V} {diff : Diff K V}
    (shown : stored.Shows m diff) {path : List K} {l : Nat} (reaches : stored.Reaches m path l) :
    ∃ first later, path = first ++ later ∧ first ≠ [] ∧ diff.Installs first := by
  induction stored generalizing diff path with
  | flat del mod =>
      cases diff with
      | sub => exact shown.elim
      | flat del' mod' =>
          cases path with
          | nil => exact absurd rfl (Reach.path_ne_nil reaches)
          | cons k path =>
              obtain ⟨b, field, -⟩ := Reach.cons_iff.mp reaches
              obtain ⟨doc, entry, shows⟩ := shown.2.get field
              cases shows with
              | ref _ entries _ _ =>
                  obtain ⟨sub, assigned, -⟩ := (mod'.denote_eq_table_iff k entries).mp entry
                  exact ⟨[k], path, rfl, List.cons_ne_nil _ _, k, sub, rfl, assigned⟩
  | sub key inner rest ihInner ihRest =>
      cases diff with
      | flat => exact shown.elim
      | sub key' inner' rest' =>
          obtain ⟨rfl, shownInner, shownRest⟩ := shown
          rcases reaches with ⟨below, rfl, reaches⟩ | reaches
          · obtain ⟨first, later, rfl, -, installs⟩ := ihInner shownInner reaches
            exact ⟨key :: first, later, rfl, List.cons_ne_nil _ _, .inl ⟨first, rfl, installs⟩⟩
          · obtain ⟨first, later, rfl, some', installs⟩ := ihRest shownRest reaches
            exact ⟨first, later, rfl, some', .inr installs⟩

omit [DecidableEq V] in
theorem start_holds (t : Table K V) :
    (start t).heap.Holds (start t).heap.free (start t).t t.denote :=
  (Heap.unpackTable_spec t (⟨fun _ => ∅, 0⟩ : Heap K V)).1

theorem Kept.start (t : Table K V) : (start t).Kept t.denote ∧
    ShowsFields (start t).heap.get ((start t).heap.get (start t).t) t.denote := by
  have holds := start_holds t
  exact ⟨⟨holds.root, holds.rooted, holds.known, rfl, rfl, t.denote, holds.shown, rfl⟩,
    holds.shown⟩

/-! ## One commit -/

theorem Kept.holds {initial : Entries K V} {s : SharedCell K V} (kept : s.Kept initial)
    {entries : Entries K V} (shown : ShowsFields s.heap.get (s.heap.get s.t) entries) :
    s.heap.Holds s.heap.free s.t entries :=
  ⟨kept.root, kept.rooted, kept.known, shown⟩

/-- A stored patch that the commit does not enter stays as it is. -/
theorem Intact.step {s : SharedCell K V} {earlier : Stored K V} {d : Diff K V}
    (intact : s.Intact earlier d) {h h' : Heap K V} {stored : Stored K V} {diff : Diff K V}
    {entries : Entries K V} (unpacked : Heap.UnpackedDiff s.heap h stored diff)
    (same : h.get s.t = s.heap.get s.t) (agrees : Agrees s.heap.get h.get (s.heap.get s.t))
    (patched : Heap.Patched h h' s.t stored diff entries)
    (untouched : ∀ path, d.Installs path → ¬ diff.Enters path) (patches : List (Stored K V))
    (committed : List (Diff K V)) :
    Intact ⟨h', s.t, s.version + 1, patches, committed⟩ earlier d := by
  have unchanged : Stored.Agrees s.heap.get h'.get earlier := by
    intro path l reaches
    obtain ⟨less, away⟩ := intact.known path l reaches
    rw [← unpacked.old l less]
    refine patched.frame l away fun q reach enters => ?_
    rw [same] at reach
    obtain rfl := intact.placed path l reaches q (agrees.reach_back reach)
    obtain ⟨first, later, rfl, some', installs⟩ := installs_of_reaches intact.shown reaches
    exact untouched first installs (enters.of_longer some')
  refine ⟨intact.shown.frame unchanged, ?_, ?_⟩
  · intro path l reaches
    obtain ⟨less, away⟩ := intact.known path l (unchanged.reaches_iff.mp reaches)
    exact ⟨by rw [patched.free]; exact Nat.lt_of_lt_of_le less unpacked.grows, away⟩
  · intro path l reaches q reach
    have before := unchanged.reaches_iff.mp reaches
    rcases patched.track q l reach with old | new
    · rw [same] at old
      exact intact.placed path l before q (agrees.reach_back old)
    · exact absurd (intact.known path l before).1 (Nat.not_lt.mpr (unpacked.fresh q l new).1)

/-- What one commit does to the memory. -/
structure Committed (s s' : SharedCell K V) (commit : Commit K V) (diff : Diff K V)
    (stored : Stored K V) (h : Heap K V) : Prop where
  found : ltdiff commit.old commit.new = some diff
  after : s' = ⟨s'.heap, s.t, s.version + 1, s.patches ++ [stored], s.committed ++ [diff]⟩
  unpacked : Heap.UnpackedDiff s.heap h stored diff
  same : h.get s.t = s.heap.get s.t
  agrees : Agrees s.heap.get h.get (s.heap.get s.t)
  fit : Heap.Fit h s.t stored diff commit.old.denote
  patched : Heap.Patched h s'.heap s.t stored diff commit.new.denote

theorem Kept.committed {initial : Entries K V} {s s' : SharedCell K V} {commit : Commit K V}
    (kept : s.Kept initial) (step : Step s commit s') :
    ∃ diff stored h, Committed s s' commit diff stored h := by
  obtain ⟨⟨shown, changes⟩, rfl⟩ := step
  obtain ⟨diff, found⟩ := Option.isSome_iff_exists.mp changes
  have next : s.next commit = s.patch diff := by simp [SharedCell.next, found]
  have unpacked := Heap.unpackDiff_spec diff s.heap
  have holds := kept.holds shown
  obtain ⟨-, fit⟩ := holds.fit_unpacked (ltdiff_distinct found) unpacked
  obtain ⟨-, patched⟩ := Heap.tablePatch_spec _ fit (ltdiff_apply found)
  rw [next]
  exact ⟨diff, _, _, found, rfl, unpacked, unpacked.old s.t kept.root,
    holds.agrees unpacked.old, fit, patched⟩

/-- Every commit leaves the state that the worker wants. -/
theorem Kept.step {initial : Entries K V} {s s' : SharedCell K V} {commit : Commit K V}
    (kept : s.Kept initial) (step : Step s commit s') :
    s'.Kept initial ∧ ShowsFields s'.heap.get (s'.heap.get s'.t) commit.new.denote := by
  obtain ⟨diff, stored, h, found, after, unpacked, same, agrees, fit, patched⟩ :=
    kept.committed step
  obtain ⟨entries, shown, reached⟩ := kept.value
  obtain rfl : entries = commit.old.denote :=
    Doc.table.inj (shown.shows.unique step.1.1.shows)
  have free := patched.free
  have old := (kept.holds shown).frame unpacked.old
  have holds := patched.holds fit old unpacked.grows fun path l reaches =>
    (unpacked.fresh path l reaches).2
  rw [after]
  refine ⟨⟨free ▸ holds.root, holds.rooted, fun path l reach => ?_, ?_, ?_,
    ⟨_, holds.shown, ?_⟩⟩, holds.shown⟩
  · rw [free]
    exact holds.known path l reach
  · simp [kept.version]
  · simp [kept.stored]
  · simp only [applyAll, List.foldlM_append, List.foldlM_cons, List.foldlM_nil]
    rw [applyAll] at reached
    simp [reached, ltdiff_apply found]

theorem AllIntact.step {initial : Entries K V} {s s' : SharedCell K V} {commit : Commit K V}
    (intact : s.AllIntact) (kept : s.Kept initial) (apart : s.Apart commit)
    (step : Step s commit s') : s'.AllIntact := by
  obtain ⟨diff, stored, h, found, after, unpacked, same, agrees, fit, patched⟩ :=
    kept.committed step
  have free := patched.free
  rw [after]
  intro i earlier d positive atPatch atCommit
  rcases Nat.lt_or_ge i s.patches.length with before | beyond
  · rw [List.getElem?_append_left before] at atPatch
    rw [List.getElem?_append_left (kept.stored ▸ before)] at atCommit
    have listed : d ∈ s.committed.drop 1 := by
      refine List.mem_of_getElem? (i := i - 1) ?_
      rw [List.getElem?_drop, Nat.add_sub_cancel' positive]
      exact atCommit
    exact (intact i earlier d positive atPatch atCommit).step unpacked same agrees patched
      (apart diff found d listed) _ _
  · rw [List.getElem?_append_right beyond] at atPatch
    rw [List.getElem?_append_right (kept.stored ▸ beyond)] at atCommit
    have last : i - s.patches.length = 0 := by
      have bound := (List.getElem?_eq_some_iff.mp atPatch).1
      rw [List.length_singleton] at bound
      omega
    rw [last] at atPatch
    rw [← kept.stored, last] at atCommit
    cases atPatch
    cases atCommit
    have own := patched.own fit
    refine ⟨unpacked.shown.frame own, ?_, ?_⟩
    · intro path l reaches
      have fresh := unpacked.fresh path l (own.reaches_iff.mp reaches)
      exact ⟨free ▸ fresh.2, Nat.ne_of_gt (Nat.lt_of_lt_of_le kept.root fresh.1)⟩
    · intro path l reaches q reach
      have added := own.reaches_iff.mp reaches
      rcases patched.track q l reach with old | new
      · exact absurd old ((fit.apart path l added).2 q)
      · exact unpacked.tree.path_eq added new

theorem committed_prefix {s s' : SharedCell K V} {commit : Commit K V} (step : Step s commit s') :
    s.committed <+: s'.committed := by
  obtain ⟨-, rfl⟩ := step
  unfold SharedCell.next
  split
  · exact List.prefix_append _ _
  · exact List.prefix_rfl

/-! ## What a worker replays -/

/--
A worker that has the value of the state `u` synchronises with the later state
`s`: with enough fuel the two states and the answer are packed, `update_state`
does not raise on a copy of the old value and returns the present one, and every
patch that the answer may hold has the content with which it was committed.
-/
structure Synced (u s : SharedCell K V) : Prop where
  value : ∃ bound, ∀ fuel ≥ bound, ∃ answer before now,
    u.query fuel none = some ⟨u.version, some before, none⟩ ∧
    s.query fuel none = some ⟨s.version, some now, none⟩ ∧
    s.query fuel (some u.version) = some answer ∧
    ∀ copy, before.Same copy → ∃ result,
      (updateState (Cache.empty.store () u.version copy) () answer).2 = some result ∧
        now.Same result
  content : ∀ (i : Nat) stored diff, u.version ≤ i → s.patches[i]? = some stored →
    s.committed[i]? = some diff → ∃ bound, ∀ fuel ≥ bound, ∃ served,
      s.heap.packDiff fuel stored = some served ∧ diff.Same served

theorem replay_of_same {diffs served : List (Diff K V)} (same : List.Forall₂ Diff.Same diffs served)
    {entries final : Entries K V} (action : applyAll diffs entries = some final)
    {copy : Table K V} (meaning : copy.denote = entries) :
    ∃ result, replay copy served = some result ∧ result.denote = final := by
  induction same generalizing entries copy with
  | nil =>
      cases action
      exact ⟨copy, rfl, meaning⟩
  | @cons d e diffs served first rest ih =>
      simp only [applyAll, List.foldlM_cons] at action
      obtain ⟨middle, step, later⟩ := Option.bind_eq_some_iff.mp action
      have patched := denote_tablePatch e copy
      rw [meaning, ← first.apply_eq, step] at patched
      obtain ⟨next, done, meaning'⟩ := Option.map_eq_some_iff.mp patched
      obtain ⟨result, replayed, same'⟩ := ih later meaning'
      exact ⟨result, by rw [replay_cons, done]; exact replayed, same'⟩

theorem packAll_of_shows {h : Heap K V} {list : List (Stored K V)} {diffs : List (Diff K V)}
    (shown : List.Forall₂ (fun stored diff => stored.Shows h.get diff) list diffs) :
    ∃ bound, ∀ fuel ≥ bound, ∃ served, list.mapM (h.packDiff fuel) = some served ∧
      List.Forall₂ Diff.Same diffs served := by
  induction shown with
  | nil => exact ⟨0, fun fuel _ => ⟨[], rfl, .nil⟩⟩
  | cons first rest ih =>
      obtain ⟨bound, packed⟩ := Heap.packDiff_of_shows first
      obtain ⟨bound', packed'⟩ := ih
      refine ⟨max bound bound', fun fuel enough => ?_⟩
      obtain ⟨d, done, same⟩ := packed fuel (by omega)
      obtain ⟨served, done', same'⟩ := packed' fuel (by omega)
      exact ⟨d :: served, by simp [List.mapM_cons, done, done'], .cons same same'⟩

theorem Kept.query_whole {initial : Entries K V} {s : SharedCell K V} (kept : s.Kept initial) :
    ∃ entries bound, applyAll s.committed initial = some entries ∧ ∀ fuel ≥ bound, ∃ now,
      s.query fuel none = some ⟨s.version, some now, none⟩ ∧ now.denote = entries := by
  obtain ⟨entries, shown, reached⟩ := kept.value
  obtain ⟨bound, packed⟩ := Heap.pack_of_shows shown
  refine ⟨entries, bound, reached, fun fuel enough => ?_⟩
  obtain ⟨now, done, meaning⟩ := packed fuel enough
  exact ⟨now, by simp [query, done], meaning⟩

/-- The patches that a worker lacks lead from its value to the present one. -/
theorem Synced.of_intact {initial : Entries K V} {u s : SharedCell K V} (keptU : u.Kept initial)
    (kept : s.Kept initial) (intact : s.AllIntact) (earlier : u.committed <+: s.committed)
    (positive : 0 < u.version) : u.Synced s := by
  obtain ⟨later, joined⟩ := earlier
  obtain ⟨entriesU, boundU, reachedU, packedU⟩ := keptU.query_whole
  obtain ⟨entries, boundS, reached, packedS⟩ := kept.query_whole
  have action : applyAll later entriesU = some entries := by
    rw [← joined, applyAll, List.foldlM_append, ← applyAll, reachedU] at reached
    exact reached
  have lacks : s.committed.drop u.version = later := by
    rw [keptU.version, ← joined, List.drop_left]
  have shows : List.Forall₂ (fun stored diff => stored.Shows s.heap.get diff)
      (s.patches.drop u.version) later := by
    rw [← lacks]
    refine List.forall₂_iff_get.mpr ⟨by simp [kept.stored], fun i left right => ?_⟩
    rw [List.get_eq_getElem, List.get_eq_getElem, List.getElem_drop, List.getElem_drop]
    exact (intact (u.version + i) _ _ (by omega) (List.getElem?_eq_getElem _)
      (List.getElem?_eq_getElem _)).shown
  refine ⟨?_, ?_⟩
  · obtain ⟨bound, packed⟩ := packAll_of_shows shows
    refine ⟨max bound (max boundU boundS), fun fuel enough => ?_⟩
    obtain ⟨before, queryU, meaningU⟩ := packedU fuel (by omega)
    obtain ⟨now, queryS, meaning⟩ := packedS fuel (by omega)
    obtain ⟨served, done, same⟩ := packed fuel (by omega)
    have notZero : u.version ≠ 0 := by omega
    by_cases current : u.version = s.version
    · have none_later : later = [] := by
        rw [← lacks, current, kept.version, List.drop_length]
      subst none_later
      refine ⟨⟨s.version, none, none⟩, before, now, queryU, queryS, ?_, fun copy copied => ?_⟩
      · simp [query, ← current, notZero]
      · cases action
        refine ⟨copy, ?_, ?_⟩
        · simp [updateState, Cache.store, current]
        · rw [Table.Same, meaning, ← meaningU]
          exact copied
    · have inside : u.version < s.patches.length := by
        have total := congrArg List.length joined
        rw [List.length_append, ← keptU.version, ← kept.version] at total
        rw [kept.stored, ← kept.version]
        omega
      refine ⟨⟨s.version, none, some served⟩, before, now, queryU, queryS, ?_,
        fun copy copied => ?_⟩
      · simp [query, notZero, current, inside, done]
      · have meaningCopy : copy.denote = entriesU := by
          rw [← meaningU]
          exact copied.symm
        obtain ⟨result, replayed, meaningResult⟩ := replay_of_same same action meaningCopy
        refine ⟨result, ?_, ?_⟩
        · simp [updateState, Cache.store, current, replayed]
        · rw [Table.Same, meaning, meaningResult]
  · intro i stored diff after atPatch atCommit
    exact Heap.packDiff_of_shows (intact i stored diff (by omega) atPatch atCommit).shown

/--
In every run of a cell in which no commit enters a path to which a difference
from the second one on has assigned a table, a worker with the value of any
version from the first one on can synchronise with the cell.
-/
theorem synced_of_apart {t : Table K V} {steps : List (SharedCell K V × Commit K V)}
    {s : SharedCell K V} (run : Lib.Run Step (start t) steps s)
    (apart : ∀ taken ∈ steps, taken.1.Apart taken.2) :
    ∀ u ∈ Lib.visited steps s, 0 < u.version → u.Synced s := by
  have none_stored : (start t).AllIntact := by
    intro i stored diff _ atPatch
    simp [SharedCell.start] at atPatch
  have inv := run.invariant_visited (fun s commit => s.Apart commit)
    (fun s => s.Kept t.denote ∧ s.AllIntact) ⟨(Kept.start t).1, none_stored⟩
    (fun s commit s' inv apart step => ⟨(inv.1.step step).1, inv.2.step inv.1 apart step⟩) apart
  have earlier : ∀ u ∈ Lib.visited steps s, u.committed <+: s.committed :=
    run.ascending (fun u s => u.committed <+: s.committed) (fun s => List.prefix_rfl)
      List.IsPrefix.trans fun s commit s' step => committed_prefix step
  intro u member positive
  obtain ⟨kept, intact⟩ := inv s (by simp [Lib.visited])
  exact .of_intact (inv u member).1 kept intact (earlier u member) positive

/-! ## Two runs -/

/-- Each commit of a list starts from the state that the one before it wanted. -/
def Chained : Table K V → List (Commit K V) → Prop
  | _, [] => True
  | t, commit :: rest =>
      commit.old = t ∧ (ltdiff commit.old commit.new).isSome ∧ Chained commit.new rest

theorem legal_of_chained {initial : Entries K V} {s : SharedCell K V} {t : Table K V}
    (kept : s.Kept initial) (shown : ShowsFields s.heap.get (s.heap.get s.t) t.denote)
    {commits : List (Commit K V)} (chained : Chained t commits) :
    Lib.Legal Enabled next s commits := by
  induction commits generalizing s t with
  | nil => trivial
  | cons commit rest ih =>
      obtain ⟨rfl, changes, later⟩ := chained
      have enabled : s.Enabled commit := ⟨shown, changes⟩
      obtain ⟨kept', shown'⟩ := kept.step ⟨enabled, rfl⟩
      exact ⟨enabled, ih kept' shown' later⟩

/-- A difference without `sub` entries enters nothing. -/
theorem apart_of_flat (s : SharedCell K V) {commit : Commit K V} {del : List K} {mod : Table K V}
    (flat : ltdiff commit.old commit.new = some (.flat del mod)) : s.Apart commit := by
  intro diff found earlier _ path _ enters
  cases flat.symm.trans found
  exact enters

/-- A state with the scalar `w` at the key 0. -/
def single (w : Nat) : Table Nat Nat := .scalar 0 w .empty

/-- The same with two nested tables below the key 1, and the scalar `v` in the inner one. -/
def nested (v w : Nat) : Table Nat Nat :=
  .scalar 0 w (.table 1 (.table 2 (.scalar 3 v .empty) .empty) .empty)

/-- A scalar is set, the tables are added, and the scalar is changed. -/
def quietRun : List (Commit Nat Nat) :=
  [⟨.empty, single 1⟩, ⟨single 1, nested 1 1⟩, ⟨nested 1 1, nested 1 2⟩]

theorem quietRun_legal : Lib.Legal Enabled next (start (.empty : Table Nat Nat)) quietRun :=
  legal_of_chained (Kept.start _).1 (Kept.start _).2
    ⟨rfl, by decide, rfl, by decide, rfl, by decide, trivial⟩

theorem quietRun_apart : Lib.Legal Apart next (start (.empty : Table Nat Nat)) quietRun :=
  ⟨apart_of_flat _ (show ltdiff _ _ = some (.flat [] (single 1)) by decide),
    apart_of_flat _ (show ltdiff _ _ = some (.flat []
      (.table 1 (.table 2 (.scalar 3 1 .empty) .empty) .empty)) by decide),
    apart_of_flat _ (show ltdiff _ _ = some (.flat [] (single 2)) by decide), trivial⟩

theorem synced_of_quietRun :
    ∃ (steps : List (SharedCell Nat Nat × Commit Nat Nat)) (s : SharedCell Nat Nat),
      Lib.Run Step (start .empty) steps s ∧ s.version = 3 ∧
        ∀ u ∈ Lib.visited steps s, 0 < u.version → u.Synced s := by
  have run := Lib.Run.of_legal quietRun_legal
  exact ⟨_, _, run, rfl, synced_of_apart run ((Lib.legal_iff _ _).mp quietRun_apart)⟩

/-- The third commit changes the inner table, and the fourth one removes it. -/
def loudRun : List (Commit Nat Nat) :=
  [⟨.empty, single 1⟩, ⟨single 1, nested 1 1⟩, ⟨nested 1 1, nested 2 1⟩,
    ⟨nested 2 1, .scalar 0 1 (.table 1 .empty .empty)⟩]

theorem loudRun_legal : Lib.Legal Enabled next (start (.empty : Table Nat Nat)) loudRun :=
  legal_of_chained (Kept.start _).1 (Kept.start _).2
    ⟨rfl, by decide, rfl, by decide, rfl, by decide, rfl, by decide, trivial⟩

/-- The patches that the cell serves after the run: the first one has lost the inner table. -/
def servedLate : List (Diff Nat Nat) :=
  [.flat [] (.table 1 .empty .empty),
    .sub 1 (.sub 2 (.flat [] (.scalar 3 2 .empty)) (.flat [] .empty)) (.flat [] .empty),
    .sub 1 (.flat [2] .empty) (.flat [] .empty)]

theorem loudRun_served (fuel : Nat) :
    (loudRun.foldl next (start .empty)).query (fuel + 4) (some 1) =
      some ⟨4, none, some servedLate⟩ :=
  rfl

/-- A worker with the value of version 1 cannot replay the patches that it is sent. -/
theorem replay_raises :
    ∃ (steps : List (SharedCell Nat Nat × Commit Nat Nat)) (s : SharedCell Nat Nat),
      Lib.Run Step (start .empty) steps s ∧
        ∃ u ∈ Lib.visited steps s, 0 < u.version ∧ ¬ u.Synced s := by
  have first : next (start .empty) ⟨.empty, single 1⟩ ∈
      Lib.visited (Lib.trace next (start .empty) loudRun) (loudRun.foldl next (start .empty)) :=
    List.mem_cons_of_mem _ List.mem_cons_self
  refine ⟨_, _, Lib.Run.of_legal loudRun_legal, _, first, by decide, fun synced => ?_⟩
  obtain ⟨bound, packed⟩ := synced.value
  obtain ⟨answer, before, now, queryU, -, served, replays⟩ := packed (bound + 4) (by omega)
  have version : (next (start .empty) (⟨.empty, single 1⟩ : Commit Nat Nat)).version = 1 := rfl
  rw [version, loudRun_served] at served
  cases served
  have whole : (next (start .empty) (⟨.empty, single 1⟩ : Commit Nat Nat)).query (bound + 4) none =
      some ⟨1, some (single 1), none⟩ := rfl
  rw [whole] at queryU
  cases queryU
  obtain ⟨result, done, -⟩ := replays (single 1) (Table.Same.refl _)
  exact nomatch done

end SharedCell

end WindLtask
