import WindLtask.Cell.Saving
import WindLtask.Lib.KeyedLoop

/-!
# The document behind a cell

A cell writes its state with `$set`, which replaces the fields it lists and
leaves the others.  The saving cell is run together with the document of its
state.  The mongo service takes the updates of one cell in the order in which
they were issued, and answers in that order.
-/

set_option linter.unusedSectionVars false

namespace WindLtask

variable {K V : Type} [DecidableEq K]

/-- The keys of a state that its document has to show; `idKey` is the key `_id`. -/
def Orm.Admits (orm : Orm K) (idKey k : K) : Prop :=
  match orm.fliter with
  | none => k ≠ idKey
  | some stored => stored k = true

/-- An update with `{$set = fields}`. -/
def mongoSet (document fields : Table K V) : Table K V :=
  fields.pairs.foldl (fun document entry => document.set entry.1 entry.2) document

/-! ## Filters and updates key by key -/

theorem mongoSet_local : Lib.KeyLocal
    (fun (document : Table K V) (entry : K × Value K V) => document.set entry.1 entry.2)
    Table.denote (fun _ x _ => some x.denote) where
  here document key x := by simp
  elsewhere document key x other apart := by simp [apart]

/-- A field keeps its value unless it is listed. -/
theorem denote_mongoSet (document fields : Table K V) (k : K) :
    (mongoSet document fields).denote k = (fields.denote k).or (document.denote k) := by
  rw [Table.denote_apply fields]
  cases found : fields.get k with
  | none =>
      exact mongoSet_local.foldl_of_notMem _ document k (Table.notMem_pairs_of_get found)
  | some x =>
      exact mongoSet_local.foldl_of_mem fields.pairs_keys_nodup document
        ((fields.mem_pairs k x).mpr found)

theorem fliter_local (stored : K → Bool) : Lib.KeyLocal
    (fun (new : Table K V) (entry : K × Value K V) =>
      if stored entry.1 then new.set entry.1 entry.2 else new)
    Table.denote (fun key x old => if stored key then some x.denote else old) where
  here new key x := by
    by_cases admitted : stored key <;> simp [admitted]
  elsewhere new key x other apart := by
    by_cases admitted : stored key <;> simp [admitted, apart]

/-- The document of an update has every stored key as the state has it. -/
theorem Orm.denote_document (orm : Orm K) {idKey k : K} (admits : orm.Admits idKey k)
    (t : Table K V) : (orm.document t).denote k = t.denote k := by
  unfold Orm.Admits at admits
  unfold Orm.document
  cases fliter : orm.fliter with
  | none => rfl
  | some stored =>
      rw [fliter] at admits
      rw [t.denote_apply]
      cases found : t.get k with
      | none =>
          exact (fliter_local stored).foldl_of_notMem _ _ k (Table.notMem_pairs_of_get found)
      | some x =>
          have visited := (fliter_local stored).foldl_of_mem t.pairs_keys_nodup (.empty)
            ((t.mem_pairs k x).mpr found)
          simpa [show stored k = true from admits] using visited

/-! ## The cell and its document -/

/-- An update under way: the state that it was made of, and its fields. -/
structure Save (K V : Type) where
  t : Table K V
  fields : Table K V

/-- A saving cell with its document. -/
structure Mirror (K V : Type) where
  saver : Saver K V
  document : Table K V
  /-- the updates that the database has not answered, the oldest first -/
  pending : List (Save K V)
  /-- the state that the last step has saved, if it completed an update -/
  completed : Option (Table K V)
  /-- the first state, and those that have been saved -/
  saved : List (Table K V)

namespace Mirror

/-- What happens to a cell and its document. -/
inductive Event (K V : Type) where
  | patch (diff : Diff K V)
  | fire
  /-- the database answers the oldest update, or the call raises -/
  | answer (ok : Bool)
  | exit

/-- The event of the saving cell; without a delay it is `patch` that waits for the answer. -/
def Event.work (orm : Orm K) : Event K V → Saver.Event K V
  | .patch diff => .patch diff
  | .fire => .fire
  | .answer ok => if 0 < orm.delay then (if ok then .saved else .saveFailed) else .patchSaved
  | .exit => .exit

/-- The cell once its chunk has run. -/
def start (cell : Cell K V) (document : Table K V) : Mirror K V where
  saver := .start cell
  document := document
  pending := []
  completed := none
  saved := [cell.t]

/-- The effect of an event. -/
def next (orm : Orm K) (m : Mirror K V) (event : Event K V) : Mirror K V :=
  let saver := m.saver.next (some orm) (event.work orm)
  match event with
  | .answer ok =>
      match m.pending with
      | [] => { m with saver := saver, completed := none }
      | save :: rest =>
          if ok then
            { saver := saver
              document := mongoSet m.document save.fields
              pending := rest
              completed := some save.t
              saved := m.saved ++ [save.t] }
          else { m with saver := saver, pending := rest, completed := none }
  | _ =>
      { m with
        saver := saver
        pending := m.pending ++ (saver.updates.drop m.saver.updates.length).map fun update =>
          ⟨saver.cell.t, update.document⟩
        completed := none }

/-- What can happen. -/
def Enabled (m : Mirror K V) : Event K V → Prop
  | .fire => 0 < m.saver.timers
  | .answer _ => m.pending ≠ []
  | .patch _ | .exit => True

/-- One step of a cell and its document. -/
def Step (orm : Orm K) (m : Mirror K V) (event : Event K V) (m' : Mirror K V) : Prop :=
  m.Enabled event ∧ m' = m.next orm event

/-- An update that has completed has made the document equal to the state that it saved. -/
def Mirrors (orm : Orm K) (idKey : K) (m : Mirror K V) : Prop :=
  ∀ t, m.completed = some t → ∀ k, orm.Admits idKey k → m.document.denote k = t.denote k

/-- The state that a completed update has saved is still the state of the cell. -/
def Current (orm : Orm K) (idKey : K) (m : Mirror K V) : Prop :=
  ∀ t, m.completed = some t → ∀ k, orm.Admits idKey k → t.denote k = m.saver.cell.t.denote k

/-- The saved state has every stored key that the first state or an earlier saved one had. -/
def Kept (orm : Orm K) (idKey : K) (m : Mirror K V) : Event K V → Prop
  | .answer true => ∀ save ∈ m.pending.head?, ∀ earlier ∈ m.saved, ∀ k, orm.Admits idKey k →
      earlier.denote k ≠ none → save.t.denote k ≠ none
  | _ => True

/-- No patch has changed a stored key while the update was under way. -/
def Quiet (orm : Orm K) (idKey : K) (m : Mirror K V) : Event K V → Prop
  | .answer true => ∀ save ∈ m.pending.head?, ∀ k, orm.Admits idKey k →
      save.t.denote k = m.saver.cell.t.denote k
  | _ => True

/-! ## What the document has -/

/-- A step appends the updates that it issues, made of the table it ends with. -/
theorem issued (orm : Orm K) (s : Saver K V) (event : Saver.Event K V) :
    ∃ new, (s.next (some orm) event).updates = s.updates ++ new ∧
      ∀ update ∈ new, update.document = orm.document (s.next (some orm) event).cell.t := by
  cases event with
  | patch diff =>
      simp only [Saver.next, Saver.patch]
      cases s.cell.patch diff with
      | mk cell taken =>
          cases taken with
          | false => exact ⟨[], by simp⟩
          | true =>
              by_cases delayed : 0 < orm.delay
              · simp only [if_pos delayed, Saver.delaySave]
                cases s.timing with
                | true => exact ⟨[], by simp⟩
                | false => exact ⟨[], by simp⟩
              · simp only [if_neg delayed]
                exact ⟨[_], rfl, by simp [Saver.update]⟩
  | fire => exact ⟨[_], rfl, by simp [Saver.next, Saver.update]⟩
  | saved =>
      simp only [Saver.next]
      cases s.quit with
      | true => exact ⟨[], by simp [Saver.ltaskQuit]⟩
      | false => exact ⟨[], by simp⟩
  | saveFailed | patchSaved => exact ⟨[], by simp [Saver.next]⟩
  | exit =>
      simp only [Saver.next]
      cases s.timing with
      | true => exact ⟨[], by simp⟩
      | false => exact ⟨[], by simp [Saver.ltaskQuit]⟩

/-- The answer of the database changes no state. -/
theorem cell_of_answer (orm : Orm K) (s : Saver K V) (ok : Bool) :
    (s.next (some orm) (Event.work orm (.answer ok))).cell = s.cell := by
  simp only [Event.work]
  split
  · split
    · simp only [Saver.next]
      split <;> rfl
    · rfl
  · rfl

/-- The document has the stored keys of all states saved so far. -/
structure Tracked (orm : Orm K) (idKey : K) (m : Mirror K V) : Prop where
  keys : ∀ k, orm.Admits idKey k →
    (m.document.denote k ≠ none ↔ ∃ t ∈ m.saved, t.denote k ≠ none)
  fields : ∀ save ∈ m.pending, ∀ k, orm.Admits idKey k → save.fields.denote k = save.t.denote k

namespace Tracked

variable {orm : Orm K} {idKey : K} {m : Mirror K V}

theorem start {cell : Cell K V} {document : Table K V}
    (agree : ∀ k, orm.Admits idKey k → document.denote k = cell.t.denote k) :
    Tracked orm idKey (start cell document) where
  keys k admits := by simp [Mirror.start, agree k admits]
  fields _ member := nomatch member

/-- An update that completes adds its keys. -/
theorem completed (tracked : Tracked orm idKey m) {save : Save K V}
    (fields : ∀ k, orm.Admits idKey k → save.fields.denote k = save.t.denote k) (k : K)
    (admits : orm.Admits idKey k) :
    (mongoSet m.document save.fields).denote k ≠ none ↔
      ∃ t ∈ m.saved ++ [save.t], t.denote k ≠ none := by
  have keys := tracked.keys k admits
  rw [denote_mongoSet, fields k admits]
  cases present : save.t.denote k with
  | some x =>
      refine iff_of_true (by simp) ⟨save.t, by simp, by simp [present]⟩
  | none =>
      rw [Option.none_or, keys]
      constructor
      · rintro ⟨t, member, had⟩
        exact ⟨t, List.mem_append_left _ member, had⟩
      · rintro ⟨t, member, had⟩
        rcases List.mem_append.mp member with before | new
        · exact ⟨t, before, had⟩
        · obtain rfl := List.mem_singleton.mp new
          exact absurd present had

theorem step (tracked : Tracked orm idKey m) {event : Event K V} {m' : Mirror K V}
    (taken : Step orm m event m') : Tracked orm idKey m' := by
  obtain ⟨enabled, rfl⟩ := taken
  cases event with
  | answer ok =>
      cases pending : m.pending with
      | nil => exact absurd pending enabled
      | cons save rest =>
          have fields := tracked.fields
          rw [pending] at fields
          have later := fun other member => fields other (List.mem_cons_of_mem save member)
          cases ok with
          | true =>
              simp only [next, pending, if_true]
              exact ⟨tracked.completed (fields save List.mem_cons_self), later⟩
          | false =>
              simp only [next, pending]
              exact ⟨tracked.keys, later⟩
  | patch | fire | exit =>
      refine ⟨tracked.keys, fun save member k admits => ?_⟩
      rcases List.mem_append.mp member with before | new
      · exact tracked.fields save before k admits
      · obtain ⟨update, inNew, rfl⟩ := List.mem_map.mp new
        obtain ⟨issued, appended, documents⟩ := issued orm m.saver _
        rw [appended, List.drop_left] at inNew
        simp only [documents update inNew, orm.denote_document admits]

/-- The document is the saved state exactly when no stored key of it is missing there. -/
theorem mirrors_iff (tracked : Tracked orm idKey m) (event : Event K V) :
    Mirrors orm idKey (m.next orm event) ↔ Kept orm idKey m event := by
  cases event with
  | answer ok =>
      cases pending : m.pending with
      | nil => cases ok <;> simp [Mirrors, Kept, next, pending]
      | cons save rest =>
          cases ok with
          | false => simp [Mirrors, Kept, next, pending]
          | true =>
              have fields := tracked.fields save (by simp [pending])
              simp only [Mirrors, Kept, next, pending, if_true, Option.some.injEq, forall_eq',
                List.head?_cons, Option.mem_def, denote_mongoSet]
              constructor
              · intro mirrors earlier member k admits had missing
                have same := mirrors k admits
                rw [fields k admits, missing, Option.none_or] at same
                exact (tracked.keys k admits).mpr ⟨earlier, member, had⟩ same
              · intro kept k admits
                rw [fields k admits]
                cases present : save.t.denote k with
                | some x => rfl
                | none =>
                    by_contra shown
                    obtain ⟨earlier, member, had⟩ := (tracked.keys k admits).mp shown
                    exact kept earlier member k admits had present
  | patch | fire | exit => simp [Mirrors, Kept, next]

end Tracked

/-- The cell still has the saved state exactly when no stored key has changed since. -/
theorem current_iff (orm : Orm K) (idKey : K) (m : Mirror K V) (event : Event K V) :
    Current orm idKey (m.next orm event) ↔ Quiet orm idKey m event := by
  cases event with
  | answer ok =>
      have cell := cell_of_answer orm m.saver ok
      cases pending : m.pending with
      | nil => cases ok <;> simp [Current, Quiet, next, pending]
      | cons save rest =>
          cases ok with
          | false => simp [Current, Quiet, next, pending]
          | true => simp [Current, Quiet, next, pending, cell]
  | patch | fire | exit => simp [Current, Quiet, next]

/-! ## Runs -/

/--
Let the document agree with the first state of a cell.  In every run each update
that completes makes the document equal to the state it has saved if and only if
no stored key that the first state or an earlier saved one had was missing when
the update was issued; and the document is then also equal to the state of the
cell if and only if no stored key has changed in the meantime.
-/
theorem mirrors_iff_kept {orm : Orm K} {idKey : K} {cell : Cell K V} {document : Table K V}
    (agree : ∀ k, orm.Admits idKey k → document.denote k = cell.t.denote k)
    {steps : List (Mirror K V × Event K V)} {m : Mirror K V}
    (run : Lib.Run (Step orm) (start cell document) steps m) :
    ((∀ v ∈ Lib.visited steps m, Mirrors orm idKey v) ↔
        ∀ taken ∈ steps, Kept orm idKey taken.1 taken.2) ∧
      ((∀ v ∈ Lib.visited steps m, Mirrors orm idKey v ∧ Current orm idKey v) ↔
        ∀ taken ∈ steps, Kept orm idKey taken.1 taken.2 ∧ Quiet orm idKey taken.1 taken.2) := by
  have first : Tracked orm idKey (start cell document) := .start agree
  have mirrors : Mirrors orm idKey (start cell document) := by
    intro t none
    cases none
  have current : Current orm idKey (start cell document) := by
    intro t none
    cases none
  constructor
  · refine run.safe_iff (Kept orm idKey) (fun v => Tracked orm idKey v ∧ Mirrors orm idKey v)
      (Mirrors orm idKey) ⟨first, mirrors⟩ ?_ (fun _ inv => inv.2) ?_
    · rintro v event v' ⟨tracked, -⟩ kept ⟨enabled, rfl⟩
      exact ⟨tracked.step ⟨enabled, rfl⟩, (tracked.mirrors_iff event).mpr kept⟩
    · rintro v event v' ⟨tracked, -⟩ notKept ⟨enabled, rfl⟩ mirrors
      exact notKept ((tracked.mirrors_iff event).mp mirrors)
  · refine run.safe_iff (fun v event => Kept orm idKey v event ∧ Quiet orm idKey v event)
      (fun v => Tracked orm idKey v ∧ Mirrors orm idKey v ∧ Current orm idKey v)
      (fun v => Mirrors orm idKey v ∧ Current orm idKey v)
      ⟨first, mirrors, current⟩ ?_ (fun _ inv => inv.2) ?_
    · rintro v event v' ⟨tracked, -⟩ ⟨kept, quiet⟩ ⟨enabled, rfl⟩
      exact ⟨tracked.step ⟨enabled, rfl⟩, (tracked.mirrors_iff event).mpr kept,
        (v.current_iff orm idKey event).mpr quiet⟩
    · rintro v event v' ⟨tracked, -⟩ loud ⟨enabled, rfl⟩ ⟨mirrors, current⟩
      exact loud ⟨(tracked.mirrors_iff event).mp mirrors,
        (v.current_iff orm idKey event).mp current⟩

/-- The state of a room and its document, whose `_id` has the key 0. -/
def roomStart : Mirror Nat Nat :=
  start ⟨.scalar 1 1 .empty, 0, []⟩ (.scalar 0 9 (.scalar 1 1 .empty))

theorem roomStart_agrees (k : Nat) (admits : Saver.room.Admits 0 k) :
    (Table.scalar 0 9 (.scalar 1 1 .empty) : Table Nat Nat).denote k =
      (Table.scalar 1 1 .empty : Table Nat Nat).denote k := by
  have apart : k ≠ 0 := admits
  simp [Table.denote, apart]

/-- A key is changed and saved. -/
def changeRun : List (Event Nat Nat) := [.patch (Saver.assign 2), .fire, .answer true]

theorem changeRun_legal : Lib.Legal Enabled (next Saver.room) roomStart changeRun :=
  ⟨trivial, Nat.one_pos, List.cons_ne_nil _ _, trivial⟩

theorem mirrors_of_changeRun :
    ((∀ v ∈ Lib.visited (Lib.trace (next Saver.room) roomStart changeRun)
          (changeRun.foldl (next Saver.room) roomStart), Mirrors Saver.room 0 v) ↔
        ∀ taken ∈ Lib.trace (next Saver.room) roomStart changeRun,
          Kept Saver.room 0 taken.1 taken.2) ∧
      ((∀ v ∈ Lib.visited (Lib.trace (next Saver.room) roomStart changeRun)
          (changeRun.foldl (next Saver.room) roomStart),
          Mirrors Saver.room 0 v ∧ Current Saver.room 0 v) ↔
        ∀ taken ∈ Lib.trace (next Saver.room) roomStart changeRun,
          Kept Saver.room 0 taken.1 taken.2 ∧ Quiet Saver.room 0 taken.1 taken.2) :=
  mirrors_iff_kept roomStart_agrees (Lib.Run.of_legal changeRun_legal)

/-- A key is deleted, and the delay ends. -/
def deleteRun : List (Event Nat Nat) :=
  [.patch (Diff.ofParts [1] .empty []), .fire, .answer true]

theorem deleteRun_legal : Lib.Legal Enabled (next Saver.room) roomStart deleteRun :=
  ⟨trivial, Nat.one_pos, List.cons_ne_nil _ _, trivial⟩

/-- The save has completed, and the deleted key is still in the document. -/
theorem deleted_key_kept :
    ∃ (steps : List (Mirror Nat Nat × Event Nat Nat)) (m : Mirror Nat Nat),
      Lib.Run (Step Saver.room) roomStart steps m ∧ m.completed = some m.saver.cell.t ∧
        m.saver.cell.t.get 1 = none ∧ m.document.get 1 = some (.scalar 1) ∧
        ¬ Mirrors Saver.room 0 m := by
  refine ⟨_, _, Lib.Run.of_legal deleteRun_legal, by decide, by decide, by decide, ?_⟩
  intro mirrors
  have same := mirrors .empty rfl 1 (show 1 ≠ 0 by decide)
  have missing := (Table.denote_eq_none_iff _ 1).mp same
  exact absurd missing (by decide)

end Mirror

end WindLtask
