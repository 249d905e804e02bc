import WindLtask.Lib.Transition
import WindLtask.System.CloseSteps

/-!
# What queries read

Along every run whose steps are admitted, the table that a query gets from a cell
is the value that the cell holds at that moment.  The condition that matters is
on the caches: the version counter of a cell that is created again starts from
zero, so a worker that has cached the previous cell of the name may take its old
table for a table of the new one.
-/

set_option linter.unusedSectionVars false

namespace WindLtask.System

open Manager World Process

variable {Name Addr Rid Wid K V : Type} [DecidableEq Name] [DecidableEq Addr] [DecidableEq Rid]
  [DecidableEq Wid] [DecidableEq K] [DecidableEq V]

namespace Net

variable {conf : Persistence Name K V} {s s' : Net Name Addr Rid Wid K V}

theorem Coherent.init [Inhabited Wid] : Coherent (init : Net Name Addr Rid Wid K V) where
  sound := sound_init
  exclusive := .init
  addressed := .init
  good := fun _ => rfl
  calls := fun _ _ => rfl
  spawning := fun _ => rfl
  stated := by simp [Net.init, World.init, Process.init]
  granted := by simp [Net.init, World.init]
  cells := by simp [Net.init]
  caches := by simp [Net.init, Cache.empty]
  values := by simp [Net.init]
  unborn := fun _ _ => rfl
  serial := by simp [Net.init]

/--
The names of a query are distinct, no grant covers a name while its new cell
comes up, and a cell is asked with a version that is its own or cannot be taken
for one of its own.
-/
def Admitted (s : Net Name Addr Rid Wid K V) : Label Name Addr Rid Wid K V → Prop
  | .begin _ _ names => names.Nodup
  | .spawned rid _ => ∀ name t, s.creating rid = some (name, t) →
      ∀ holder, ¬ s.mgr.Covers holder name
  | .answer rid => ∀ q name addr v, s.stage rid = .calling q name addr v →
      s.Distinguished rid name addr
  | _ => True

/-- Every admitted step keeps the services coherent. -/
theorem Coherent.step (coherent : Coherent s) {label : Label Name Addr Rid Wid K V}
    (admitted : s.Admitted label) (taken : Step conf s label s') : Coherent s' := by
  obtain ⟨enabled, rfl⟩ := taken
  cases label with
  | begin rid wid names => exact coherent.begin enabled admitted
  | lock rid names => exact coherent.lock enabled
  | granted rid list border => exact coherent.granted_reply enabled
  | answer rid => exact coherent.answer enabled admitted
  | refuse rid => exact coherent.refuse enabled
  | receive rid => exact coherent.receive enabled
  | raise rid => exact coherent.raise enabled
  | close rid tables => exact coherent.close enabled
  | fork rid => exact coherent.fork enabled
  | unlock rid entries => exact coherent.unlock enabled
  | patch rid => exact coherent.patch enabled
  | patched rid => exact coherent.patched enabled
  | patchFailed rid => exact coherent.patchFailed enabled
  | newstate rid name t => exact coherent.newstate enabled
  | spawned rid addr => exact coherent.spawned enabled admitted
  | spawnFailed rid => exact coherent.spawnFailed enabled
  | releasestate name => exact coherent.releasestate name
  | exit addr => exact coherent.exit addr

/-- The answer that arrives adds the value that the cell holds; no other step adds a read. -/
theorem Coherent.reads (coherent : Coherent s) {label : Label Name Addr Rid Wid K V}
    (taken : Step conf s label s') : ∀ read ∈ s'.reads,
      read ∈ s.reads ∨ ∀ held, read.held = some held → held.Same read.table := by
  obtain ⟨enabled, rfl⟩ := taken
  have kept : ∀ t : Net Name Addr Rid Wid K V, t.reads = s.reads → ∀ read ∈ t.reads,
      read ∈ s.reads ∨ ∀ held, read.held = some held → held.Same read.table := by
    intro t same read member
    exact .inl (same ▸ member)
  cases label with
  | receive rid =>
      cases stage : s.stage rid with
      | answered q name addr answer =>
          obtain ⟨⟨shape, held⟩, awaits, -, -, answered⟩ := coherent.at_answered stage
          obtain ⟨initial, cell, old, -, -, -, still, same, -, after⟩ :=
            receive_eq conf stage answered
          intro read member
          rw [after] at member
          rcases List.mem_append.mp member with before | new
          · exact .inl before
          · obtain rfl := List.mem_singleton.mp new
            refine .inr fun value there => ?_
            obtain ⟨now, isNow, rfl⟩ := Option.map_eq_some_iff.mp there
            obtain ⟨home, isHome, inHome⟩ := Option.bind_eq_some_iff.mp isNow
            have inNames := q.name_mem_of_awaits awaits
            have atHome :=
              coherent.at_of_state shape inNames (covers_of_held held name inNames) isHome
            obtain rfl := At.unique shape atHome (q.at_of_awaits awaits)
            rw [still now inHome]
            exact same.trans old.denote_clone.symm
      | _ => simp [Enabled, stage] at enabled
  | lock rid names => exact kept _ (delivered _ _).reads
  | patched rid => exact kept _ (delivered _ _).reads
  | patchFailed rid => exact kept _ (delivered _ _).reads
  | newstate rid name t => exact kept _ (delivered _ _).reads
  | spawnFailed rid => exact kept _ (delivered _ _).reads
  | releasestate name => exact kept _ (delivered _ _).reads
  | unlock rid entries =>
      refine kept _ ?_
      simp only [next]
      split
      · exact (delivered _ _).reads
      · rfl
  | spawned rid addr =>
      refine kept _ ?_
      simp only [next]
      split
      · exact (delivered _ _).reads
      · rfl
  | _ =>
      refine kept _ ?_
      simp only [next]
      repeat' split
      all_goals rfl

/-- No state is persistent. -/
def plain : Persistence Nat Nat Nat := ⟨fun _ => false, 0, fun _ => true⟩

theorem isBorder_one (addr : Nat) : Query.IsBorder [some addr] 1 :=
  ⟨.inr ⟨addr, rfl⟩, by simp⟩

end Net

end WindLtask.System
