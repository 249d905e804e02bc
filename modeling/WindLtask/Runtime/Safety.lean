import WindLtask.Lib.Transition
import WindLtask.Runtime.Boot

/-!
# Runs of the scheduler

From the boot on, whatever the order of the steps of the threads is: a service is run
by one thread at a time and stands in one place when it is not idle, a service with a
message is not forgotten, and no assertion fails.
-/

namespace WindLtask.Runtime

open Lib

variable {D : Type}

namespace World

variable {heard hung : Prop} {config : Config} {w w' : World D} {t : Thread}

/-! ## The services of the exclusive threads -/

@[simp] theorem services_setPool (p : Pool D) : (w.setPool p).services = w.services := rfl
@[simp] theorem services_go (next : Phase D) : (w.go t next).services = w.services := rfl
@[simp] theorem services_setWorker (i : ℕ) (worker : Worker) :
    (w.setWorker i worker).services = w.services := rfl
@[simp] theorem services_setSchedule (ids : List ℕ) :
    (w.setSchedule ids).services = w.services := rfl
@[simp] theorem services_fail (failure : Failure) : (w.fail failure).services = w.services := rfl

@[simp] theorem services_scheduleBack (id : ℕ) : (w.scheduleBack id).services = w.services := by
  unfold scheduleBack
  split <;> rfl

@[simp] theorem services_wake (id : ℕ) : (w.wake id).services = w.services := by
  unfold wake
  split <;> simp

@[simp] theorem services_dispatchScheduleMessage (id : ℕ) (msg : Message D) :
    (w.dispatchScheduleMessage id msg).services = w.services := by
  unfold dispatchScheduleMessage
  split
  · rfl
  split
  · split <;> rfl
  split
  · rfl
  split
  · dsimp only
    split
    · rfl
    · split <;> simp
  · rfl

@[simp] theorem services_dispatchOutMessage (id : ℕ) (msg : Message D) (next : Phase D) :
    (w.dispatchOutMessage t id msg next).services = w.services := by
  unfold dispatchOutMessage
  split
  · simp
  · split <;> rfl

@[simp] theorem services_dispatchSignal (goal : Goal) (id : ℕ) (doneJob : List ℕ) :
    (w.dispatchSignal t goal id doneJob).services = w.services := by
  unfold dispatchSignal
  split
  · rfl
  · split
    · dsimp only
      split <;> simp
    · rfl

theorem services_sendingTurn (e left : ℕ) (blocked : SendingBlocked) :
    (w.sendingTurn e left blocked).services = w.services := by
  have kept : ∀ sending, (w.setExclusive e { w.exclusives e with sending := sending }).services =
      w.services := fun _ => services_setExclusive _ _ rfl
  unfold sendingTurn
  split
  · rfl
  · dsimp only
    split
    · simp [kept]
    · split <;> simp [kept]

theorem ownerStep_services {phase : Phase D} (is : w.ownerStep config t phase = some w') :
    w'.services = w.services := by
  unfold ownerStep at is
  split at is
  all_goals first
    | cases is; done
    | skip
  all_goals cases is
  all_goals repeat' split
  all_goals simp [completeJob, services_sendingTurn]
  · rfl
  · exact services_setExclusive _ _ rfl

theorem call_services {id : ℕ} {c : Call D} (is : w.call config t id c = some w') :
    w'.services = w.services := by
  have exclusive : ∀ {p : Pool D} {e : ℕ} {thread : ExclusiveThread D},
      thread.service = (w.exclusives e).service →
      ((w.setPool p).setExclusive e thread).services = w.services :=
    fun same => services_setExclusive _ _ same
  cases c <;> simp only [World.call] at is
  case recv =>
    repeat' split at is
    all_goals
      cases is
      rfl
  case receipt =>
    cases is
    rfl
  case send => split at is <;> cases is <;> rfl
  case post =>
    split at is
    · cases is
    · split at is <;> cases is
      · exact services_setExclusive _ _ rfl
      · rfl
  case init =>
    repeat' split at is
    all_goals cases is <;> rfl
  case close =>
    repeat' split at is
    all_goals cases is <;> rfl
  case yield =>
    split at is
    · cases is; rfl
    · split at is <;> cases is
      · exact exclusive rfl
      · rfl
  case quit =>
    split at is
    · split at is <;> cases is <;> rfl
    · cases is; exact services_setExclusive _ _ rfl

theorem next_services {a : Action D} (is : w.next config a = some w') :
    w'.services = w.services := by
  cases a with
  | call t c =>
      obtain ⟨id, -, called⟩ := Option.bind_eq_some_iff.mp is
      exact call_services called
  | acquire t =>
      cases t with
      | worker i => simp only [World.next, World.acquire] at is; split at is <;> cases is <;> rfl
      | exclusive e =>
          simp only [World.next, World.acquire] at is
          split at is <;> cases is
          exact services_setExclusive _ _ rfl
  | owner =>
      obtain ⟨⟨t, phase⟩, -, moved⟩ := Option.bind_eq_some_iff.mp is
      exact ownerStep_services moved
  | _ =>
      simp only [World.next] at is
      repeat' split at is
      all_goals cases is
      all_goals rfl

/-! ## What the invariant tells of a world -/

/-- In how many places of the scheduler a service stands. -/
def places (config : Config) (w : World D) (id : ℕ) : ℕ :=
  ((w.tickets config).map Prod.fst).count id

/-- The invariant, and the services of the exclusive threads in the order of the boot. -/
structure Kept (heard hung : Prop) (config : Config) (w : World D) : Prop where
  sound : w.Sound heard hung config
  services : ∀ e, w.services e = e + 2

/-- Two workers have no service in common. -/
theorem Sound.worker_alone (sound : w.Sound heard hung config) {i j id : ℕ} {a b : Standing}
    (ltI : i < config.worker) (ltJ : j < config.worker)
    (here : (id, a) ∈ (w.workers i).tickets) (there : (id, b) ∈ (w.workers j).tickets) :
    i = j := by
  by_contra other
  have single := sound.stands.single
  rw [tickets_worker ltI, Multiset.map_add, Multiset.nodup_add] at single
  obtain ⟨-, -, apart⟩ := single
  have inOther : (id, b) ∈ w.otherTickets config i :=
    Multiset.mem_sum.mpr ⟨j, by simpa [ltJ] using Ne.symm other, there⟩
  have inRest : (id, b) ∈ w.restTickets config i := by
    simp only [restTickets, Multiset.mem_add]
    exact .inl (.inl (.inl (.inr inOther)))
  have again : id ∈ (w.restTickets config i).map Prod.fst := Multiset.mem_map_of_mem Prod.fst inRest
  exact Multiset.disjoint_left.mp apart (Multiset.mem_map_of_mem Prod.fst here) again

theorem runs_worker {i id : ℕ} (runs : w.runs (.worker i) = some id) :
    (w.workers i).stage = .resumed ∧ (w.workers i).running = some id := by
  simpa [World.runs] using runs

theorem runs_exclusive {e id : ℕ} (runs : w.runs (.exclusive e) = some id) :
    id = w.services e := by
  simp only [World.runs] at runs
  split at runs
  · exact (Option.some.inj runs).symm
  · cases runs

theorem running_ticket {i id : ℕ} (running : (w.workers i).running = some id) :
    (id, (w.workers i).stage.standing) ∈ (w.workers i).tickets := by
  simp [Worker.tickets, running]

/-- A service that a worker runs has the status for it. -/
theorem Sound.worker_runs (sound : w.Sound heard hung config) {i id : ℕ} (lt : i < config.worker)
    (runs : w.runs (.worker i) = some id) :
    ∃ S, w.pool.get id = some S ∧ S.status = .running := by
  obtain ⟨stage, running⟩ := runs_worker runs
  obtain ⟨others, before, -⟩ := tickets_running lt running
  have stands := sound.stands
  rw [before, stage] at stands
  exact stands.told

theorem Sound.exclusive_runs (sound : w.Sound heard hung config) {e id : ℕ}
    (lt : e < config.exclusive) (runs : w.runs (.exclusive e) = some id) :
    ∃ S, w.pool.get id = some S ∧ S.status = .exclusive :=
  runs_exclusive runs ▸ sound.pool.exclusives e lt

/-- No service is run by two threads. -/
theorem Kept.alone (kept : w.Kept heard hung config) {t u : Thread} {id : ℕ}
    (existsT : t.Exists config) (existsU : u.Exists config) (runsT : w.runs t = some id)
    (runsU : w.runs u = some id) : t = u := by
  have mixed : ∀ i e, i < config.worker → e < config.exclusive →
      w.runs (.worker i) = some id → w.runs (.exclusive e) ≠ some id := by
    intro i e ltI ltE runsI runsE
    obtain ⟨S, found, running⟩ := kept.sound.worker_runs ltI runsI
    obtain ⟨T, there, exclusive⟩ := kept.sound.exclusive_runs ltE runsE
    obtain rfl := Option.some.inj (found.symm.trans there)
    rw [running] at exclusive
    cases exclusive
  cases t with
  | worker i =>
      cases u with
      | worker j =>
          have here := running_ticket (runs_worker runsT).2
          have there := running_ticket (runs_worker runsU).2
          exact congrArg _ (kept.sound.worker_alone existsT existsU here there)
      | exclusive e => exact absurd runsU (mixed i e existsT existsU runsT)
  | exclusive e =>
      cases u with
      | worker j => exact absurd runsT (mixed j e existsU existsT runsU)
      | exclusive d =>
          have same : e + 2 = d + 2 := by
            rw [← kept.services, ← kept.services, ← runs_exclusive runsT, ← runs_exclusive runsU]
          exact congrArg _ (Nat.add_right_cancel same)

/-- The runs of the scheduler. -/
abbrev Runs (config : Config) (start : World D) : List (World D × Action D) → World D → Prop :=
  Run (fun w a w' => w.step config a = some w') start

theorem Kept.step (kept : w.Kept heard hung config) (exclusive : 0 < config.exclusive)
    {a : Action D} (disciplined : w.Disciplined a) (sparing : w.Sparing hung a)
    (hears : heard → w.Hears) (is : w.step config a = some w') : w'.Kept heard hung config where
  sound := (kept.sound.step exclusive disciplined sparing hears is).1
  services := by
    simp only [World.step, Option.ite_none_right_eq_some] at is
    rw [next_services is.2]
    exact kept.services

variable {s : Settings} {ncores : ℕ} {d : D} {start final : World D}
  {steps : List (World D × Action D)}

theorem boot_kept (booted : boot s d = some start) : start.Kept heard hung (s.load ncores) where
  sound := boot_sound booted
  services := by
    obtain ⟨p, q, pool, rfl, -⟩ := boot_spec booted
    exact fun e => rfl

/-! ## A run with a theft

Worker 1 finds root in the schedule, gives it to worker 0, and steals it back.  Root
sends a message to the service 2, and worker 1 gets it once more with the receipt.
-/

instance (p : Pool D) (id : ℕ) (msg : Message D) : Decidable (Proper p id msg) :=
  decidable_of_iff (msg.type ≠ messageSignal ∧ (id = serviceIdRoot → msg.to' = serviceIdSystem →
      msg.type = scheduleDel → p.get msg.session = none))
    ⟨fun both => ⟨both.1, both.2⟩, fun proper => ⟨proper.1, proper.2⟩⟩

instance (hung : Prop) [Decidable hung] (p : Pool D) (id : ℕ) (msg : Message D) :
    Decidable (Spares hung p id msg) :=
  decidable_of_iff ((id = serviceIdRoot → msg.to' = serviceIdSystem → msg.type = scheduleHang →
      (p.hang msg.session).2 = false) ∧
      (id = serviceIdRoot → msg.to' = serviceIdSystem → msg.type = scheduleHang →
        p.statusGet msg.session = .idle ∨ p.statusGet msg.session = .uninitialized → hung))
    ⟨fun both => ⟨both.1, both.2⟩, fun spares => ⟨spares.1, spares.2⟩⟩

instance (hung : Prop) [Decidable hung] (w : World D) :
    (a : Action D) → Decidable (w.Sparing hung a)
  | .owner =>
      match is : w.offers with
      | none => .isTrue (by simp [Sparing, is])
      | some (id, msg) => decidable_of_iff (Spares hung w.pool id msg) (by simp [Sparing, is])
  | .call _ _ | .getJob _ | .casJob _ | .start _ | .complete _ | .acquire _ | .exit _ =>
      .isTrue trivial

instance (w : World D) : (a : Action D) → Decidable (w.Disciplined a)
  | .owner =>
      match is : w.offers with
      | none => .isTrue (by simp [Disciplined, is])
      | some (id, msg) => decidable_of_iff (Proper w.pool id msg) (by simp [Disciplined, is])
  | .call _ (.close sid) =>
      decidable_of_iff
        (w.pool.statusGet sid = .dead → w.pool.get sid = none ∨ sid ∈ w.signals) Iff.rfl
  | .call _ .recv | .call _ .receipt | .call _ (.send _) | .call _ (.post _)
  | .call _ (.init _ _) | .call _ .yield | .call _ .quit | .getJob _ | .casJob _ | .start _
  | .complete _ | .acquire _ | .exit _ => .isTrue trivial

instance (p : Pool D) : Decidable (Roomy p) :=
  match is : p.get serviceIdRoot with
  | none => .isTrue (by simp [Roomy, is])
  | some R => decidable_of_iff (R.queued.length < p.queueLength - 1) (by simp [Roomy, is])

instance (w : World D) : Decidable w.Hears :=
  match is : w.owner with
  | some (t, .dispatch goal (id :: doneJob)) =>
      decidable_of_iff (w.pool.statusGet id = .dead → Roomy w.pool) (by
        simp only [Hears, is, Option.some.injEq, Prod.mk.injEq, Phase.dispatch.injEq,
          List.cons.injEq]
        constructor
        · rintro room _ _ _ _ ⟨-, -, rfl, -⟩
          exact room
        · intro hears
          exact hears t goal id doneJob ⟨rfl, rfl, rfl, rfl⟩)
  | none | some (_, .secondComplete) | some (_, .collect _ _ _) | some (_, .dispatch _ [])
  | some (_, .finish _ _ _) | some (_, .check _ _) | some (_, .assign _ _ _)
  | some (_, .selfComplete) | some (_, .hasJob) | some (_, .steal _) | some (_, .stealLoaded _ _)
  | some (_, .give _) | some (_, .sendOut _) | some (_, .startSending) | some (_, .sending _ _)
  | some (_, .release) => .isTrue (by simp [Hears, is])

instance (w : World D) : Decidable w.Addressed :=
  match is : w.offers with
  | none => .isTrue (by simp [Addressed, is])
  | some (id, msg) =>
      match found : w.pool.get msg.to' with
      | none => .isTrue (by
          rintro id' msg' T offered there
          obtain ⟨rfl, rfl⟩ := Prod.mk.inj (Option.some.inj (is.symm.trans offered))
          rw [found] at there
          cases there)
      | some T => decidable_of_iff (T.status ≠ .uninitialized) (by
          constructor
          · rintro status id' msg' T' offered there
            obtain ⟨rfl, rfl⟩ := Prod.mk.inj (Option.some.inj (is.symm.trans offered))
            exact Option.some.inj (found.symm.trans there) ▸ status
          · exact fun addressed => addressed id msg T is found)

def sampleSettings : Settings :=
  { worker := some 2, queue := some 4, queueSending := some 4, maxService := some 4
    exclusive := 1 }

theorem Kept.along (kept : w.Kept heard hung config) (exclusive : 0 < config.exclusive)
    (run : Runs config w steps final) (disciplined : ∀ taken ∈ steps, taken.1.Disciplined taken.2)
    (sparing : ∀ taken ∈ steps, taken.1.Sparing hung taken.2)
    (hears : heard → ∀ taken ∈ steps, taken.1.Hears) :
    ∀ u ∈ visited steps final, u.Kept heard hung config :=
  run.invariant_visited
    (fun w a => w.Disciplined a ∧ w.Sparing hung a ∧ (heard → w.Hears)) _ kept
    (fun _ _ _ kept ok is => kept.step exclusive ok.1 ok.2.1 ok.2.2 is)
    fun taken member =>
      ⟨disciplined taken member, sparing taken member, fun h => hears h taken member⟩

theorem Kept.run (booted : boot s d = some start) (exclusive : 0 < s.exclusive)
    (run : Runs (s.load ncores) start steps final)
    (disciplined : ∀ taken ∈ steps, taken.1.Disciplined taken.2)
    (sparing : ∀ taken ∈ steps, taken.1.Sparing hung taken.2)
    (hears : heard → ∀ taken ∈ steps, taken.1.Hears) :
    ∀ w ∈ visited steps final, w.Kept heard hung (s.load ncores) :=
  (boot_kept booted).along exclusive run disciplined sparing hears

end World

end WindLtask.Runtime
