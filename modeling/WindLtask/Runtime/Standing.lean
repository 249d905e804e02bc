import Mathlib.Algebra.BigOperators.Group.Finset.Piecewise
import WindLtask.Lib.Tickets
import WindLtask.Runtime.Scheduler

/-!
# Where services stand

Every service that is not idle stands in one place: in the schedule, at a worker, with
the owner of the schedule, or, when it is dead, as a signal on its way to root.  The
places give out the tickets of `Lib.Ticketed`; what a ticket tells of its service is
the invariant of the scheduler.
-/

namespace WindLtask.Runtime

open Lib

variable {D : Type}

inductive Standing where
  /-- Scheduled, and not resumed yet. -/
  | waiting
  | resumed
  /-- Resumed, and not looked at by the scheduler yet. -/
  | ended
  /-- Looked at by the scheduler, and not dead. -/
  | handled
  /-- Root after its end. -/
  | gone
  /-- The signal of a dead service, until root closes it. -/
  | signalled
deriving DecidableEq

/-- The ticket of a place for one service. -/
def slip (o : Option ℕ) (standing : Standing) : Multiset (ℕ × Standing) :=
  match o with
  | some id => {(id, standing)}
  | none => 0

@[simp] theorem slip_none (standing : Standing) : slip none standing = 0 := rfl

@[simp] theorem slip_some (id : ℕ) (standing : Standing) :
    slip (some id) standing = {(id, standing)} := rfl

/-- The tickets of a place for several services. -/
def slips (ids : List ℕ) (standing : Standing) : Multiset (ℕ × Standing) :=
  (ids : Multiset ℕ).map fun id => (id, standing)

@[simp] theorem slips_nil (standing : Standing) : slips [] standing = 0 := rfl

@[simp] theorem slips_cons (id : ℕ) (ids : List ℕ) (standing : Standing) :
    slips (id :: ids) standing = {(id, standing)} + slips ids standing := rfl

@[simp] theorem slips_append (ids more : List ℕ) (standing : Standing) :
    slips (ids ++ more) standing = slips ids standing + slips more standing := by
  simp [slips, ← Multiset.coe_add]

theorem map_fst_slips (ids : List ℕ) (standing : Standing) :
    (slips ids standing).map Prod.fst = ids := by
  unfold slips
  rw [Multiset.map_map]
  exact Multiset.map_id _

/-- How the service in `running` stands. -/
def Stage.standing : Stage → Standing
  | .taken => .waiting
  | .resumed => .resumed
  | .quit => .gone
  | _ => .ended

def Worker.tickets (worker : Worker) : Multiset (ℕ × Standing) :=
  slip worker.serviceReady .waiting + slip worker.running worker.stage.standing +
    slip worker.serviceDone .ended

namespace Phase

/-- The tickets in the local variables of the owner. -/
def tickets : Phase D → Multiset (ℕ × Standing)
  | .collect _ _ doneJob | .dispatch _ doneJob => slips doneJob .ended
  | .finish _ id doneJob => {(id, .handled)} + slips doneJob .ended
  | .check _ next => next.tickets
  | .assign _ _ job => slip job .waiting
  | .give job => {(job, .waiting)}
  | _ => 0

/-- The service whose status the owner has still to look at. -/
def checks : Phase D → Option ℕ
  | .check to' _ => some to'
  | _ => none

end Phase

/-- The messages in the queue of root. -/
def rootQueue (p : Pool D) : List (Message D) :=
  ((p.get serviceIdRoot).map Service.queued).getD []

/-- The signals in a queue. -/
def signalSlips (queue : List (Message D)) : Multiset (ℕ × Standing) :=
  slips ((queue.filter (·.type = messageSignal)).map Message.from') .signalled

namespace World

def checking (w : World D) : Option ℕ := w.owner.bind fun held => held.2.checks

def ownerTickets (w : World D) : Multiset (ℕ × Standing) :=
  match w.owner with
  | some (_, phase) => phase.tickets
  | none => 0

def workerTickets (config : Config) (w : World D) : Multiset (ℕ × Standing) :=
  ∑ i ∈ Finset.range config.worker, (w.workers i).tickets

def tickets (config : Config) (w : World D) : Multiset (ℕ × Standing) :=
  slips w.schedule .waiting + w.workerTickets config + w.ownerTickets +
    slips w.signals .signalled + signalSlips (rootQueue w.pool)

end World

/-- A dead service that has still to signal root; `heard` when no signal has been lost. -/
def Service.Dying (heard : Prop) (S : Service D) : Prop :=
  S.status = .dead ∧ S.id ≠ serviceIdRoot ∧
    (S.out = some (signalOf S.id) ∨ ¬ heard ∧ S.out = none)

/-- What the standing of a service tells of it. -/
def Tells (heard : Prop) : Standing → Service D → Prop
  | .waiting, S => (S.status = .schedule ∧ S.hasMessage) ∨ S.Dying heard
  | .resumed, S => S.status = .running
  | .ended, S => S.status = .done ∨ S.Dying heard
  | .handled, S => S.status = .done
  | .gone, S => S.status = .dead
  | .signalled, S => S.status = .dead ∧ S.id ≠ serviceIdRoot

/-- What is so of a service that stands nowhere; `hung` when one at rest may have been hung up. -/
def Rests (hung : Prop) (checking : Option ℕ) (id : ℕ) (S : Service D) : Prop :=
  match S.status with
  | .exclusive => True
  | .uninitialized => S.msg = none ∧ S.receipt = .none ∧ checking ≠ some id
  | .idle => S.receipt = .none ∧ (S.queued = [] ↔ checking ≠ some id)
  -- it was hung up before it was scheduled, and nobody dispatches its signal
  | .dead => hung
  | _ => False

/-- What is so of every service. -/
structure Service.Sane (S : Service D) : Prop where
  queue : S.msg = none → S.status = .uninitialized ∨ S.status = .dead
  bounce : ∀ m, S.bounce = some m → m.type ≠ messageSignal

/-- What a goal tells of the worker that owns the schedule. -/
def Goal.Fits (worker : Worker) : Goal → Prop
  | .again => worker.running ≠ none
  | .worker => worker.running = none
  | .exclusive => False

/-- What the phase of the owner tells of the worker that owns the schedule. -/
def Phase.Fits (i : ℕ) (worker : Worker) : Phase D → Prop
  | .secondComplete => worker.running ≠ none
  | .collect goal k _ => goal.Fits worker ∧ (goal = .again → i < k → worker.serviceDone = none)
  | .dispatch goal _ | .finish goal _ _ | .assign goal _ _ =>
      goal.Fits worker ∧ (goal = .again → worker.serviceDone = none)
  | .check _ next => next.Fits i worker
  | .selfComplete => worker.running ≠ none ∧ worker.serviceDone = none
  | .hasJob | .release => worker.running = none
  | .steal _ | .stealLoaded _ _ | .give _ =>
      worker.running = none ∧ worker.serviceReady = none
  | .sendOut _ | .startSending | .sending _ _ => False

/-- What the stage of a worker tells of it; `held` is its phase when it owns the schedule. -/
def Worker.Fits (i : ℕ) (held : Option (Phase D)) (worker : Worker) : Prop :=
  match worker.stage with
  | .poll | .loaded _ | .idle => worker.running = none ∧ held = none
  | .taken | .resumed | .completing | .retry => worker.running ≠ none ∧ held = none
  | .owning => ∃ phase, held = some phase ∧ phase.Fits i worker
  | .quit => held = none

/-- The turns that an exclusive thread has left. -/
def Phase.turns : Phase D → ℕ
  | .sending left _ => left
  | .check _ next => next.turns
  | _ => 0

/-- What is so of a phase whoever is the owner. -/
def Phase.Regular (config : Config) : Phase D → Prop
  | .check _ next => next.checks = none ∧ next.Regular config
  | .stealLoaded k _ => k < config.worker
  | _ => True

/-- What is so of a pool; `services` are the services of the exclusive threads. -/
structure Pool.Sound (exclusive : ℕ) (services : ℕ → ℕ) (p : Pool D) : Prop where
  exclusives : ∀ e < exclusive, ∃ S, p.get (services e) = some S ∧ S.status = .exclusive
  root : ∃ S, p.get serviceIdRoot = some S ∧ S.status ≠ .uninitialized
  sane : ∀ id S, p.get id = some S → S.Sane
  room : 2 ≤ p.queueLength

namespace World

def services (w : World D) (e : ℕ) : ℕ := (w.exclusives e).service

def phaseOf (w : World D) (t : Thread) : Option (Phase D) :=
  match w.owner with
  | some (u, phase) => if u = t then some phase else none
  | none => none

/-- The invariant of the scheduler. -/
structure Sound (heard hung : Prop) (config : Config) (w : World D) : Prop where
  stands : Ticketed (Tells heard) (Rests hung w.checking) (w.tickets config) w.pool.get
  workers : ∀ i < config.worker, (w.workers i).Fits i (w.phaseOf (.worker i))
  ownerWorker : ∀ i phase, w.owner = some (.worker i, phase) → i < config.worker
  ownerExclusive : ∀ e phase, w.owner = some (.exclusive e, phase) →
    e < config.exclusive ∧ phase.turns ≤ (w.exclusives e).sending.length
  regular : ∀ t phase, w.owner = some (t, phase) → phase.Regular config
  pool : w.pool.Sound config.exclusive w.services

/-! ## Tickets of a changed world -/

/-- The tickets that do not depend on the pool. -/
def placed (config : Config) (w : World D) : Multiset (ℕ × Standing) :=
  slips w.schedule .waiting + w.workerTickets config + w.ownerTickets +
    slips w.signals .signalled

theorem tickets_eq (config : Config) (w : World D) :
    w.tickets config = w.placed config + signalSlips (rootQueue w.pool) := rfl

/-- The tickets of all workers but one. -/
def otherTickets (config : Config) (w : World D) (i : ℕ) : Multiset (ℕ × Standing) :=
  ∑ j ∈ Finset.range config.worker \ {i}, (w.workers j).tickets

variable {config : Config} {w : World D} {i : ℕ}

theorem workerTickets_eq (lt : i < config.worker) :
    w.workerTickets config = (w.workers i).tickets + w.otherTickets config i :=
  Finset.sum_eq_add_sum_sdiff_singleton_of_mem (Finset.mem_range.mpr lt) _

theorem setWorker_workerTickets (lt : i < config.worker) (worker : Worker) :
    (w.setWorker i worker).workerTickets config = worker.tickets + w.otherTickets config i := by
  rw [workerTickets_eq lt]
  have own : (w.setWorker i worker).workers i = worker := Function.update_self _ _ _
  rw [own]
  congr 1
  apply Finset.sum_congr rfl
  intro j member
  have other : j ≠ i := by
    rintro rfl
    simp at member
  exact congrArg Worker.tickets (Function.update_of_ne other _ _)

end World

end WindLtask.Runtime
